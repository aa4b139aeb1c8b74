import Gobstones.Proofs.Native.Entry
import Gobstones.Proofs.Program.Renaming
/-!
# Native code agrees with the stack machine

This module puts the pieces together.  A run of the stack machine that ends is followed
by native code from the host through the routines and back: the host finds the same
results and the same board, or it finds the message of the fault and leaves the board
alone.

Main results:

- Theorem {lit}`Setting.leads_arrives`: native code follows a run from the host to its end.
- Theorem {lit}`Setting.leads_result`: native code comes back to the host with the result.
- Theorem {lit}`run_of_execute`: a run of native code ends like a run of the machine.
-/

namespace Gobstones
namespace Native

variable {program : Program} {entry : Routine} {board : Board} {code : NativeCode}
variable {final : Machine} {outcome : Outcome} {fuel : Nat}

/-- What the host finds after a run that has ended.  The logs of its board stay. -/
def resultOf (board : Board) (final : Machine) :
    Outcome → Option (Except NativeError (Bindings × Board))
  | .running => none
  | .finished bindings => some (.ok (bindings, board.takeOver final.board))
  | .failed fault => some (.error (.fault (shownMessage fault.message)))

/-- Native code follows a run from the host to its end. -/
theorem Setting.leads_arrives {setting : Setting} (hprepared : setting.Prepared)
    (hrun : (Machine.new setting.program setting.board none).execute fuel = (final, outcome))
    (hended : outcome ≠ .running)
    (htame : ∀ k next v n,
      (Machine.new setting.program setting.board none).execute k = (next, .running) →
        setting.Shows next v n → next.TameAnywhere ∧ next.Named)
    (hexcludes : Excludes outcome) :
    setting.code.Leads (setting.code.hostView setting.host setting.board) 0
      (setting.Arrives (final, outcome)) := by
  have hstarts : ∃ called,
      (Machine.new setting.program setting.board none).callEntrypoint = some called := by
    rw [Machine.callEntrypoint, Machine.new, hprepared.entrypoint]
    exact ⟨_, rfl⟩
  rcases hstarts with ⟨called, hcalled⟩
  simp only [Machine.execute, hcalled] at hrun htame
  exact (leads_entry hprepared hcalled).trans fun v n hshows =>
    leads_run hprepared hshows htame hrun hended hexcludes

/-- Native code comes back to the host with the result of a run if the host expects the variables
that are returned. -/
theorem Setting.Arrives.leads_ends {setting : Setting} (hprepared : setting.Prepared) {v : View}
    {n : Nat} (h : setting.Arrives (final, outcome) v n)
    (hsame : ∀ n names, .returnVars n names ∈ setting.entry.code →
      ∀ n' names', .returnVars n' names' ∈ setting.entry.code → names' = names)
    {result : Except NativeError (Bindings × Board)}
    (hresult : resultOf setting.board final outcome = some result) :
    setting.code.Leads v n (setting.Ends result) := by
  cases outcome with
  | running => cases hresult
  | finished bindings =>
    obtain rfl := Option.some.inj hresult
    have hfinishing : setting.Finishing bindings final.board v n := h
    have hleads := hfinishing.leads_exit hprepared
    rw [hfinishing.relabel_eq (hfinishing.results_eq hprepared hsame)] at hleads
    exact hleads
  | failed fault =>
    obtain rfl := Option.some.inj hresult
    exact Failing.leads_stub hprepared h

/-- Native code comes back to the host with the result of a run. -/
theorem Setting.leads_result {setting : Setting} (hvalid : setting.Valid)
    (hrun : (Machine.new setting.program setting.board none).execute fuel = (final, outcome))
    (htame : ∀ k next,
      (Machine.new setting.program setting.board none).execute k = (next, .running) → next.Tame)
    (hexcludes : Excludes outcome) {result : Except NativeError (Bindings × Board)}
    (hresult : resultOf setting.board final outcome = some result) :
    setting.code.Leads (setting.code.hostView setting.host setting.board) 0 (setting.Ends result) := by
  have hended : outcome ≠ .running := by
    rintro rfl
    cases hresult
  have hleads := leads_arrives hvalid.prepared hrun hended
    (fun k next _ _ hnext hshows => hshows.tameAnywhere hvalid (htame k next hnext)) hexcludes
  exact hleads.trans fun v n harrives =>
    harrives.leads_ends hvalid.prepared hvalid.conventional.sameVars hresult

/-- Compiled code is the code of a setting in which native code can be followed. -/
theorem exists_prepared (hcompile : compile program = .ok code)
    (hentry : program.entrypoint? = some entry) (horderly : program.Orderly entry)
    (hboard : board.Reachable) (hfits : board.nativeLength < 2 ^ 63) (host : Host) :
    ∃ setting : Setting, setting.program = program ∧ setting.entry = entry ∧
      setting.board = board ∧ setting.code = code ∧ setting.host = host ∧ setting.Prepared := by
  rcases assembled_of_compile hcompile with ⟨first, routines, stubs, hfirst, hassembled⟩
  obtain rfl : first = entry := Option.some.inj (hfirst.symm.trans hentry)
  exact ⟨{ program, entry := first, board, code, routines, stubs, host }, rfl, rfl, rfl, rfl, rfl,
    hentry, horderly, hassembled, hboard.sound, hfits⟩

/-- A run of native code ends like the run of the stack machine, whichever host calls it: with the
same results and the same board, or with the message of the fault. -/
theorem run_of_execute (hcompile : compile program = .ok code)
    (hentry : program.entrypoint? = some entry) (hconventional : program.Conventional entry)
    (hboard : board.Reachable) (hfits : board.nativeLength < 2 ^ 63)
    (hrun : (Machine.new program board none).execute fuel = (final, outcome))
    (hended : outcome ≠ .running)
    (hkinds : ∀ fault, outcome = .failed fault →
      fault.kind ≠ .typeMismatch ∧ fault.kind ≠ .immutableAssignment)
    (htame : ∀ k next,
      (Machine.new program board none).execute k = (next, .running) → next.Tame) (host : Host) :
    ∃ enough, ∀ more, enough ≤ more →
      code.runFor host more board = resultOf board final outcome := by
  rcases assembled_of_compile hcompile with ⟨first, routines, stubs, hfirst, hassembled⟩
  obtain rfl : first = entry := Option.some.inj (hfirst.symm.trans hentry)
  let setting : Setting := { program, entry := first, board, code, routines, stubs, host }
  have hvalid : setting.Valid := ⟨hentry, hconventional, hassembled, hboard.sound, hfits⟩
  have hexcludes : Setting.Excludes outcome := by
    cases outcome with
    | failed fault => exact hkinds fault rfl
    | _ => trivial
  have hresult : ∃ result, resultOf board final outcome = some result := by
    cases outcome with
    | running => exact (hended rfl).elim
    | _ => exact ⟨_, rfl⟩
  rcases hresult with ⟨result, hresult⟩
  rw [hresult]
  have hleads := setting.leads_result hvalid hrun htame hexcludes hresult
  exact exists_run_of_leads (hleads.mono fun v n hends => ⟨hends.place, hends.outcome⟩)

end Native

namespace Tally

/-- Turn a count around if it is not zero, and return it. -/
def main : Routine where
  kind := .entrypoint
  name := "program"
  params := []
  code := #[.call "probe" 0, .popTo "n", .pushFrom "n", .jumpIfNotIn [.int 0] "count",
    .returnVars 1 ["n@Int"], .label "count", .pushFrom "n", .call "opposite@Int" 1, .popTo "n",
    .returnVars 1 ["n@Int"]]
  targets := #[none, none, none, some 6, none, none, none, none, none, none]
  resolved := by decide

/-- The program of the entrypoint and of the function that counts. -/
def program : Program where
  moduleName := "main"
  routines := [main, Probe.probe]
  builtins := BuiltinTable.standard
  links := []
  distinct := by decide

theorem conventional : program.Conventional main where
  builtins home hhome := by
    rw [hhome.eq_of_links rfl]
    rfl
  names first second hfirst hsecond _ := by
    rw [hfirst.eq_of_links rfl, hsecond.eq_of_links rfl]
  returns home routine howns hkind n hret := by
    have hmem := howns.mem
    rw [howns.reaches.eq_of_links rfl] at hmem
    have hroutine : routine = main ∨ routine = Probe.probe := by simpa [program] using hmem
    rcases hroutine with rfl | rfl
    · simp [main] at hret
    · exact (hkind rfl).elim
  vars home routine howns n names hvars := by
    have hmem := howns.mem
    have hhome := howns.reaches.eq_of_links rfl
    rw [hhome] at hmem
    have hroutine : routine = main ∨ routine = Probe.probe := by simpa [program] using hmem
    rcases hroutine with rfl | rfl
    · have hreturned : n = 1 ∧ names = ["n@Int"] := by simpa [main] using hvars
      obtain ⟨rfl, rfl⟩ := hreturned
      exact ⟨hhome, rfl, rfl⟩
    · simp [Probe.probe] at hvars
  sameVars n names hvars n' names' hvars' := by
    have hreturned : n = 1 ∧ names = ["n@Int"] := by simpa [main] using hvars
    have hreturned' : n' = 1 ∧ names' = ["n@Int"] := by simpa [main] using hvars'
    rw [hreturned.2, hreturned'.2]
  uncalled _ _ _ home routine howns name argc hcall hcallee := by
    have hall : ∀ routine ∈ program.routines, ∀ instruction ∈ routine.code,
        ∀ name ∈ instruction.callName?, (program.callee? name).map (·.2.name) ≠ some "program" := by
      decide
    have hhome := howns.reaches.eq_of_links rfl
    have hmem := howns.mem
    rw [hhome] at hmem hcallee
    refine hall routine hmem _ hcall name rfl ?_
    rw [hcallee]
    rfl
  params := rfl

end Tally

namespace Native

theorem run_of_execute_tally :
    ∃ code, compile Tally.program = .ok code ∧
      ∃ final, (Machine.new Tally.program Probe.board none).execute 17 =
          (final, .finished [("n", .int (-1))]) ∧
        ∃ enough, ∀ more, enough ≤ more → code.run more Probe.board =
          some (.ok ([("n", .int (-1))], Probe.board.takeOver final.board)) := by
  have hcompiles : (compile Tally.program).toOption.isSome := by
    decide +kernel
  have hends : ((Machine.new Tally.program Probe.board none).execute 17).2 =
      .finished [("n", .int (-1))] := by
    decide +kernel
  have htame : ∀ k < 17, ((Machine.new Tally.program Probe.board none).execute k).1.Tame := by
    decide +kernel
  rcases hexecute : (Machine.new Tally.program Probe.board none).execute 17 with ⟨final, outcome⟩
  rw [hexecute] at hends
  obtain rfl : outcome = .finished [("n", .int (-1))] := hends
  cases hcompile : compile Tally.program with
  | error e => simp [hcompile, Except.toOption] at hcompiles
  | ok code =>
    refine ⟨code, rfl, final, rfl, run_of_execute hcompile rfl Tally.conventional
      Probe.reachable_board (by decide) hexecute (by simp) (by simp) (fun k next hnext => ?_) .idle⟩
    by_cases hk : k < 17
    · have hhere := htame k hk
      rwa [hnext] at hhere
    · obtain ⟨more, rfl⟩ := Nat.exists_eq_add_of_le (Nat.le_of_not_lt hk)
      have hended := Machine.execute_add_of_ended 17 more
        (Machine.new Tally.program Probe.board none) (by simp [hexecute])
      rw [hended, hexecute] at hnext
      cases hnext

end Native
end Gobstones
