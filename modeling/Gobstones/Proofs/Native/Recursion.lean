import Gobstones.Proofs.Machine.Balance
import Gobstones.Proofs.Native.Agreement
/-!
# Native code of entrypoints that are called

This module extends the agreement of native code and the stack machine to programs whose
routines call the entrypoint.  Below the outermost activation a return of variables discards
them.  Native code reads them all the same, drops the operands of the activation and knows
nothing of a transaction that was left open, so the two agree where the variables have values
and there are neither operands nor a transaction.

Main results:

- Theorem {lit}`Program.orderly_of_accepted`: what native code relies on, for accepted programs.
- Theorem {lit}`run_of_recursion`: native code agrees with the machine when entrypoints are called.
- Theorem {lit}`run_of_careless`: it does not where an inner return is careless.
-/

namespace Gobstones

variable {program : Program} {entry : Routine}

/-! ## Accepted programs -/

namespace Program

/-- An accepted program has no other entrypoint than the one where execution starts. -/
theorem eq_entrypoint_of_accepted (haccepted : program.Accepted)
    (hentry : program.entrypoint? = some entry) {routine : Routine}
    (hmem : routine ∈ program.routines) (hkind : routine.kind = .entrypoint) : routine = entry := by
  have hproblems : program.entryProblems = [] := by
    have hothers := (List.append_eq_nil_iff.1 haccepted).1
    exact (List.append_eq_nil_iff.1 (List.append_eq_nil_iff.1 hothers).1).1
  have hmarked : routine ∈ program.routines.filter (·.kind = .entrypoint) := by
    simp [hmem, hkind]
  have hfound : program.routines.find? (·.kind = .entrypoint) = some entry := by
    cases hfind : program.routines.find? (·.kind = .entrypoint) with
    | none =>
      rw [List.find?_eq_none] at hfind
      exact (hfind routine hmem (by simp [hkind])).elim
    | some found =>
      rw [entrypoint?, hfind] at hentry
      exact hentry
  have hfirst : entry ∈ program.routines.filter (·.kind = .entrypoint) :=
    List.mem_filter.2 ⟨List.mem_of_find?_eq_some hfound, by simpa using List.find?_some hfound⟩
  unfold entryProblems at hproblems
  generalize program.routines.filter (·.kind = .entrypoint) = marked at hproblems hmarked hfirst
  cases marked with
  | nil => cases hmarked
  | cons only others =>
    cases others with
    | nil => rw [List.mem_singleton.1 hmarked, List.mem_singleton.1 hfirst]
    | cons second rest => simp at hproblems

/-- Returns of variables of an accepted program name as many variables as they say. -/
theorem length_names_of_accepted (haccepted : program.Accepted) (hlinks : program.links = [])
    {home : Program} {routine : Routine} (howns : program.Owns home routine) {n : Nat}
    {names : List String} (hmem : .returnVars n names ∈ routine.code) : names.length = n := by
  have hmeasured := Measured.of_accepted haccepted hlinks
  obtain ⟨-, hlength⟩ := callProblems_eq_nil_iff.1 (hmeasured.calls home howns.reaches) routine
    howns.mem _ hmem
  exact hlength

/-- What native code relies on is the case for an accepted program if called builtins are standard
ones, procedures return no values, and the entrypoint always returns the same variables. -/
theorem orderly_of_accepted (haccepted : program.Accepted) (hlinks : program.links = [])
    (hentry : program.entrypoint? = some entry) (hparams : entry.params = [])
    (hleaves : ∀ n, .ret n ∉ entry.code)
    (hsame : ∀ n names, .returnVars n names ∈ entry.code →
      ∀ n' names', .returnVars n' names' ∈ entry.code → names' = names)
    (hreturns : ∀ routine ∈ program.routines, routine.kind = .procedure →
      ∀ n, .ret n ∈ routine.code → n = 0)
    (hbuiltins : ∀ routine ∈ program.routines, ∀ name argc, .call name argc ∈ routine.code →
      ∀ builtin, program.resolve? name = some (.builtin builtin) →
        builtin ∈ BuiltinTable.standard.entries) : program.Orderly entry where
  builtins home routine howns name argc hcall builtin hresolve := by
    rw [howns.reaches.eq_of_links hlinks] at hresolve
    exact hbuiltins routine (howns.reaches.eq_of_links hlinks ▸ howns.mem) name argc hcall builtin
      hresolve
  names := .of_links hlinks
  returns home routine howns hkind n hret := by
    have hmem : routine ∈ program.routines := howns.reaches.eq_of_links hlinks ▸ howns.mem
    cases hroutine : routine.kind with
    | function => exact (hkind hroutine).elim
    | procedure => exact hreturns routine hmem hroutine n hret
    | entrypoint =>
      rw [eq_entrypoint_of_accepted haccepted hentry hmem hroutine] at hret
      exact (hleaves n hret).elim
  counts n names hmem := by
    have howns := owns_entrypoint hentry
    have hlength := length_names_of_accepted haccepted hlinks howns hmem
    refine ⟨hlength, fun n' names' hmem' => ?_⟩
    have hlength' := length_names_of_accepted haccepted hlinks howns hmem'
    rw [← hlength, ← hlength', hsame n names hmem n' names' hmem']
  params := hparams

end Program

namespace Native

variable {board : Board} {code : NativeCode} {final : Machine} {outcome : Outcome} {fuel : Nat}

/-- Native code ends like the stack machine in a program whose routines may call the entrypoint,
if its activations below the outermost one return variables that have values, without operands
and outside of transactions. -/
theorem run_of_recursion (haccepted : program.Accepted) (hlinks : program.links = [])
    (hcompile : compile program = .ok code) (hentry : program.entrypoint? = some entry)
    (hparams : entry.params = []) (hleaves : ∀ n, .ret n ∉ entry.code)
    (hsame : ∀ n names, .returnVars n names ∈ entry.code →
      ∀ n' names', .returnVars n' names' ∈ entry.code → names' = names)
    (hreturns : ∀ routine ∈ program.routines, routine.kind = .procedure →
      ∀ n, .ret n ∈ routine.code → n = 0)
    (hbuiltins : ∀ routine ∈ program.routines, ∀ name argc, .call name argc ∈ routine.code →
      ∀ builtin, program.resolve? name = some (.builtin builtin) →
        builtin ∈ BuiltinTable.standard.entries)
    (hboard : board.Reachable) (hfits : board.nativeLength < 2 ^ 63)
    (hrun : (Machine.new program board none).execute fuel = (final, outcome))
    (hended : outcome ≠ .running)
    (hkinds : ∀ fault, outcome = .failed fault →
      fault.kind ≠ .typeMismatch ∧ fault.kind ≠ .immutableAssignment)
    (htame : ∀ k next,
      (Machine.new program board none).execute k = (next, .running) → next.TameAnywhere)
    (host : Host) :
    ∃ enough, ∀ more, enough ≤ more →
      code.runFor host more board = resultOf board final outcome := by
  have horderly := Program.orderly_of_accepted haccepted hlinks hentry hparams hleaves hsame
    hreturns hbuiltins
  obtain ⟨setting, rfl, rfl, rfl, rfl, rfl, hprepared⟩ :=
    exists_prepared hcompile hentry horderly hboard hfits host
  have hexcludes : Setting.Excludes outcome := by
    cases outcome with
    | failed fault => exact hkinds fault rfl
    | _ => trivial
  have hnamed (next : Machine) (v : View) (n : Nat) (hshows : setting.Shows next v n) :
      next.Named := by
    obtain ⟨top, callers, -, -, -, -, -, hframes, howns, -⟩ := hshows.exists_waits hprepared
    intro other others count names hother hinstruction
    obtain ⟨rfl, rfl⟩ := List.cons.inj (hframes.symm.trans hother)
    exact Program.length_names_of_accepted haccepted hlinks howns
      (Array.mem_of_getElem? hinstruction)
  have hresult : ∃ result, resultOf setting.board final outcome = some result := by
    cases outcome with
    | running => exact (hended rfl).elim
    | _ => exact ⟨_, rfl⟩
  rcases hresult with ⟨result, hresult⟩
  have hleads := (setting.leads_arrives hprepared hrun hended
    (fun k next v n hnext hshows => ⟨htame k next hnext, hnamed next v n hshows⟩)
    hexcludes).trans fun v n harrives => harrives.leads_ends hprepared hsame hresult
  rw [hresult]
  exact exists_run_of_leads (hleads.mono fun v n hends => ⟨hends.place, hends.outcome⟩)

end Native

/-! ## Entrypoints that call themselves -/

namespace Recursion

/-- Put a stone and call the entrypoint again, where there is a stone then.  The variable that the
inner activation returns is discarded. -/
def main : Routine where
  kind := .entrypoint
  name := "program"
  params := []
  code := #[.pushConst (.color .red), .call "existStones" 1, .jumpIfFalse "first",
    .pushConst (.int 1), .popTo "x", .returnVars 1 ["x@Int"], .label "first",
    .pushConst (.color .red), .call "PutStone" 1, .call "program" 0, .pushConst (.int 2),
    .popTo "x", .returnVars 1 ["x@Int"]]
  targets := #[none, none, some 7, none, none, none, none, none, none, none, none, none, none]
  resolved := by decide

/-- The same without a value for the inner activation to return. -/
def unbound : Routine where
  kind := .entrypoint
  name := "program"
  params := []
  code := #[.pushConst (.color .red), .call "existStones" 1, .jumpIfFalse "first",
    .returnVars 1 ["x@Int"], .label "first", .pushConst (.color .red), .call "PutStone" 1,
    .call "program" 0, .pushConst (.int 2), .popTo "x", .returnVars 1 ["x@Int"]]
  targets := #[none, none, some 5, none, none, none, none, none, none, none, none]
  resolved := by decide

/-- Return from the inner activation with an operand, where the outer one has an operand, too. -/
def crowded : Routine where
  kind := .entrypoint
  name := "program"
  params := []
  code := #[.pushConst (.color .red), .call "existStones" 1, .jumpIfFalse "first",
    .pushConst (.color .green), .returnVars 0 [], .label "first", .pushConst (.color .red),
    .pushConst (.color .red), .call "PutStone" 1, .call "program" 0, .call "PutStone" 1,
    .returnVars 0 []]
  targets := #[none, none, some 6, none, none, none, none, none, none, none, none, none]
  resolved := by decide

/-- Return from the inner activation inside its transaction. -/
def unclosed : Routine where
  kind := .function
  name := "program"
  params := []
  code := #[.enter, .pushConst (.color .red), .call "existStones" 1, .jumpIfFalse "first",
    .returnVars 0 [], .label "first", .call "tidy" 0, .returnVars 0 []]
  targets := #[none, none, none, some 6, none, none, none, none]
  resolved := by decide

/-- Put a stone in a transaction in which the entrypoint is called. -/
def tidy : Routine where
  kind := .function
  name := "tidy"
  params := []
  code := #[.enter, .pushConst (.color .red), .call "PutStone" 1, .call "program" 0, .leave,
    .ret 0]
  targets := Array.replicate 6 none
  resolved := rfl

/-- Put a stone and return nothing. -/
def put : Routine where
  kind := .entrypoint
  name := "program"
  params := []
  code := #[.pushConst (.color .red), .call "PutStone" 1, .returnVars 0 []]
  targets := Array.replicate 3 none
  resolved := rfl

/-- The program of one routine. -/
def alone (routine : Routine) : Program where
  moduleName := "main"
  routines := [routine]
  builtins := BuiltinTable.standard
  links := []
  distinct := by simp

/-- The program with an inner activation that returns inside its transaction. -/
def unclosedProgram : Program where
  moduleName := "main"
  routines := [unclosed, tidy]
  builtins := BuiltinTable.standard
  links := []
  distinct := by decide

/-- The program that puts a stone, where the name of that builtin stands for taking one. -/
def disguised : Program where
  moduleName := "main"
  routines := [put]
  builtins := BuiltinTable.empty.insert (Builtin.takeStone.withName "PutStone")
  links := []
  distinct := by simp

end Recursion

namespace Native

theorem run_of_recursion_alone :
    ∃ code, compile (Recursion.alone Recursion.main) = .ok code ∧
      ∃ final, (Machine.new (Recursion.alone Recursion.main) Probe.board none).execute 15 =
          (final, .finished [("x", .int 2)]) ∧
        ∃ enough, ∀ more, enough ≤ more → code.run more Probe.board =
          some (.ok ([("x", .int 2)], Probe.board.takeOver final.board)) := by
  obtain ⟨code, hcompile⟩ := exists_compile
    (by decide +kernel : (compile (Recursion.alone Recursion.main)).toOption.isSome)
  have hends : ((Machine.new (Recursion.alone Recursion.main) Probe.board none).execute 15).2 =
      .finished [("x", .int 2)] := by
    decide +kernel
  have htame : ∀ k < 15,
      ((Machine.new (Recursion.alone Recursion.main) Probe.board none).execute k).1.TameAnywhere := by
    decide +kernel
  have hreturned (n : Nat) (names : List String)
      (hmem : .returnVars n names ∈ Recursion.main.code) : names = ["x@Int"] := by
    have hreturned : n = 1 ∧ names = ["x@Int"] := by simpa [Recursion.main] using hmem
    exact hreturned.2
  rcases hexecute : (Machine.new (Recursion.alone Recursion.main) Probe.board none).execute 15 with
    ⟨final, outcome⟩
  rw [hexecute] at hends
  obtain rfl : outcome = .finished [("x", .int 2)] := hends
  refine ⟨code, hcompile, final, rfl, run_of_recursion (by decide +kernel) rfl hcompile rfl rfl ?_
    (fun n names hmem n' names' hmem' => ?_) ?_
    (fun _ _ _ _ _ _ => Program.mem_standard_of_resolve rfl) Probe.reachable_board (by decide)
    hexecute (by simp) (by simp) (Machine.forall_of_ended (by simp [hexecute]) htame) .idle⟩
  · simp [Recursion.main]
  · rw [hreturned n names hmem, hreturned n' names' hmem']
  · simp [Recursion.alone, Recursion.main]

/-- Accepted programs with which native code disagrees.  It reads a variable that the inner
activation returns without a value, where the machine goes on; it drops the operand of the inner
activation, where the machine leaves it for the outer one; it closes the transaction of the outer
function, where the machine closes the one that the inner activation has left open; and it knows
builtins by their names. -/
theorem run_of_careless :
    ((Recursion.alone Recursion.unbound).Accepted ∧
      ((Machine.new (Recursion.alone Recursion.unbound) Probe.board none).execute 20).2 =
        .finished [("x", .int 2)] ∧
      ∃ code, compile (Recursion.alone Recursion.unbound) = .ok code ∧
        code.run 300 Probe.board =
          some (.error (.fault (FaultCause.uninitialized "x").message))) ∧
    ((Recursion.alone Recursion.crowded).Accepted ∧
      (let ended := (Machine.new (Recursion.alone Recursion.crowded) Probe.board none).execute 20
      ended.2 = .finished [] ∧ ended.1.board.cells = #[⟨0, 0, 1, 1⟩]) ∧
      ∃ code, compile (Recursion.alone Recursion.crowded) = .ok code ∧
        code.run 300 Probe.board = some (.ok ([], { Probe.board with cells := #[⟨0, 0, 2, 0⟩] }))) ∧
    (Recursion.unclosedProgram.Accepted ∧
      (let ended := (Machine.new Recursion.unclosedProgram Probe.board none).execute 30
      ended.2 = .finished [] ∧ ended.1.board.cells = #[⟨0, 0, 1, 0⟩]) ∧
      ∃ code, compile Recursion.unclosedProgram = .ok code ∧
        code.run 400 Probe.board = some (.ok ([], Probe.board))) ∧
    (Recursion.disguised.Accepted ∧
      (∃ fault, ((Machine.new Recursion.disguised Probe.board none).execute 10).2 =
        .failed fault) ∧
      ∃ code, compile Recursion.disguised = .ok code ∧
        code.run 200 Probe.board =
          some (.ok ([], { Probe.board with cells := #[⟨0, 0, 1, 0⟩] }))) := by
  refine ⟨⟨by decide +kernel, by decide +kernel, exists_of_compile ?_⟩,
    ⟨by decide +kernel, by decide +kernel, exists_of_compile ?_⟩,
    ⟨by decide +kernel, by decide +kernel, exists_of_compile ?_⟩,
    ⟨by decide +kernel, ⟨_, rfl⟩, exists_of_compile ?_⟩⟩ <;> decide +kernel

end Native
end Gobstones
