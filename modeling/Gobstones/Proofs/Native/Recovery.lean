import Gobstones.Proofs.Native.Labels
import Gobstones.Proofs.Native.Roles
import Gobstones.Proofs.Native.Safety
/-!
# The way back from failures

This module says that native code gets back to the host from every failure, however deep the call
that fails.  The stub of a message finds the result buffer where the entry stub has put its
address, and it resets the stack pointer to where the entry stub has saved the registers of the
host; what it takes from there is what the host had in them.

A builtin that goes by the name of a standard one but takes other arguments leaves other words on
the stack than its callers expect.  Then a routine may return into the entry stub in the middle of
the run, and the stub of a message stores its message wherever a register happens to point.

Main definitions:

- {lit}`Processor.performAll`: the effect of several instructions.
- {lit}`NativeCode.RestoresHost`: a processor can report a failure and return to the host.

Main results:

- Theorem {lit}`Stage.recovers_of_traces`: at a stub everything is where the entry stub left it.
- Theorem {lit}`restoresHost_of_traces`: registers keep their roles, and stubs return to the host.
- Theorem {lit}`misplaced_of_misfit`: a message is lost if a builtin takes other arguments.
-/

namespace Gobstones
namespace Native

/-! ## Several instructions -/

/-- The effect of instructions one after the other, none of which branches. -/
def Processor.performAll (place : Label → Option Nat) (p : Processor) :
    List Instr → Option Processor
  | [] => some p
  | instr :: rest => (p.perform place instr).bind fun next => next.performAll place rest

variable {p : Processor} {place : Label → Option Nat} {code : NativeCode} {host : Host}
variable {board : Board}

/-- Words that lie one above the other on the stack are popped into registers. -/
theorem Processor.exists_performAll_pop {targets : List Register} {words : List Word} {offset : Int}
    (hrsp : p.reg .rsp = .stack offset) (hlength : targets.length = words.length)
    (hread : ∀ (i : Nat) (w : Word), words[i]? = some w →
      p.read64 (.stack (offset + 8 * i)) = some w)
    (hother : .rsp ∉ targets) (hnodup : targets.Nodup) :
    ∃ p', p.performAll place (targets.map .pop) = some p' ∧
      (∀ (i : Nat) (r : Register), targets[i]? = some r → words[i]? = some (p'.reg r)) ∧
      (∀ r ∉ targets, r ≠ .rsp → p'.reg r = p.reg r) ∧
      p'.reg .rsp = .stack (offset + 8 * targets.length) := by
  induction targets generalizing p words offset with
  | nil => exact ⟨p, rfl, by simp, fun _ _ _ => rfl, by simpa using hrsp⟩
  | cons target targets ih =>
    cases words with
    | nil => cases hlength
    | cons w words =>
      obtain ⟨hfresh, hnodup⟩ := List.nodup_cons.1 hnodup
      have hne : Register.rsp ≠ target := List.ne_of_not_mem_cons hother
      have hpop : p.perform place (.pop target) =
          some ((p.setReg .rsp (.stack (offset + 8))).setReg target w) := by
        have hfirst : p.read64 (.stack offset) = some w := by simpa using hread 0 w rfl
        simp only [perform, popWord, hrsp, hfirst]
        rfl
      have htop : ((p.setReg .rsp (.stack (offset + 8))).setReg target w).reg .rsp =
          .stack (offset + 8) :=
        (reg_setReg_of_ne hne).trans reg_setReg_self
      have hnext (i : Nat) (w : Word) (hw : words[i]? = some w) :
          p.read64 (.stack (offset + 8 + 8 * i)) = some w := by
        have hword := hread (i + 1) w hw
        rwa [Nat.cast_succ, mul_add, mul_one, ← add_assoc, add_right_comm] at hword
      obtain ⟨p', hall, hpopped, hothers, htop'⟩ := ih htop (Nat.succ.inj hlength) hnext
        (List.not_mem_of_not_mem_cons hother) hnodup
      refine ⟨p', (congrArg (Option.bind · _) hpop).trans hall, fun i r hr => ?_,
        fun r hr hrsp => ?_, ?_⟩
      · cases i with
        | zero =>
          obtain rfl : target = r := Option.some.inj hr
          exact congrArg some ((hothers target hfresh hne.symm).trans reg_setReg_self).symm
        | succ i => exact hpopped i r hr
      · exact (hothers r (List.not_mem_of_not_mem_cons hr) hrsp).trans
          ((reg_setReg_of_ne (List.ne_of_not_mem_cons hr)).trans (reg_setReg_of_ne hrsp))
      · rw [htop', List.length_cons, Nat.cast_succ, mul_add, mul_one, ← add_assoc, add_right_comm]

/-! ## Failures -/

namespace Stage

variable {stage : Stage} {s : Traced}

/-- A stub begins with the report of a failure, which relies on what the entry stub has set up. -/
theorem exists_hostly {n : Nat} {message : String} {label : Label}
    (hat : code.At n (faultStub message label)) :
    ∃ word instr, code.instrs[n + 1]? = some (.movImm .rax word) ∧
      code.instrs[n + 2]? = some instr ∧ instr.isHostly = true := by
  unfold faultStub at hat
  cases hwords : messageWords message with
  | nil =>
    rw [hwords] at hat
    exact ⟨sentinel, .mov .rsp .rsi, hat 1 _ rfl, hat 2 _ rfl, rfl⟩
  | cons word words =>
    rw [hwords] at hat
    exact ⟨word, .store (memAt .r15 (8 * (0 : Nat))) .rax, hat 1 _ rfl, hat 2 _ rfl, rfl⟩

/-- At a stub everything is where the entry stub left it. -/
theorem recovers_of_traces (hfit : stage.Fit)
    (hreaches : stage.code.Traces stage.host stage.board s) {stub : String × Label}
    (hstub : stub ∈ stage.stubs) (hplace : stage.code.place stub.2 = some s.cpu.position) :
    stage.code.Recovers stage.host s.cpu := by
  obtain ⟨n, -, hat⟩ := hfit.regions.stub stub hstub
  have hbind : stage.code.instrs[n]? = some (.bind stub.2) := hat 0 _ rfl
  have hposition : s.cpu.position = n + 1 := hfit.regions.linked.bind_of_place hplace hbind
  obtain ⟨word, instr, hload, hinstr, hhostly⟩ := exists_hostly hat
  -- The state after the first instruction keeps to what a state there has to keep to.
  let next : Processor := (s.cpu.goTo (s.cpu.position + 1)).setReg .rax (.int word)
  have hstep : s.cpu.step stage.code.instrs stage.code.place = .running next := by
    rw [← hposition] at hload
    simp only [Processor.step, hload]
    rfl
  obtain ⟨calls, hnext⟩ := @NativeCode.exists_next_of_step _ _ _ s.calls hstep
  have hguarded := guarded_of_traces hfit (hreaches.tail hnext)
  have hthere : stage.code.instrs[next.position]? = some instr := by
    rw [show next.position = n + 2 from congrArg (· + 1) hposition]
    exact hinstr
  have hrecovers := hguarded.recovers instr hthere hhostly
  exact ⟨hrecovers.results, hrecovers.checkpoint, hrecovers.words⟩

end Stage

/-- Whether a register belongs to the host: who is called has to give it back as it was. -/
def Register.isCalleeSaved : Register → Bool
  | rbx | rbp | rsp | r12 | r13 | r14 | r15 => true
  | _ => false

/-- A failure can be reported, and the host can be returned to: the result buffer is where the host
has passed it, the checkpoint is where the registers of the host have been saved, and resetting the
stack pointer to it restores all of them. -/
structure NativeCode.RestoresHost (code : NativeCode) (host : Host) (board : Board)
    (p : Processor) : Prop where
  results : p.reg .r15 = (code.start host board).reg .rsi
  checkpoint : ∃ saved, (code.start host board).performAll code.place saveHostRegisters =
    some saved ∧ p.reg .rsi = saved.reg .rsp
  restored : ∃ p', p.performAll code.place (.mov .rsp .rsi :: restoreHostRegisters) = some p' ∧
    ∀ r, r.isCalleeSaved = true → p'.reg r = (code.start host board).reg r

/-- The registers of the host are popped from the checkpoint on. -/
theorem NativeCode.Recovers.restoresHost (h : code.Recovers host p) :
    code.RestoresHost host board p where
  results := h.results
  checkpoint := ⟨_, rfl, h.checkpoint⟩
  restored := by
    have hrsp : (p.setReg .rsp (p.reg .rsi)).reg .rsp = .stack (-56) :=
      Processor.reg_setReg_self.trans h.checkpoint
    let words : List Word := 
      [host.regs.r15, host.regs.r14, host.regs.r13, host.regs.r12, host.regs.rbx, host.regs.rbp]
    have hread (i : Nat) (w : Word) (hw : words[i]? = some w) :
        p.read64 (.stack (-56 + 8 * i)) = some w := by
      have hlt := (List.getElem?_eq_some_iff.1 hw).1
      have hword : (words ++ [.code code.instrs.size])[i]? = some w :=
        (List.getElem?_append_left hlt).trans hw
      rw [add_comm]
      exact h.words i w hword
    obtain ⟨p', hall, hpopped, -, htop⟩ := @Processor.exists_performAll_pop _ code.place
      [.r15, .r14, .r13, .r12, .rbx, .rbp] words _ hrsp rfl hread (by decide) (by decide)
    refine ⟨p', hall, fun r hr => ?_⟩
    cases r with
    | rsp => exact htop
    | r15 => exact (Option.some.inj (hpopped 0 .r15 rfl)).symm
    | r14 => exact (Option.some.inj (hpopped 1 .r14 rfl)).symm
    | r13 => exact (Option.some.inj (hpopped 2 .r13 rfl)).symm
    | r12 => exact (Option.some.inj (hpopped 3 .r12 rfl)).symm
    | rbx => exact (Option.some.inj (hpopped 4 .rbx rfl)).symm
    | rbp => exact (Option.some.inj (hpopped 5 .rbp rfl)).symm
    | _ => cases hr

variable {program : Program} {entry : Routine}

/-- Registers keep their roles in native code.  Whatever the program, no instruction of a routine
writes to the registers that the entry stub has set up, and the head is moved by the code for that
only.  If builtins have the shapes of those that they are named after, every failure of every run
can be reported, and whatever the host had in its registers and on the stack, the stub gives the
registers back. -/
theorem restoresHost_of_traces (hcompile : compile program = .ok code)
    (hentry : program.entrypoint? = some entry) (hparams : entry.params = [])
    (hnames : program.NamesModules) :
    ∃ routines stubs first last, Regions code program entry routines stubs first last ∧
      code.instrs.toList.drop last = stubs.flatMap (fun stub => faultStub stub.1 stub.2) ∧
      KeepsRoles stubs ((code.instrs.toList.take last).drop first) ∧
      (∀ s s', code.Next s s' → first ≤ s.cpu.position → s.cpu.position < last →
        ∀ r, r.isReserved = true → s'.cpu.reg r = s.cpu.reg r) ∧
      (program.ShapesBuiltins → ∀ board : Board, board.WellFormed → board.nativeLength < 2 ^ 63 →
        ∀ host s, code.Traces host board s → ∀ stub ∈ stubs,
          code.place stub.2 = some s.cpu.position → code.RestoresHost host board s.cpu) := by
  obtain ⟨other, routines, stubs, opened, closed, hemitted, hregions⟩ := emitted_of_compile hcompile
  obtain rfl := Option.some.inj (hregions.entrypoint.symm.trans hentry)
  refine ⟨routines, stubs, _, _, hregions, ?_, hemitted.keepsRoles, fun s s' hnext hfirst hlast r =>
    hemitted.reg_of_next hnext hfirst hlast, fun hbuiltins board hboard hfits host s hreaches stub
      hstub hplace => ?_⟩
  · rw [hemitted.placed, ← Array.length_toList, List.drop_left]
  · have hfit : Stage.Fit ⟨⟨program, other, board, code, routines, stubs, host⟩,
        opened.instrs.size, closed.instrs.size⟩ :=
      ⟨hregions, hnames, hbuiltins, hparams, hboard, hfits⟩
    exact (Stage.recovers_of_traces hfit hreaches hstub hplace).restoresHost

end Native

namespace Rescue

open Native

/-- Fail. -/
def inner : Routine where
  kind := .procedure
  name := "Inner"
  params := []
  code := #[.raise "boom"]
  targets := Array.replicate 1 none
  resolved := rfl

/-- Call the routine that fails. -/
def outer : Routine where
  kind := .procedure
  name := "Outer"
  params := ["n"]
  code := #[.call "Inner" 0, .ret 0]
  targets := Array.replicate 2 none
  resolved := rfl

/-- Call the routine that calls the one that fails. -/
def main : Routine where
  kind := .entrypoint
  name := "program"
  params := []
  code := #[.pushConst (.int 7), .call "Outer" 1, .returnVars 0 []]
  targets := Array.replicate 3 none
  resolved := rfl

/-- The program of them. -/
def program : Program where
  moduleName := "main"
  routines := [main, outer, inner]
  builtins := BuiltinTable.standard
  links := []
  distinct := by decide

theorem shapesBuiltins : program.ShapesBuiltins :=
  .of_standard fun home hhome => by
    rw [hhome.eq_of_links rfl]
    rfl

/-- What the code does for the failure: it gets to the third stub, two calls below the checkpoint,
and the host receives the message. -/
def Fails (code : NativeCode) : Prop :=
  code.results = [] ∧ code.instrs[85]? = some (.pop .r15) ∧
    code.instrs[92]? = some (.bind 5) ∧
    (code.stateAfter? .idle Probe.board 25).map (fun p => (some p.position, p.reg .rsp)) =
      some (code.place 5, .stack (-112)) ∧
    code.run 50 Probe.board = some (.error (.fault "boom"))

instance : DecidablePred Fails := fun _ =>
  inferInstanceAs (Decidable (_ ∧ _ ∧ _ ∧ _ ∧ _))

theorem exists_fails : ∃ code, compile program = .ok code ∧ Fails code :=
  exists_of_compile (by decide +kernel)

end Rescue

namespace Native

/-- The failure of a procedure that a procedure has called gets back to the host. -/
theorem restoresHost_of_traces_rescue :
    ∃ code, compile Rescue.program = .ok code ∧
      code.run 50 Probe.board = some (.error (.fault "boom")) ∧
      ∃ routines stubs first last,
        Regions code Rescue.program Rescue.main routines stubs first last ∧
        code.instrs.toList.drop last = stubs.flatMap (fun stub => faultStub stub.1 stub.2) ∧
        KeepsRoles stubs ((code.instrs.toList.take last).drop first) ∧
        ∃ stub ∈ stubs, ∃ s, code.Traces .idle Probe.board s ∧ code.place stub.2 = some s.cpu.position ∧
          s.cpu.reg .rsp = .stack (-112) ∧ code.RestoresHost .idle Probe.board s.cpu := by
  obtain ⟨code, hcompile, hresults, hpop, hbind, hstate, hrun⟩ := Rescue.exists_fails
  obtain ⟨routines, stubs, first, last, hregions, htail, hroles, -, hrestores⟩ :=
    restoresHost_of_traces hcompile rfl rfl (.of_links rfl)
  refine ⟨code, hcompile, hrun, routines, stubs, first, last, hregions, htail, hroles, ?_⟩
  obtain ⟨p, hafter, hp⟩ := Option.map_eq_some_iff.1 hstate
  obtain ⟨hplace, hdepth⟩ := Prod.mk.inj hp
  obtain ⟨calls, htraces⟩ := NativeCode.traces_of_stateAfter? hafter
  -- A register of the host is popped before the label, but not in routines, so the label is behind.
  have hlast : last ≤ 85 := by
    by_contra hlast
    have hfirst : first ≤ 85 := by
      obtain ⟨label, copies, -, hcopies, -, rfl⟩ := hregions.start
      rw [hresults] at hcopies
      obtain rfl := Except.ok.inj hcopies
      exact (by decide : 25 ≤ 85)
    have hinside := NativeCode.mem_body hpop hfirst (Nat.lt_of_not_le hlast)
    exact absurd (hroles.reserved _ hinside) (by decide)
  have hmem : 5 ∈ boundLabels (code.instrs.toList.drop last) := by
    refine mem_boundLabels.2 (List.mem_of_getElem? (i := 92 - last) ?_)
    rw [List.getElem?_drop, Nat.add_sub_cancel' (by omega), Array.getElem?_toList, hbind]
  rw [htail, (Emitter.labels_faultStubs stubs).1] at hmem
  obtain ⟨stub, hstub, hlabel⟩ := List.mem_map.1 hmem
  have hthere : code.place stub.2 = some p.position := by rw [hlabel, hplace]
  exact ⟨stub, hstub, ⟨p, calls⟩, htraces, hthere, hdepth,
    hrestores Rescue.shapesBuiltins Probe.board Probe.reachable_board.sound.toWellFormed
      (by decide) .idle _ htraces stub hstub hthere⟩

end Native

namespace Astray

open Native

/-- Take words from the stack: the builtin goes by the name of one that gives a result. -/
def steal (names : List String) : List Instruction :=
  names.flatMap fun name => [.call "GoToOrigin" 0, .popTo name]

/-- Give the words of the frame to variables of it, among them those with which the host is to get
its registers back. -/
def inner : Routine where
  kind := .procedure
  name := "Patch"
  params := ["a", "b", "c", "d", "e", "f", "g", "h"]
  code := (steal (["b", "b", "a"] ++ List.replicate 8 "b" ++ ["h"]) ++ [.ret 0] :
    List Instruction).toArray
  targets := Array.replicate 25 none
  resolved := rfl

/-- Leave too few words on the stack for the call of the routine that takes more. -/
def outer : Routine where
  kind := .procedure
  name := "Divert"
  params := ["a", "b", "c", "d", "e", "f", "g"]
  code := (steal ["g"] ++ List.replicate 8 (.call "GoToOrigin" 0) ++ [.call "Patch" 8, .ret 0] :
    List Instruction).toArray
  targets := Array.replicate 12 none
  resolved := rfl

/-- Call the routine and fail. -/
def main : Routine where
  kind := .entrypoint
  name := "program"
  params := []
  code := (List.replicate 7 (.pushConst (.int 0)) ++ [.call "Divert" 7, .raise "boom"] :
    List Instruction).toArray
  targets := Array.replicate 9 none
  resolved := rfl

/-- The program of them, with a table of its own. -/
def program : Program where
  moduleName := "main"
  routines := [main, outer, inner]
  builtins := BuiltinTable.empty.insert (Builtin.minBool.withName "GoToOrigin")
  links := []
  distinct := by decide

/-- A board of one cell. -/
def board : Board where
  width := 1
  height := 1
  headX := 0
  headY := 0
  cells := #[Cell.empty]
  log := []
  archived := []

theorem wellFormed_board : board.WellFormed :=
  ⟨by decide, by decide, by decide, by decide, by decide⟩

/-- What the code does for the failure: the stub begins behind the other code, and a run gets to it
with the address of a word of the stack for that of the result buffer. -/
def Strays (code : NativeCode) : Prop :=
  faultStub "boom" 3 <+: code.instrs.toList.drop 112 ∧
    (code.stateAfter? .idle board 106).map (fun p => (some p.position, p.reg .r15)) =
      some (code.place 3, .stack (-72)) ∧
    code.run 120 board = some (.error (.fault ""))

instance : DecidablePred Strays := fun _ =>
  inferInstanceAs (Decidable (_ ∧ _ ∧ _))

theorem exists_strays : ∃ code, compile program = .ok code ∧ Strays code :=
  exists_of_compile (by decide +kernel)

end Astray

namespace Native

/-- If a builtin goes by the name of a standard one that gives no result, the host may lose the
message of a failure: the stub stores it on the stack. -/
theorem misplaced_of_misfit :
    ∃ code, compile Astray.program = .ok code ∧
      Astray.program.entrypoint? = some Astray.main ∧ Astray.main.params = [] ∧
      Astray.program.NamesModules ∧ Astray.board.WellFormed ∧
      Astray.board.nativeLength < 2 ^ 63 ∧
      ∃ n label s, code.At n (faultStub "boom" label) ∧ code.Traces .idle Astray.board s ∧
        code.place label = some s.cpu.position ∧ s.cpu.reg .r15 ≠ .results 0 ∧
        ¬ code.RestoresHost .idle Astray.board s.cpu ∧
        code.run 120 Astray.board = some (.error (.fault "")) := by
  obtain ⟨code, hcompile, hstub, hstate, hrun⟩ := Astray.exists_strays
  obtain ⟨p, hafter, hp⟩ := Option.map_eq_some_iff.1 hstate
  obtain ⟨hplace, hmisplaced⟩ := Prod.mk.inj hp
  obtain ⟨calls, htraces⟩ := NativeCode.traces_of_stateAfter? hafter
  have hne : p.reg .r15 ≠ .results 0 := by
    rw [hmisplaced]
    decide
  refine ⟨code, hcompile, rfl, rfl, .of_links rfl, Astray.wellFormed_board, by decide, 112, 3,
    ⟨p, calls⟩, fun i instr hi => ?_, htraces, hplace.symm, hne,
    fun hrestores => hne hrestores.results, hrun⟩
  obtain ⟨hlt, hinstr⟩ := List.getElem?_eq_some_iff.1 hi
  have hthere := List.prefix_iff_getElem?.1 hstub i hlt
  rwa [hinstr, List.getElem?_drop, Array.getElem?_toList] at hthere

end Native
end Gobstones
