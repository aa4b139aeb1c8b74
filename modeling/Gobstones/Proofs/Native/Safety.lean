import Gobstones.Proofs.Native.Handover
/-!
# Native code is safe on any words

This module puts together what native code keeps to.  By induction on the number of steps
that are looked at, all states of all runs keep to it: each instruction of a routine
leads to instructions that keep to it for fewer steps.

Main results:

- Theorem {lit}`Stage.Runs.tends`: one instruction of a routine.
- Theorem {lit}`Stage.goes`: all instructions.
- Theorem {lit}`Stage.guarded_of_traces`: every state of a run.
-/

namespace Gobstones
namespace Native
namespace Stage

variable {stage : Stage} {k n : Nat} {record : Record} {callers : List OpenCall} {v : View}
variable {name : String} {argc : Nat} {instrs : List Instr} {home : Program} {callee : Routine}

/-! ## Single instructions -/

section Instructions

variable (hfit : stage.Fit) (hgoes : stage.Goes k) (h : stage.Runs record callers v n)
include hfit hgoes h

/-- A call of a routine opens an activation, or it fails because of the number of arguments. -/
theorem Runs.tends_enterRoutine
    (hinstruction : record.rc.routine.code[record.ip]? = some (.call name argc))
    (hcallee : record.rc.program.callee? name = some (home, callee))
    (hcode : record.rc.RoutineCallCode stage.stubs home callee argc instrs)
    (hat : stage.code.At n instrs)
    (hnext : record.rc.Continues stage record.start record.stop (n + instrs.length)
      (record.rc.routine.code.toList.drop (record.ip + 1))) :
    stage.Tends k (record.call :: callers) v n := by
  unfold RoutineCompiler.RoutineCallCode at hcode
  split at hcode
  · exact h.tends_fail hfit hcode hat
  next harity =>
  obtain rfl := not_not.1 harity
  obtain ⟨label, drop, pushes, hlabel, hdrop, hpushes, rfl⟩ := hcode
  rw [h.lies.placed.routines] at hlabel
  rw [List.cons_append] at hat hnext
  obtain ⟨hcall, hat⟩ := NativeCode.at_cons_iff.1 hat
  rw [List.length_cons, Nat.add_comm _ 1, ← Nat.add_assoc] at hnext
  have hpops := (h.depthFits hfit hinstruction).pops_le
  rw [Program.effect_call_of_callee hcallee] at hpops
  have hlength : (record.words.take callee.arity).length = callee.arity :=
    List.length_take_of_le hpops
  have hlive : v.live = record.words.take callee.arity ++
      (record.words.drop callee.arity ++ record.saved ++ record.frame ++ record.below) := by
    rw [h.live]
    simp only [← List.append_assoc, List.take_append_drop]
  refine hgoes.opens hfit (h.lies.owns.callee hcallee) hlabel hcall
    (guardAt_of_isHarmless hcall h.spans rfl) h.spans h.hosts hlive hlength ?_
  rw [h.rbp]
  have hlies : ({ record with words := record.words.drop callee.arity } : Record).Lies stage :=
    ⟨h.lies.owns, h.lies.placed, h.lies.site, h.lies.link, h.lies.staying, h.lies.saves,
      h.lies.length, h.lies.caller, h.lies.ret, h.lies.unassigned⟩
  refine .call hlies hinstruction hcallee ?_ hdrop hpushes hat hnext h.awaits
  rw [List.length_drop, Nat.add_sub_cancel' hpops]
  exact h.depth

theorem Runs.tends_call
    (hinstruction : record.rc.routine.code[record.ip]? = some (.call name argc)) :
    stage.Tends k (record.call :: callers) v n := by
  obtain ⟨first, hcode, hat, -, -, hnext⟩ := h.code.split hinstruction (by simp)
  have hcode : record.rc.CallCode stage.stubs name argc first := hcode
  unfold RoutineCompiler.CallCode at hcode
  cases hresolve : record.rc.program.resolve? name with
  | none =>
    rw [hresolve] at hcode
    exact h.tends_fail hfit hcode hat
  | some target =>
    rw [hresolve] at hcode
    cases target with
    | builtin builtin =>
      by_cases harity : builtin.arity = argc
      · have hcode : BuiltinCode stage.stubs builtin.name first := by
          simpa [harity] using hcode
        exact h.tends_builtin hfit hgoes hinstruction hresolve harity hcode hat hnext
      · have hcode : FailCode stage.stubs (.wrongArity builtin.kind builtin.name builtin.params
            argc) first := by
          simpa [harity] using hcode
        exact h.tends_fail hfit hcode hat
    | own callee =>
      have hcallee : record.rc.program.callee? name = some (record.rc.program, callee) := by
        rw [Program.callee?, hresolve]
      exact h.tends_enterRoutine hfit hgoes hinstruction hcallee hcode hat hnext
    | external home callee =>
      have hcallee : record.rc.program.callee? name = some (home, callee) := by
        rw [Program.callee?, hresolve]
      exact h.tends_enterRoutine hfit hgoes hinstruction hcallee hcode hat hnext

end Instructions

/-- One instruction of a routine.  The instructions that have no code are followed by others, so
the induction is on the instructions that are left. -/
theorem Runs.tends (hfit : stage.Fit) (hgoes : stage.Goes k)
    (h : stage.Runs record callers v n) : stage.Tends k (record.call :: callers) v n := by
  induction hleft : record.rc.routine.code.size - record.ip generalizing record with
  | zero =>
    obtain ⟨instruction, hinstruction, -⟩ := (hfit.depthsFit h.lies.owns).closed _ _ h.depth
    have hlt := (Array.getElem?_eq_some_iff.1 hinstruction).1
    omega
  | succ left ih =>
    obtain ⟨instruction, hinstruction, -⟩ := (hfit.depthsFit h.lies.owns).closed _ _ h.depth
    have hskip (henter : instruction ≠ .enter) (hleave : instruction ≠ .leave)
        (hcode : ∀ instrs, record.rc.InstructionCode stage.stubs instruction instrs → instrs = [])
        (hnext : record.ip + 1 ∈
          record.rc.program.successors record.rc.routine record.ip instruction)
        (hafter : record.words.length =
          record.rc.program.depthAfter instruction record.words.length) :
        stage.Tends k (record.call :: callers) v n := by
      obtain ⟨first, hfirst, -, -, -, hcontinues⟩ := h.code.split hinstruction hleave
      obtain rfl := hcode first hfirst
      have hruns := h.next hfit hinstruction henter hleave hnext record.words h.lies hafter
        hcontinues h.live (.refl v) h.spans
      have htends := ih hruns (by dsimp only; omega)
      exact htends
    cases instruction with
    | pushConst value => exact h.tends_pushConst hfit hgoes hinstruction
    | pushFrom name => exact h.tends_pushFrom hfit hgoes hinstruction
    | popTo name => exact h.tends_popTo hfit hgoes hinstruction
    | delVar name => exact h.tends_delVar hfit hgoes hinstruction
    | setImmutable name | unsetImmutable name =>
      exact hskip nofun nofun (fun _ hcode => hcode) (List.mem_singleton_self _) rfl
    | label name => exact h.tends_label hfit hgoes hinstruction
    | jump name => exact h.tends_jump hfit hgoes hinstruction
    | jumpIfFalse name => exact h.tends_jumpIfFalse hfit hgoes hinstruction
    | jumpIfNotIn values name => exact h.tends_jumpIfNotIn hfit hgoes hinstruction
    | raise message =>
      obtain ⟨first, hcode, hat, -⟩ := h.code.split hinstruction nofun
      exact h.tends_fail hfit hcode hat
    | call name argc => exact h.tends_call hfit hgoes hinstruction
    | ret count => exact h.tends_ret hfit hgoes hinstruction
    | returnVars count names => exact h.tends_returnVars hfit hgoes hinstruction
    | enter => exact h.tends_enter hfit hgoes hinstruction
    | leave => exact h.tends_leave hfit hgoes hinstruction

/-! ## All runs -/

/-- Runs from all instructions keep to what native code may do for any number of steps. -/
theorem goes (hfit : stage.Fit) (k : Nat) : stage.Goes k := by
  induction k with
  | zero => exact fun _ _ _ _ _ j hj => absurd hj (Nat.not_lt_zero j)
  | succ k ih => exact fun _ _ _ _ h => (h.tends hfit ih).soon_succ

/-- The memory of the board holds the counters of its cells. -/
theorem spans_of_carries {board : Board} (hboard : board.WellFormed) (h : v.Carries board) :
    v.Spans board := by
  obtain ⟨header, hheader, hcells⟩ := h.cells
  refine ⟨h.rbx, ⟨_, hboard.headX_lt, h.r11⟩, ⟨_, hboard.headY_lt, h.r12⟩, h.r13, h.r14, ?_⟩
  rw [← Array.length_toList, hcells, List.length_append, hheader, length_flatMap_counters,
    Array.length_toList, hboard.size_cells]
  rfl

/-- Runs from the host on keep to what native code may do. -/
theorem soon_start (hfit : stage.Fit) (k : Nat) :
    stage.Soon k [] (stage.code.hostView stage.host stage.board) 0 := by
  obtain ⟨label, copies, hlabel, -, hat, hlength⟩ := hfit.regions.start
  obtain ⟨v, hview, hlive, hrbp, hcarries, hhosts⟩ :=
    Setting.exists_opened stage.toSetting
  have hlive : v.live = [] ++ hostWords stage.host stage.code := hlive
  have hsize : 15 ≤ stage.first := by
    rw [← hlength, entryStub]
    simp [saveHostRegisters]
  have hopening : ∀ label, .call label ∉ Setting.opening := by
    simp [Setting.opening, saveHostRegisters]
  have hinner : ∀ instr ∈ Setting.opening, instr.isHostly = false := by
    decide
  refine .outside (hat.slice 0 14) hview (.inl (Nat.le_of_succ_le hsize)) hopening hinner
    fun calls hcalls => ?_
  obtain rfl := hcalls rfl
  have hcall : stage.code.instrs[14]? = some (.call label) := hat 14 _ rfl
  refine ((goes hfit k).opens hfit (Program.owns_entrypoint hfit.regions.entrypoint) hlabel hcall
    (guardAt_outside hcall (.inl hsize) fun hhostly => absurd hhostly Bool.false_ne_true)
    (spans_of_carries hfit.board hcarries) hhosts hlive
      (congrArg List.length hfit.params).symm ?_).soon
  rw [hrbp]
  exact .host

/-- Every state of a run keeps to what native code may do. -/
theorem guarded_of_traces (hfit : stage.Fit) {s : Traced}
    (hreaches : stage.code.Traces stage.host stage.board s) : stage.Guarded s :=
  NativeCode.SafeFor.of_traces (fun k => soon_start hfit (k + 1) k (Nat.lt_succ_self k) _
    (shows_start stage.code stage.host stage.board) rfl) hreaches

end Stage

/-! ## Boards -/

variable {program : Program} {entry : Routine} {board : Board} {code : NativeCode}

/-- Native code that has been compiled from a program makes a stage for its runs on every board,
whatever the host has in its registers and on its stack. -/
theorem exists_fit (hcompile : compile program = .ok code)
    (hentry : program.entrypoint? = some entry) (hparams : entry.params = [])
    (hnames : program.NamesModules) (hbuiltins : program.ShapesBuiltins) :
    ∃ routines stubs first last, Regions code program entry routines stubs first last ∧
      ∀ board : Board, board.WellFormed → board.nativeLength < 2 ^ 63 → ∀ host,
        Stage.Fit ⟨⟨program, entry, board, code, routines, stubs, host⟩, first, last⟩ := by
  obtain ⟨other, routines, stubs, first, last, hregions⟩ := regions_of_compile hcompile
  obtain rfl := Option.some.inj (hregions.entrypoint.symm.trans hentry)
  exact ⟨routines, stubs, first, last, hregions, fun _ hboard hfits _ =>
    ⟨hregions, hnames, hbuiltins, hparams, hboard, hfits⟩⟩

end Native

namespace Edge

open Native

/-- Go to the edge. -/
def main : Routine where
  kind := .entrypoint
  name := "program"
  params := []
  code := #[.pushConst (.dir .east), .call "GoToBoundary" 1, .returnVars 0 []]
  targets := Array.replicate 3 none
  resolved := rfl

/-- The program of the entrypoint. -/
def program : Program where
  moduleName := "main"
  routines := [main]
  builtins := BuiltinTable.standard
  links := []
  distinct := by simp

theorem shapesBuiltins : program.ShapesBuiltins :=
  .of_standard fun home hhome => by
    rw [hhome.eq_of_links rfl]
    rfl

/-- The label of the entrypoint. -/
def labels : RoutineLabels :=
  (moduleLabels .empty [] [program]).1

/-- What is emitted before the entrypoint. -/
def stub : Emitter :=
  (moduleLabels .empty [] [program]).2.emitAll (entryStub 0 [])

end Edge

namespace Misfit

/-- Go to the origin under the name of a builtin that takes an argument, in a transaction with a
variable. -/
def skip : Routine where
  kind := .function
  name := "Skip"
  params := []
  code := #[.enter, .pushConst (.int 7), .popTo "x", .call "PutStone" 0, .leave, .ret 0]
  targets := Array.replicate 6 none
  resolved := rfl

/-- Call the function. -/
def main : Routine where
  kind := .entrypoint
  name := "program"
  params := []
  code := #[.call "Skip" 0, .returnVars 0 []]
  targets := Array.replicate 2 none
  resolved := rfl

/-- The program of both, with a table of its own. -/
def program : Program where
  moduleName := "main"
  routines := [main, skip]
  builtins := BuiltinTable.empty.insert (Builtin.goToOrigin.withName "PutStone")
  links := []
  distinct := by decide

/-- A board with stones under the head. -/
def board : Board where
  width := 3
  height := 3
  headX := 0
  headY := 0
  cells := #[⟨5, 0, 0, 0⟩] ++ Array.replicate 8 Cell.empty
  log := []
  archived := []

theorem wellFormed_board : board.WellFormed :=
  ⟨by decide, by decide, by decide, by decide, by decide⟩

end Misfit

namespace Native

end Native
end Gobstones
