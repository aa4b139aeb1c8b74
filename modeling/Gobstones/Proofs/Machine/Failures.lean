import Gobstones.Proofs.Machine.Transition
/-!
# Failing steps

This module shows that a step that fails changes nothing but operands, and that its fault
lists the calls in progress and the variables of the innermost one, each of them once.

Main results:

- Theorem {lit}`Locals.mem_entries_iff`: variables are listed with their values.
- Theorem {lit}`Machine.fault_of_step`: what a failing step leaves and what it reports.
-/

namespace Gobstones

/-! ## Listed variables -/

/-- Variables are listed with the values that they have. -/
theorem Locals.mem_entries_iff (locals : Locals) {name : String} {value : Value} :
    (name, value) ∈ locals.entries ↔ locals.get? name = some value := by
  rw [get?, List.lookup_eq_some_iff]
  constructor
  · intro hmem
    obtain ⟨before, after, hsplit⟩ := List.append_of_mem hmem
    refine ⟨before, after, hsplit, fun earlier hearlier => ?_⟩
    -- an earlier variable lies below, so it has another name
    have hascending := locals.ascending
    rw [Ordered.Ascending, hsplit, List.pairwise_append] at hascending
    have hlt : earlier.1 < name := hascending.2.2 earlier hearlier _ List.mem_cons_self
    have hne : name ≠ earlier.1 := by
      rintro rfl
      exact String.lt_irrefl _ hlt
    simpa using hne
  · rintro ⟨before, after, hsplit, -⟩
    rw [hsplit]
    exact List.mem_append_right before List.mem_cons_self

namespace Machine

variable {machine next : Machine} {fault : Fault}

/-! ## Faults -/

/-- A step that fails changes nothing but operands: the board with its logs and all calls in
progress are as they were, one step more is counted, and the stack lacks at most values on top.
The fault lists the calls in progress, innermost first, and in ascending order of their names those
variables of the innermost call whose names do not start with an underscore. -/
theorem fault_of_step (h : machine.step = (next, .failed fault)) :
    next.board = machine.board ∧ next.frames = machine.frames ∧ next.steps = machine.steps + 1 ∧
      next.program = machine.program ∧ next.stepLimit = machine.stepLimit ∧
      next.stack <:+ machine.stack ∧
      fault.frames = machine.frames.map Activation.traceFrame ∧
      Ordered.Ascending Prod.fst fault.locals ∧
      ∀ name value, (name, value) ∈ fault.locals ↔ name.toList.head? ≠ some '_' ∧
        ∃ top callers, machine.frames = top :: callers ∧ top.locals.get? name = some value := by
  obtain ⟨⟨stack, hstack, rfl⟩, cause, rfl⟩ := fails_of_step h
  refine ⟨rfl, rfl, rfl, rfl, rfl, hstack, rfl, ?_⟩
  cases hframes : machine.frames with
  | nil =>
    simp only [fault]
    constructor
    · exact List.Pairwise.nil
    · intro name value
      simp
  | cons top callers =>
    simp only [fault]
    constructor
    · exact List.Pairwise.filter _ top.locals.ascending
    · intro name value
      change (name, value) ∈ top.locals.visible ↔ _
      rw [Locals.visible, List.mem_filter, Locals.mem_entries_iff]
      simp [and_comm]

end Machine

namespace Mishap

/-- Give values to a temporary and to a variable, and take a stone from an empty cell with a value
left on the stack. -/
def take : Routine where
  kind := .procedure
  name := "Take"
  params := []
  code := #[.pushConst (.int 1), .popTo "_t", .pushConst (.int 2), .popTo "n",
    .pushConst (.int 7), .pushConst (.color .red), .call "TakeStone" 1, .ret 0]
  targets := Array.replicate 8 none
  resolved := rfl

/-- Call the procedure. -/
def main : Routine where
  kind := .entrypoint
  name := "program"
  params := []
  code := #[.call "Take" 0, .ret 0]
  targets := Array.replicate 2 none
  resolved := rfl

/-- The program of both routines. -/
def program : Program where
  moduleName := "main"
  routines := [main, take]
  builtins := BuiltinTable.standard
  links := []
  distinct := by decide

/-- A run on one empty cell, about to take the stone. -/
def before : Machine :=
  ((Machine.new program ⟨1, 1, 0, 0, #[Cell.empty], [], []⟩ none).execute 7).1

end Mishap

namespace Machine

/-- The color is gone from the stack and the value below it is there; the backtrace names the
procedure and its call, and lists the variable but not the temporary. -/
theorem fault_of_step_mishap :
    ∃ fault, Mishap.before.step = (Mishap.before.step.1, .failed fault) ∧
      fault.message = "Cannot take 1 stone(s) of color Red: only 0 present" ∧
      Mishap.before.stack = [.color .red, .int 7] ∧ Mishap.before.step.1.stack = [.int 7] ∧
      Mishap.before.step.1.stack <:+ Mishap.before.stack ∧
      Mishap.before.step.1.steps = 8 ∧ Mishap.before.step.1.board = Mishap.before.board ∧
      fault.frames = [⟨.procedure, "Take", "main", 6⟩, ⟨.entrypoint, "program", "main", 0⟩] ∧
      ("n", .int 2) ∈ fault.locals ∧ ("_t", .int 1) ∉ fault.locals := by
  have hstep : Mishap.before.step = (Mishap.before.step.1,
    .failed (Mishap.before.step.1.fault (.primitive (.board (.cannotTake .red 1 0))))) := rfl
  obtain ⟨hboard, -, hsteps, -, -, hstack, hframes, -, hlocals⟩ := fault_of_step hstep
  refine ⟨_, hstep, by decide +kernel, rfl, rfl, hstack, hsteps, hboard, hframes, ?_, ?_⟩
  · rw [hlocals]
    exact ⟨by decide, _, _, rfl, rfl⟩
  · rw [hlocals]
    rintro ⟨hvisible, -⟩
    exact hvisible rfl

end Machine
end Gobstones
