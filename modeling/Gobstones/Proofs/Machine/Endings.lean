import Gobstones.Proofs.Machine.Transition
/-!
# Ends of runs

This module follows runs to their end.  The outermost activation stays one of the entrypoint,
so a run that ends well ends with a return of the entrypoint, and with the variables that this
return names.

Main definitions:

- {lit}`Machine.Under`: the outermost activation is one of a routine.

Main results:

- Theorem {lit}`Machine.step_ne_failed`: no step of a run that ends well fails.
- Theorem {lit}`Machine.exists_returnVars`: the return of variables with which a run ends.
-/

namespace Gobstones
namespace Machine

variable {program : Program} {entry : Routine} {machine next final : Machine} {top : Activation}
variable {bindings : Bindings} {fuel k n : Nat} {names : List String}

/-! ## The outermost activation -/

/-- The outermost activation is one of the given routine. -/
def Under (routine : Routine) (machine : Machine) : Prop :=
  ∃ last, machine.frames.getLast? = some last ∧ last.routine = routine

/-- A step that goes on does not leave the outermost activation. -/
theorem Under.step (h : machine.Under entry) (hstep : machine.step = (next, .running)) :
    next.Under entry := by
  obtain ⟨last, hlast, hroutine⟩ := h
  obtain ⟨top, callers, instruction, hframes, -, hmoves⟩ := moves_of_step hstep
  rw [hframes] at hlast
  cases hmoves with
  | @stay _ _ here hnext _ hsame =>
    cases callers with
    | nil =>
      obtain rfl : top = last := by simpa using hlast
      exact ⟨here, by simp [hnext], hsame.trans hroutine⟩
    | cons caller rest => exact ⟨last, by simpa [hnext] using hlast, hroutine⟩
  | call _ _ hnext => exact ⟨last, by simpa [hnext, hframes] using hlast, hroutine⟩
  | @ret _ _ caller rest hcallers hnext =>
    subst hcallers
    cases rest with
    | nil =>
      obtain rfl : caller = last := by simpa using hlast
      exact ⟨caller.advance, by simp [hnext], hroutine⟩
    | cons below rest => exact ⟨last, by simpa [hnext] using hlast, hroutine⟩

/-! ## Steps of runs that end -/

/-- A run goes on from where it is. -/
theorem run_add (h : machine.run k = (next, .running)) (more : Nat) :
    machine.run (k + more) = next.run more := by
  induction k generalizing machine with
  | zero =>
    obtain ⟨rfl, -⟩ := Prod.mk.inj h
    rw [Nat.zero_add]
  | succ k ih =>
    rw [Nat.add_right_comm]
    simp only [run] at h ⊢
    split at h
    · next middle hmiddle => exact ih h
    · next hended => exact (hended next h).elim

theorem run_succ (h : machine.run k = (next, .running)) : machine.run (k + 1) = next.step := by
  rw [run_add h, run]
  split
  · next after hstep =>
    rw [hstep]
    rfl
  · rfl

/-- A machine that has not run yet starts with the activation of the entrypoint. -/
theorem execute_new (program : Program) (board : Board) (limit : Option Nat) (fuel : Nat) :
    (new program board limit).execute fuel =
      match program.entrypoint? with
      | none => (new program board limit, .failed (.bare .noEntrypoint))
      | some entry =>
        run fuel { new program board limit with frames := [.new program entry .empty] } := by
  simp only [execute, callEntrypoint, new]
  cases program.entrypoint? <;> rfl

/-- A run that ends well does not come to a step that fails. -/
theorem step_ne_failed (hrun : machine.run fuel = (final, .finished bindings))
    (hnext : machine.run k = (next, .running)) {after : Machine} {fault : Fault} :
    next.step ≠ (after, .failed fault) := by
  intro hstep
  have hfails : machine.run (k + 1) = (after, .failed fault) := by
    rw [run_succ hnext, hstep]
  have hmore := run_add_of_ended fuel (k + 1) machine (by simp [hrun])
  rw [Nat.add_comm, run_add_of_ended (k + 1) fuel machine (by simp [hfails]), hfails, hrun] at hmore
  cases hmore

/-! ## The last step -/

/-- The variables with which a run ends are those that its last instruction names. -/
theorem resultBindings_of_finished (h : machine.step = (next, .finished bindings))
    (hframes : machine.frames = [top])
    (hinstruction : top.instruction? = some (.returnVars n names)) :
    resultBindings top.locals names = .ok bindings := by
  obtain ⟨last, instruction, hlast, hcurrent, hquits, -⟩ := quits_of_finished h
  obtain rfl : top = last := by simpa [hframes] using hlast
  obtain rfl : .returnVars n names = instruction := by simpa [hinstruction] using hcurrent
  cases hquits with
  | returnVars _ hbindings => exact hbindings

/-- A run whose entrypoint leaves only through returns of variables ends with one of them. -/
theorem exists_returnVars (hentry : program.entrypoint? = some entry)
    (hleaves : ∀ n, .ret n ∉ entry.code) {board : Board} {limit : Option Nat}
    (hrun : (Machine.new program board limit).execute fuel = (final, .finished bindings)) :
    ∃ k last top n names, (Machine.new program board limit).execute k = (last, .running) ∧
      last.step = (final, .finished bindings) ∧ last.frames = [top] ∧
      top.instruction? = some (.returnVars n names) ∧ .returnVars n names ∈ entry.code := by
  simp only [execute_new, hentry] at hrun ⊢
  obtain ⟨k, last, hlast, hstep⟩ := exists_last_step (by simp) hrun
  obtain ⟨top, instruction, hframes, hinstruction, hreturn, -, -⟩ := returns_of_finished hstep
  obtain ⟨outermost, houtermost, hroutine⟩ := invariant_of_run (fun _ _ h => Under.step h)
    (show Under entry _ from ⟨_, rfl, rfl⟩) hlast
  obtain rfl : top = outermost := by simpa [hframes] using houtermost
  have hmem : instruction ∈ entry.code := by
    rw [← hroutine]
    exact Array.mem_of_getElem? hinstruction
  rcases hreturn with ⟨count, rfl⟩ | ⟨count, names, rfl⟩
  · exact (hleaves count hmem).elim
  · exact ⟨k, last, top, count, names, hlast, hstep, hframes, hinstruction, hmem⟩

end Machine
end Gobstones
