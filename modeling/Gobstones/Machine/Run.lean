import Gobstones.Machine.Step
/-!
# Runs of the stack machine

This module runs machines.  The number of steps to be made is given; a run that is
still going on after them is cut off there.

Main definitions:

- {lit}`Machine.run`: make steps until the run ends, at most so many.
- {lit}`Machine.execute`: call the entrypoint and run.
-/

namespace Gobstones
namespace Machine

/-- Make steps until the run ends or fails, at most {lit}`fuel` of them. -/
def run (fuel : Nat) (machine : Machine) : Machine × Outcome :=
  match fuel with
  | 0 => (machine, .running)
  | fuel + 1 =>
    match machine.step with
    | (machine, .running) => run fuel machine
    | ended => ended

/-- Call the entrypoint on top of the calls in progress. -/
def callEntrypoint (machine : Machine) : Option Machine :=
  machine.program.entrypoint?.map fun entry =>
    { machine with frames := .new machine.program entry .empty :: machine.frames }

/-- Call the entrypoint and make steps until the run ends or fails, at most {lit}`fuel`
of them.  A program without an entrypoint fails at once. -/
def execute (fuel : Nat) (machine : Machine) : Machine × Outcome :=
  match machine.callEntrypoint with
  | none => (machine, .failed (.bare .noEntrypoint))
  | some called => called.run fuel

@[simp]
theorem run_zero (machine : Machine) : machine.run 0 = (machine, .running) :=
  rfl

/-- A run that has ended after some steps has ended alike with more fuel. -/
theorem run_add_of_ended (fuel more : Nat) (machine : Machine)
    (h : (machine.run fuel).2 ≠ .running) : machine.run (fuel + more) = machine.run fuel := by
  induction fuel generalizing machine with
  | zero => exact absurd rfl h
  | succ fuel ih =>
    rw [Nat.add_right_comm]
    simp only [run] at h ⊢
    split
    · next next hstep =>
      simp only [hstep] at h
      exact ih next h
    · rfl

theorem execute_add_of_ended (fuel more : Nat) (machine : Machine)
    (h : (machine.execute fuel).2 ≠ .running) :
    machine.execute (fuel + more) = machine.execute fuel := by
  unfold execute at h ⊢
  split at h
  · rfl
  · next called _ => exact called.run_add_of_ended fuel more h

end Machine
end Gobstones
