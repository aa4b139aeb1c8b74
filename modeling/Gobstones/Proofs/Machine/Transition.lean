import Gobstones.Proofs.Machine.Effects
import Gobstones.Proofs.Program.Labels
/-!
# Transitions of the stack machine

This module says what a step can do in the terms of the checks of programs.  A step that
goes on stays in the innermost activation, calls a routine or returns to the caller; the
checks describe its effect on the operand stack and where it goes on.  A step that fails
does so for a reason that the checks exclude or for one that depends on values.

Main definitions:

- {lit}`Machine.Moves`: the effect of an instruction after which the run goes on.
- {lit}`Machine.Blames`: what is wrong with the code when an instruction fails for a
  reason that lies in the code.
- {lit}`Machine.Fails`: what a failure leaves and what it reports.
- {lit}`Machine.Unchanged`: a state with the activations and the board of another one.

Main results:

- Theorem {lit}`Machine.moves_of_step`: every step that goes on is such a move.
- Theorem {lit}`Machine.fails_of_step`: failing steps change nothing but the operand stack.
- Theorem {lit}`Machine.returns_of_finished`: a run ends with a return of its outermost activation.
- Theorem {lit}`Machine.invariant_of_run`: what moves preserve holds throughout a run.
-/

namespace Gobstones
namespace Machine

/-! ## Moves -/

/-- What an instruction that stays in its activation does to the board. -/
inductive Reboards (board : Board) : Instruction → Board → Prop where
  | enter : Reboards board .enter board.pushState
  | leave {next : Board} (h : board.popState = .ok next) : Reboards board .leave next
  | other {instruction : Instruction} {next : Board} (henter : instruction ≠ .enter)
    (hleave : instruction ≠ .leave) {request : Board.Request} (hrequest : request.IsRecorded)
    (hnext : next = board.after request) : Reboards board instruction next

/-- The effect of an instruction of the innermost activation {lit}`top` after which the run
goes on: it stays in the activation, calls a routine or returns to the caller. -/
inductive Moves (machine : Machine) (top : Activation) (callers : List Activation) :
    Instruction → Machine → Prop where
  | stay {instruction : Instruction} {next : Machine} {here : Activation}
    (hframes : next.frames = here :: callers) (hprogram : here.program = top.program)
    (hroutine : here.routine = top.routine)
    (hip : here.ip ∈ top.program.successors top.routine top.ip instruction)
    (hcallee : ∀ name argc, instruction = .call name argc → top.program.callee? name = none)
    (hpops : (top.program.effect instruction).1 ≤ machine.stack.length)
    (hstack : next.stack.length = machine.stack.length - (top.program.effect instruction).1 +
      (top.program.effect instruction).2)
    (hboard : Reboards machine.board instruction next.board) :
    Moves machine top callers instruction next
  | call {name : String} {argc : Nat} {next : Machine} {home : Program} {routine : Routine}
    {locals : Locals} (hcallee : top.program.callee? name = some (home, routine))
    (harity : routine.arity = argc)
    (hframes : next.frames = .new home routine locals :: machine.frames)
    (hpops : argc ≤ machine.stack.length)
    (hstack : next.stack.length = machine.stack.length - argc)
    (hboard : next.board = machine.board) : Moves machine top callers (.call name argc) next
  | ret {instruction : Instruction} {next : Machine} {caller : Activation}
    {rest : List Activation} (hcallers : callers = caller :: rest)
    (hframes : next.frames = caller.advance :: rest)
    (hinstruction : (∃ n, instruction = .ret n) ∨ ∃ n names, instruction = .returnVars n names)
    (hstack : next.stack = machine.stack) (hboard : next.board = machine.board) :
    Moves machine top callers instruction next

variable {machine next : Machine} {top : Activation} {callers : List Activation}
  {instruction : Instruction}

/-- An instruction that goes on after itself. -/
theorem Moves.of_advance {here : Activation}
    (hboard : Reboards machine.board instruction next.board)
    (hframes : next.frames = here.advance :: callers) (hprogram : here.program = top.program)
    (hroutine : here.routine = top.routine) (hip : here.ip = top.ip)
    (hnext : top.ip + 1 ∈ top.program.successors top.routine top.ip instruction := by
      simp [Program.successors, Program.alwaysFails])
    (hcallee : ∀ name argc, instruction = .call name argc →
      top.program.callee? name = none := by simp)
    (hpops : (top.program.effect instruction).1 ≤ machine.stack.length := by
      simp [Program.effect, *])
    (hstack : next.stack.length = machine.stack.length - (top.program.effect instruction).1 +
      (top.program.effect instruction).2 := by simp [Program.effect, *]) :
    Moves machine top callers instruction next :=
  .stay hframes hprogram hroutine (by simpa [Activation.advance, hip] using hnext) hcallee hpops
    hstack hboard

/-! ## Calls -/

/-- A call with the right number of arguments goes on after it. -/
theorem successors_call {program : Program} {routine : Routine} {position argc : Nat}
    {name : String} {target : CallTarget} (hresolve : program.resolve? name = some target)
    (harity : target.arity = argc) :
    program.successors routine position (.call name argc) = [position + 1] := by
  simp [Program.successors, Program.alwaysFails, hresolve, harity]

theorem effect_call {program : Program} {name : String} {argc : Nat} {target : CallTarget}
    (hresolve : program.resolve? name = some target) :
    program.effect (.call name argc) = (argc, target.resultCount) := by
  simp [Program.effect, hresolve]

theorem length_pushResult {stack : List Value} {result : Option Value} {kind : RoutineKind}
    (h : kind = .function → result.isSome) :
    (pushResult stack (if kind = .function then result else none)).length =
      stack.length + (if kind = .function then 1 else 0) := by
  by_cases hkind : kind = .function
  · obtain ⟨value, rfl⟩ := Option.isSome_iff_exists.1 (h hkind)
    simp [pushResult, hkind]
  · simp [pushResult, hkind]

/-! ## All instructions -/

/-- Every instruction after which the run goes on makes a move.  The step is counted before it is
made, which a move does not look at. -/
theorem moves_of_goesOn {steps : Nat}
    (h : GoesOn { machine with steps } top callers instruction next) :
    Moves machine top callers instruction next := by
  have hsame {instruction : Instruction} (henter : instruction ≠ .enter := by simp)
      (hleave : instruction ≠ .leave := by simp) :
      Reboards machine.board instruction machine.board :=
    @Reboards.other _ _ _ henter hleave (.query .totalStones) trivial rfl
  cases h with
  | pushConst | pushFrom | delVar | setImmutable | unsetImmutable | label =>
    exact .of_advance hsame rfl rfl rfl rfl
  | popTo _ hstack | onTrue hstack | onMember hstack _ =>
    have hstack : machine.stack = _ :: _ := hstack
    exact .of_advance hsame rfl rfl rfl rfl
  | jump htarget =>
    exact .stay rfl rfl rfl (by simp [Program.successors, Program.alwaysFails, htarget]) (by simp)
      (by simp [Program.effect]) (by simp [Program.effect]) hsame
  | onFalse hstack htarget | onOther hstack _ htarget =>
    have hstack : machine.stack = _ :: _ := hstack
    exact .stay rfl rfl rfl (by simp [Program.successors, Program.alwaysFails, htarget]) (by simp)
      (by simp [Program.effect, hstack]) (by simp [Program.effect, hstack]) hsame
  | @builtin name argc builtin args stack result board hresolve harity hargs happly =>
    obtain ⟨⟨request, hrequest, hboard⟩, hkind⟩ := Operation.apply_eq_ok happly
    have hstack : machine.stack.length = _ := length_of_popArguments hargs
    refine .of_advance (.other (by simp) (by simp) hrequest hboard) rfl rfl rfl rfl ?_ ?_ ?_ ?_
    · simp [successors_call hresolve harity]
    · rintro _ _ ⟨⟩
      simp [Program.callee?, hresolve]
    · simp only [effect_call hresolve]
      omega
    · have hlength := @length_pushResult stack result builtin.kind
        fun hfunction => hkind.2 (builtin.answers hfunction)
      simp only [effect_call hresolve, CallTarget.resultCount]
      rw [hlength]
      omega
  | routine hcallee harity hargs =>
    have hstack : machine.stack.length = _ := length_of_popArguments hargs
    exact .call hcallee harity rfl (by omega) (by simp only; omega) rfl
  | ret _ hcallers => exact .ret hcallers rfl (.inl ⟨_, rfl⟩) rfl rfl
  | returnVars _ hcallers => exact .ret hcallers rfl (.inr ⟨_, _, rfl⟩) rfl rfl
  | enter => exact .of_advance .enter rfl rfl rfl rfl
  | leave hboard => exact .of_advance (.leave hboard) rfl rfl rfl rfl

/-! ## Failures -/

end Machine

/-- The classes of failure that lie in the code, whatever the values are. -/
def FaultKind.LiesInCode (kind : FaultKind) : Prop :=
  kind = .malformedBytecode ∨ kind = .undefinedRoutine ∨ kind = .arityMismatch

theorem Operation.IsValueFault.not_liesInCode {e : PrimitiveError}
    (h : Operation.IsValueFault e) : ¬e.kind.LiesInCode := by
  rcases h with h | h | h | h <;> simp [FaultKind.LiesInCode, h]

namespace Machine

/-- What is wrong with the code when an instruction fails for a reason that lies in the
code. -/
inductive Blames (machine : Machine) (top : Activation) : Instruction → Prop where
  | underflow {instruction : Instruction}
    (h : machine.stack.length < (top.program.effect instruction).1) :
    Blames machine top instruction
  | jump {instruction : Instruction} {label : String}
    (hlabel : instruction.jumpLabel? = some label) (h : top.routine.target? top.ip = none) :
    Blames machine top instruction
  | call {instruction : Instruction} (h : top.program.alwaysFails instruction) :
    Blames machine top instruction
  | names {n : Nat} {names : List String} (h : names.length ≠ n) :
    Blames machine top (.returnVars n names)
  | leave {e : BoardError} (h : machine.board.popState = .error e) : Blames machine top .leave

variable {machine next : Machine} {top : Activation} {callers : List Activation}
  {instruction : Instruction} {fault : Fault} {bindings : Bindings}

/-- An instruction that fails for a reason that lies in the code shows what is wrong there.  A
builtin that gets as many arguments as it takes fails for its arguments and the board. -/
theorem blames_of_refuses {steps : Nat} {cause : FaultCause} {stack : List Value}
    (h : Refuses { machine with steps } top callers instruction cause stack)
    (hkind : cause.kind.LiesInCode) : Blames machine top instruction := by
  cases h with
  | underflow hshort => exact .underflow hshort
  | uninitialized | immutable | condition | raise | results =>
    simp [FaultCause.kind, FaultKind.LiesInCode] at hkind
  | jump hlabel _ htarget => exact .jump hlabel htarget
  | undefined hresolve => exact .call (by simp [Program.alwaysFails, hresolve])
  | arity hresolve harity hcount =>
    exact .call (by simpa [Program.alwaysFails, hresolve, harity] using hcount)
  | @primitive name argc builtin args stack e hresolve harity hargs happly =>
    obtain ⟨popped, -, hlength, rfl⟩ := popArguments_eq_some hargs
    have hargs : (popped.reverse ++ []).length = builtin.operation.arity := by
      rw [List.append_nil, List.length_reverse, hlength, ← builtin.takes]
      exact harity.symm
    exact ((Operation.isValueFault_of_apply hargs happly).not_liesInCode hkind).elim
  | names hnames => exact .names hnames
  | leave hboard => exact .leave hboard

/-! ## What a failure leaves -/

/-- A failure leaves everything in place, except that operands may have been taken from the
stack, and its fault reports the calls in progress. -/
structure Fails (machine next : Machine) (fault : Fault) : Prop where
  popped : ∃ stack, stack <:+ machine.stack ∧ next = { machine with stack }
  reported : ∃ cause, fault = next.fault cause

/-- An instruction that fails leaves at most operands out. -/
theorem Refuses.suffix {cause : FaultCause} {stack : List Value}
    (h : Refuses machine top callers instruction cause stack) : stack <:+ machine.stack := by
  cases h with
  | underflow | uninitialized | immutable | raise | undefined | arity | names | results | leave =>
    exact List.suffix_refl machine.stack
  | jump _ hstack _ => exact hstack
  | @condition label value _ hstack _ => exact ⟨[value], hstack.symm⟩
  | primitive _ _ hargs _ => exact suffix_of_popArguments hargs

/-- A state with the activations and the board of another one. -/
structure Unchanged (machine next : Machine) : Prop where
  frames : next.frames = machine.frames
  board : next.board = machine.board

/-! ## Steps and runs -/

/-- A step that goes on makes a move. -/
theorem moves_of_step (h : machine.step = (next, .running)) :
    ∃ top callers instruction, machine.frames = top :: callers ∧
      top.instruction? = some instruction ∧ Moves machine top callers instruction next := by
  obtain ⟨top, callers, instruction, hframes, hinstruction, hgoes⟩ := goesOn_of_step h
  exact ⟨top, callers, instruction, hframes, hinstruction, moves_of_goesOn hgoes⟩

/-- A step that fails for a reason that lies in the code shows what is wrong there: there
is no call in progress, no instruction, or an instruction to blame. -/
theorem blames_of_step (h : machine.step = (next, .failed fault))
    (hkind : fault.kind.LiesInCode) :
    machine.frames = [] ∨ ∃ top callers, machine.frames = top :: callers ∧
      ∀ instruction, top.instruction? = some instruction → Blames machine top instruction := by
  have hsteps := steps_step machine
  rw [h] at hsteps
  cases hsteps with
  | limit => simp [Fault.kind, Machine.fault, FaultCause.kind, FaultKind.LiesInCode] at hkind
  | idle hframes => exact .inl hframes
  | ranOff hframes hinstruction =>
    exact .inr ⟨_, _, hframes, fun instruction h => by simp [hinstruction] at h⟩
  | performs hframes hinstruction hperforms =>
    cases hperforms with
    | refuses hrefuses =>
      refine .inr ⟨_, _, hframes, fun instruction h => ?_⟩
      obtain rfl := Option.some.inj (hinstruction.symm.trans h)
      exact blames_of_refuses hrefuses hkind

/-- A step that fails has been counted, and leaves everything else in place but operands. -/
theorem fails_of_step (h : machine.step = (next, .failed fault)) :
    Fails { machine with steps := machine.steps + 1 } next fault := by
  have hsteps := steps_step machine
  rw [h] at hsteps
  cases hsteps with
  | limit | idle | ranOff => exact ⟨⟨_, List.suffix_refl _, rfl⟩, _, rfl⟩
  | performs _ _ hperforms =>
    cases hperforms with
    | refuses hrefuses => exact ⟨⟨_, hrefuses.suffix, rfl⟩, _, rfl⟩

/-- A step that fails leaves the activations and the board as they were. -/
theorem unchanged_of_failed (h : machine.step = (next, .failed fault)) :
    Unchanged machine next := by
  obtain ⟨stack, -, rfl⟩ := (fails_of_step h).popped
  exact ⟨rfl, rfl⟩

/-- The last step of a run makes the return of its outermost activation. -/
theorem quits_of_finished (h : machine.step = (next, .finished bindings)) :
    ∃ top instruction, machine.frames = [top] ∧ top.instruction? = some instruction ∧
      Quits { machine with steps := machine.steps + 1 } top instruction bindings ∧
      next = { machine with steps := machine.steps + 1, frames := [] } := by
  have hsteps := steps_step machine
  rw [h] at hsteps
  cases hsteps with
  | performs hframes hinstruction hperforms =>
    cases hperforms with
    | quits hcallers hquits =>
      exact ⟨_, _, hcallers ▸ hframes, hinstruction, hquits, rfl⟩

/-- A run ends with a return of its outermost activation, which leaves the board as it was. -/
theorem returns_of_finished (h : machine.step = (next, .finished bindings)) :
    ∃ top instruction, machine.frames = [top] ∧ top.instruction? = some instruction ∧
      ((∃ n, instruction = .ret n) ∨ ∃ n names, instruction = .returnVars n names) ∧
      next.frames = [] ∧ next.board = machine.board := by
  obtain ⟨top, instruction, hframes, hinstruction, hquits, rfl⟩ := quits_of_finished h
  refine ⟨top, instruction, hframes, hinstruction, ?_, rfl, rfl⟩
  cases hquits with
  | ret => exact .inl ⟨_, rfl⟩
  | returnVars => exact .inr ⟨_, _, rfl⟩

/-- What running steps preserve holds throughout a run. -/
theorem invariant_of_run {Inv : Machine → Prop}
    (hstep : ∀ machine next, Inv machine → machine.step = (next, .running) → Inv next)
    {fuel : Nat} (hstart : Inv machine) (h : machine.run fuel = (next, .running)) : Inv next := by
  induction fuel generalizing machine with
  | zero =>
    obtain ⟨rfl, -⟩ := Prod.mk.inj h
    exact hstart
  | succ fuel ih =>
    simp only [run] at h
    split at h
    · next middle hmiddle => exact ih (hstep machine middle hstart hmiddle) h
    · next hended => exact (hended next h).elim

/-- A run that goes on has made its last step from a state of the run. -/
theorem exists_step_of_run {n : Nat} (h : machine.run (n + 1) = (next, .running)) :
    ∃ last, machine.run n = (last, .running) ∧ last.step = (next, .running) := by
  induction n generalizing machine with
  | zero =>
    simp only [run] at h
    split at h
    · next middle hmiddle =>
      obtain ⟨rfl, -⟩ := Prod.mk.inj h
      exact ⟨machine, rfl, hmiddle⟩
    · next hended => exact (hended next h).elim
  | succ n ih =>
    rw [run] at h
    split at h
    · next middle hmiddle =>
      obtain ⟨last, hrun, hlast⟩ := ih h
      exact ⟨last, by simp [run, hmiddle, hrun], hlast⟩
    · next hended => exact (hended next h).elim

/-- What steps preserve that stay above some depth holds until a run comes down to it. -/
theorem invariant_of_inside {Inv : Machine → Prop} {height n : Nat}
    (hstep : ∀ before after, Inv before → before.step = (after, .running) →
      height < after.depth → Inv after) (hstart : Inv machine)
    (hinside : ∀ k < n, ∀ middle, machine.run k = (middle, .running) → height < middle.depth)
    {k : Nat} (hk : k < n) (h : machine.run k = (next, .running)) : Inv next := by
  induction k generalizing next with
  | zero =>
    obtain ⟨rfl, -⟩ := Prod.mk.inj h
    exact hstart
  | succ k ih =>
    obtain ⟨last, hlast, hnext⟩ := exists_step_of_run h
    exact hstep last next (ih (by omega) hlast) hnext (hinside (k + 1) hk next h)

/-- What holds of the states of a run until it has ended holds of all states that go on. -/
theorem forall_of_ended {Inv : Machine → Prop} {fuel : Nat}
    (hended : (machine.execute fuel).2 ≠ .running)
    (h : ∀ k < fuel, Inv (machine.execute k).1) (k : Nat) (next : Machine)
    (hnext : machine.execute k = (next, .running)) : Inv next := by
  by_cases hk : k < fuel
  · have hhere := h k hk
    rwa [hnext] at hhere
  · obtain ⟨more, rfl⟩ := Nat.exists_eq_add_of_le (Nat.le_of_not_lt hk)
    rw [execute_add_of_ended fuel more machine hended] at hnext
    exact (hended (by rw [hnext])).elim

/-- A run that has ended made its last step after steps that went on. -/
theorem exists_last_step {fuel : Nat} {outcome : Outcome} (houtcome : outcome ≠ .running)
    (h : machine.run fuel = (next, outcome)) :
    ∃ k last, machine.run k = (last, .running) ∧ last.step = (next, outcome) := by
  induction fuel generalizing machine with
  | zero => exact (houtcome (Prod.mk.inj h).2.symm).elim
  | succ fuel ih =>
    simp only [run] at h
    split at h
    · next middle hmiddle =>
      obtain ⟨k, last, hrun, hlast⟩ := ih h
      exact ⟨k + 1, last, by simp [run, hmiddle, hrun], hlast⟩
    · exact ⟨0, machine, rfl, h⟩

end Machine
end Gobstones
