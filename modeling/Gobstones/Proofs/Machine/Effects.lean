import Gobstones.Check.Depth
import Gobstones.Machine.Run
import Gobstones.Proofs.Board.Operations
import Gobstones.Proofs.Program.Reach
/-!
# Effects of instructions

This module says once what an instruction can come to, with all that it looks at: the run
goes on, ends or fails.  What other modules need to know of a step that was made is read
off these cases.

Main definitions:

- {lit}`Machine.GoesOn`: the state after an instruction after which the run goes on.
- {lit}`Machine.Quits`: the returns that end a run, with the variables that they return.
- {lit}`Machine.Refuses`: why an instruction fails, and the stack that it leaves.
- {lit}`Machine.Performs` and {lit}`Machine.Steps`: what an instruction and a step come to.

Main results:

- Theorem {lit}`Machine.performs_perform`: these are all effects of an instruction.
- Theorem {lit}`Machine.steps_step`: these are all effects of a step.
-/

namespace Gobstones
namespace Machine

/-! ## Arguments -/

/-- Arguments are taken from the top of the stack. -/
theorem popArguments_eq_some {n : Nat} {args stack args' rest : List Value}
    (h : popArguments n args stack = some (args', rest)) :
    ∃ popped, stack = popped ++ rest ∧ popped.length = n ∧ args' = popped.reverse ++ args := by
  induction n generalizing args stack with
  | zero =>
    obtain ⟨rfl, rfl⟩ := Prod.mk.inj (Option.some.inj h)
    exact ⟨[], rfl, rfl, rfl⟩
  | succ n ih =>
    cases stack with
    | nil => simp [popArguments] at h
    | cons value stack =>
      obtain ⟨popped, rfl, hlength, rfl⟩ := ih h
      exact ⟨value :: popped, rfl, by simp [hlength], by simp⟩

theorem length_of_popArguments {n : Nat} {args stack args' rest : List Value}
    (h : popArguments n args stack = some (args', rest)) :
    stack.length = n + rest.length := by
  obtain ⟨popped, rfl, hlength, -⟩ := popArguments_eq_some h
  rw [List.length_append, hlength]

theorem suffix_of_popArguments {n : Nat} {args stack args' rest : List Value}
    (h : popArguments n args stack = some (args', rest)) : rest <:+ stack := by
  obtain ⟨popped, rfl, -, -⟩ := popArguments_eq_some h
  exact List.suffix_append popped rest

/-- Arguments are popped, and the values below them stay. -/
theorem drop_of_popArguments {n : Nat} {args stack args' rest : List Value}
    (h : popArguments n args stack = some (args', rest)) : stack.drop n = rest := by
  obtain ⟨popped, rfl, rfl, -⟩ := popArguments_eq_some h
  exact List.drop_left

/-- Enough values are taken as arguments. -/
theorem popArguments_append (popped args rest : List Value) :
    popArguments popped.length args (popped ++ rest) = some (popped.reverse ++ args, rest) := by
  induction popped generalizing args with
  | nil => rfl
  | cons value popped ih =>
    change popArguments popped.length (value :: args) (popped ++ rest) = _
    rw [ih, List.reverse_cons, List.append_assoc]
    rfl

/-- Only a stack that is too short lacks arguments. -/
theorem popArguments_eq_none_iff {n : Nat} {args stack : List Value} :
    popArguments n args stack = none ↔ stack.length < n := by
  induction n generalizing args stack with
  | zero => simp [popArguments]
  | succ n ih =>
    cases stack with
    | nil => simp [popArguments]
    | cons value stack => simpa [popArguments] using ih

/-! ## Instructions -/

/-- What an instruction of the innermost activation {lit}`top` leaves behind if the run goes on
after it. -/
inductive GoesOn (machine : Machine) (top : Activation) (callers : List Activation) :
    Instruction → Machine → Prop where
  | pushConst (value : Value) : GoesOn machine top callers (.pushConst value)
      { machine with stack := value :: machine.stack, frames := top.advance :: callers }
  | pushFrom {name : String} {value : Value} (hvalue : top.locals.get? name = some value) :
    GoesOn machine top callers (.pushFrom name)
      { machine with stack := value :: machine.stack, frames := top.advance :: callers }
  | popTo {name : String} {value : Value} {stack : List Value} (hfree : name ∉ top.immutable)
    (hstack : machine.stack = value :: stack) : GoesOn machine top callers (.popTo name)
      { machine with
        stack, frames := { top with locals := top.locals.set name value }.advance :: callers }
  | delVar (name : String) : GoesOn machine top callers (.delVar name)
      { machine with frames := { top with locals := top.locals.erase name }.advance :: callers }
  | setImmutable (name : String) : GoesOn machine top callers (.setImmutable name)
      { machine with
        frames := { top with immutable := top.immutable.insert name }.advance :: callers }
  | unsetImmutable (name : String) : GoesOn machine top callers (.unsetImmutable name)
      { machine with
        frames :=
          { top with immutable := top.immutable.filter (· ≠ name) }.advance :: callers }
  | label (name : String) : GoesOn machine top callers (.label name)
      { machine with frames := top.advance :: callers }
  | jump {label : String} {target : Nat} (htarget : top.routine.target? top.ip = some target) :
    GoesOn machine top callers (.jump label)
      { machine with frames := { top with ip := target } :: callers }
  | onTrue {label : String} {stack : List Value} (hstack : machine.stack = .bool true :: stack) :
    GoesOn machine top callers (.jumpIfFalse label)
      { machine with stack, frames := top.advance :: callers }
  | onFalse {label : String} {stack : List Value} {target : Nat}
    (hstack : machine.stack = .bool false :: stack)
    (htarget : top.routine.target? top.ip = some target) :
    GoesOn machine top callers (.jumpIfFalse label)
      { machine with stack, frames := { top with ip := target } :: callers }
  | onMember {values : List Value} {label : String} {value : Value} {stack : List Value}
    (hstack : machine.stack = value :: stack) (hmem : value ∈ values) :
    GoesOn machine top callers (.jumpIfNotIn values label)
      { machine with stack, frames := top.advance :: callers }
  | onOther {values : List Value} {label : String} {value : Value} {stack : List Value}
    {target : Nat} (hstack : machine.stack = value :: stack) (hmem : value ∉ values)
    (htarget : top.routine.target? top.ip = some target) :
    GoesOn machine top callers (.jumpIfNotIn values label)
      { machine with stack, frames := { top with ip := target } :: callers }
  | builtin {name : String} {argc : Nat} {builtin : Builtin} {args stack : List Value}
    {result : Option Value} {board : Board}
    (hresolve : top.program.resolve? name = some (.builtin builtin))
    (harity : builtin.arity = argc)
    (hargs : popArguments argc [] machine.stack = some (args, stack))
    (happly : builtin.operation.apply machine.board args = .ok (result, board)) :
    GoesOn machine top callers (.call name argc)
      { machine with
        stack := pushResult stack (if builtin.kind = .function then result else none)
        board
        frames := top.advance :: callers }
  | routine {name : String} {argc : Nat} {home : Program} {routine : Routine}
    {args stack : List Value} (hcallee : top.program.callee? name = some (home, routine))
    (harity : routine.arity = argc)
    (hargs : popArguments argc [] machine.stack = some (args, stack)) :
    GoesOn machine top callers (.call name argc)
      { machine with
        stack
        frames := .new home routine (.ofArguments routine.params args) :: machine.frames }
  | ret {n : Nat} {args stack : List Value} {caller : Activation} {rest : List Activation}
    (hargs : popArguments n [] machine.stack = some (args, stack))
    (hcallers : callers = caller :: rest) :
    GoesOn machine top callers (.ret n) { machine with frames := caller.advance :: rest }
  | returnVars {n : Nat} {names : List String} {caller : Activation} {rest : List Activation}
    (hnames : names.length = n) (hcallers : callers = caller :: rest) :
    GoesOn machine top callers (.returnVars n names)
      { machine with frames := caller.advance :: rest }
  | enter : GoesOn machine top callers .enter
      { machine with board := machine.board.pushState, frames := top.advance :: callers }
  | leave {board : Board} (hboard : machine.board.popState = .ok board) :
    GoesOn machine top callers .leave
      { machine with board, frames := top.advance :: callers }

/-- The returns of an outermost activation, with the variables that they return. -/
inductive Quits (machine : Machine) (top : Activation) : Instruction → Bindings → Prop where
  | ret {n : Nat} {args stack : List Value}
    (hargs : popArguments n [] machine.stack = some (args, stack)) : Quits machine top (.ret n) []
  | returnVars {n : Nat} {names : List String} {bindings : Bindings} (hnames : names.length = n)
    (hbindings : resultBindings top.locals names = .ok bindings) :
    Quits machine top (.returnVars n names) bindings

/-- Why an instruction fails, with the values that it leaves on the stack. -/
inductive Refuses (machine : Machine) (top : Activation) (callers : List Activation) :
    Instruction → FaultCause → List Value → Prop where
  | underflow {instruction : Instruction}
    (hshort : machine.stack.length < (top.program.effect instruction).1) :
    Refuses machine top callers instruction .stackUnderflow machine.stack
  | uninitialized {name : String} (hvalue : top.locals.get? name = none) :
    Refuses machine top callers (.pushFrom name) (.uninitialized name) machine.stack
  | immutable {name : String} (hprotected : name ∈ top.immutable) :
    Refuses machine top callers (.popTo name) (.immutable name) machine.stack
  | jump {instruction : Instruction} {label : String} {stack : List Value}
    (hlabel : instruction.jumpLabel? = some label) (hstack : stack <:+ machine.stack)
    (htarget : top.routine.target? top.ip = none) :
    Refuses machine top callers instruction (.unresolvedJump top.ip) stack
  | condition {label : String} {value : Value} {stack : List Value}
    (hstack : machine.stack = value :: stack) (hbool : ∀ b, value ≠ .bool b) :
    Refuses machine top callers (.jumpIfFalse label) .conditionNotBoolean stack
  | raise (message : String) :
    Refuses machine top callers (.raise message) (.thrown message) machine.stack
  | undefined {name : String} {argc : Nat} (hresolve : top.program.resolve? name = none) :
    Refuses machine top callers (.call name argc) (.undefinedRoutine name) machine.stack
  | arity {name called : String} {argc : Nat} {target : CallTarget} {kind : RoutineKind}
    {params : List String} (hresolve : top.program.resolve? name = some target)
    (harity : target.arity = params.length) (hcount : params.length ≠ argc) :
    Refuses machine top callers (.call name argc) (.wrongArity kind called params argc)
      machine.stack
  | primitive {name : String} {argc : Nat} {builtin : Builtin} {args stack : List Value}
    {e : PrimitiveError} (hresolve : top.program.resolve? name = some (.builtin builtin))
    (harity : builtin.arity = argc)
    (hargs : popArguments argc [] machine.stack = some (args, stack))
    (happly : builtin.operation.apply machine.board args = .error e) :
    Refuses machine top callers (.call name argc) (.primitive e) stack
  | names {n : Nat} {names : List String} (hnames : names.length ≠ n) :
    Refuses machine top callers (.returnVars n names) (.namesMismatch n names.length)
      machine.stack
  | results {n : Nat} {names : List String} {name : String} (hcallers : callers = [])
    (hresults : resultBindings top.locals names = .error name) :
    Refuses machine top callers (.returnVars n names) (.uninitialized name) machine.stack
  | leave {e : BoardError} (hboard : machine.board.popState = .error e) :
    Refuses machine top callers .leave .unbalancedLeave machine.stack

/-- What an instruction of the innermost activation comes to: the run goes on, ends with the
return of an activation without callers, or fails. -/
inductive Performs (machine : Machine) (top : Activation) (callers : List Activation)
    (instruction : Instruction) : Machine × Outcome → Prop where
  | goesOn {next : Machine} (h : GoesOn machine top callers instruction next) :
    Performs machine top callers instruction (next, .running)
  | quits {bindings : Bindings} (hcallers : callers = [])
    (h : Quits machine top instruction bindings) :
    Performs machine top callers instruction ({ machine with frames := [] }, .finished bindings)
  | refuses {cause : FaultCause} {stack : List Value}
    (h : Refuses machine top callers instruction cause stack) :
    Performs machine top callers instruction
      ({ machine with stack }, .failed ({ machine with stack }.fault cause))

variable {machine next : Machine} {top : Activation} {callers : List Activation}
  {instruction : Instruction}

theorem performs_jump {popped : List Value} {label : String}
    (hlabel : instruction.jumpLabel? = some label) (hpopped : popped <:+ machine.stack)
    (h : ∀ target, top.routine.target? top.ip = some target →
      GoesOn machine top callers instruction
        { machine with stack := popped, frames := { top with ip := target } :: callers }) :
    Performs machine top callers instruction
      ({ machine with stack := popped }.jump top callers) := by
  unfold jump
  split
  · next target htarget => exact .goesOn (h target htarget)
  · next htarget => exact .refuses (.jump hlabel hpopped htarget)

theorem performs_applyBuiltin {builtin : Builtin} {name : String} {argc : Nat}
    (hresolve : top.program.resolve? name = some (.builtin builtin)) :
    Performs machine top callers (.call name argc)
      (machine.applyBuiltin top callers builtin argc) := by
  unfold applyBuiltin
  split
  · next hcount => exact .refuses (.arity hresolve rfl hcount)
  · next hcount =>
    have harity : builtin.arity = argc := not_not.1 hcount
    split
    · next hargs =>
      exact .refuses
        (.underflow (by simpa [Program.effect, hresolve] using popArguments_eq_none_iff.1 hargs))
    · next args stack hargs =>
      rw [Operation.perform_eq]
      cases happly : builtin.operation.apply machine.board args with
      | error e => exact .refuses (.primitive hresolve harity hargs happly)
      | ok answered => exact .goesOn (.builtin hresolve harity hargs happly)

theorem performs_enterRoutine {home : Program} {routine : Routine} {target : CallTarget}
    {name : String} {argc : Nat} (hresolve : top.program.resolve? name = some target)
    (htarget : target.arity = routine.params.length)
    (hcallee : top.program.callee? name = some (home, routine)) :
    Performs machine top callers (.call name argc) (machine.enterRoutine home routine argc) := by
  unfold enterRoutine
  split
  · next hcount => exact .refuses (.arity hresolve htarget hcount)
  · next hcount =>
    split
    · next hargs =>
      exact .refuses
        (.underflow (by simpa [Program.effect, hresolve] using popArguments_eq_none_iff.1 hargs))
    · next args stack hargs => exact .goesOn (.routine hcallee (not_not.1 hcount) hargs)

theorem performs_call (machine : Machine) (top : Activation) (callers : List Activation)
    (name : String) (argc : Nat) :
    Performs machine top callers (.call name argc) (machine.call top callers name argc) := by
  unfold call
  split
  · next hresolve => exact .refuses (.undefined hresolve)
  · next builtin hresolve => exact performs_applyBuiltin hresolve
  · next routine hresolve =>
    exact performs_enterRoutine hresolve rfl (by simp [Program.callee?, hresolve])
  · next home routine hresolve =>
    exact performs_enterRoutine hresolve rfl (by simp [Program.callee?, hresolve])

/-- Whatever is left with no caller ends the run, and the caller goes on after the call. -/
theorem performs_leave {bindings : Bindings}
    (hquits : callers = [] → Quits machine top instruction bindings)
    (hgoes : ∀ caller rest, callers = caller :: rest →
      GoesOn machine top callers instruction { machine with frames := caller.advance :: rest }) :
    Performs machine top callers instruction (machine.leave callers bindings) := by
  cases callers with
  | nil => exact .quits rfl (hquits rfl)
  | cons caller rest => exact .goesOn (hgoes caller rest rfl)

theorem performs_returnVars (machine : Machine) (top : Activation) (callers : List Activation)
    (n : Nat) (names : List String) :
    Performs machine top callers (.returnVars n names)
      (machine.returnVars top callers n names) := by
  unfold returnVars
  split
  · next hnames => exact .refuses (.names hnames)
  · next hnames =>
    have hnames : names.length = n := not_not.1 hnames
    split
    · next hcallers =>
      split
      · next bindings hbindings =>
        exact performs_leave (fun _ => .returnVars hnames hbindings)
          fun _ _ hcaller => .returnVars hnames hcaller
      · next name hresults => exact .refuses (.results (List.isEmpty_iff.1 hcallers) hresults)
    · next hcallers =>
      exact performs_leave (fun hnone => (hcallers (List.isEmpty_iff.2 hnone)).elim)
        fun _ _ hcaller => .returnVars hnames hcaller

/-- An instruction comes to what its cases say. -/
theorem performs_perform (machine : Machine) (top : Activation) (callers : List Activation)
    (instruction : Instruction) :
    Performs machine top callers instruction (machine.perform top callers instruction) := by
  cases instruction with
  | pushConst value => exact .goesOn (.pushConst value)
  | pushFrom name =>
    simp only [perform]
    split
    · next value hvalue => exact .goesOn (.pushFrom hvalue)
    · next hvalue => exact .refuses (.uninitialized hvalue)
  | popTo name =>
    simp only [perform]
    split
    · next hprotected => exact .refuses (.immutable hprotected)
    · next hfree =>
      split
      · next hstack => exact .refuses (.underflow (by simp [hstack, Program.effect]))
      · next value stack hstack => exact .goesOn (.popTo hfree hstack)
  | delVar name => exact .goesOn (.delVar name)
  | setImmutable name => exact .goesOn (.setImmutable name)
  | unsetImmutable name => exact .goesOn (.unsetImmutable name)
  | label name => exact .goesOn (.label name)
  | jump label => exact performs_jump rfl (List.suffix_refl machine.stack) fun _ => .jump
  | jumpIfFalse label =>
    simp only [perform]
    split
    · next hstack => exact .refuses (.underflow (by simp [hstack, Program.effect]))
    · next stack hstack => exact .goesOn (.onTrue hstack)
    · next stack hstack =>
      exact performs_jump rfl ⟨[.bool false], hstack.symm⟩ fun _ => .onFalse hstack
    · next value stack htrue hfalse hstack =>
      refine .refuses (.condition hstack ?_)
      rintro (_ | _) rfl
      · exact hfalse rfl
      · exact htrue rfl
  | jumpIfNotIn values label =>
    simp only [perform]
    split
    · next hstack => exact .refuses (.underflow (by simp [hstack, Program.effect]))
    · next value stack hstack =>
      split
      · next hmem => exact .goesOn (.onMember hstack hmem)
      · next hmem =>
        exact performs_jump rfl ⟨[value], hstack.symm⟩ fun _ => .onOther hstack hmem
  | raise message => exact .refuses (.raise message)
  | call name argc => exact performs_call machine top callers name argc
  | ret n =>
    simp only [perform]
    split
    · next hargs =>
      exact .refuses
        (.underflow (by simpa [Program.effect] using popArguments_eq_none_iff.1 hargs))
    · next hargs => exact performs_leave (fun _ => .ret hargs) fun _ _ => .ret hargs
  | returnVars n names => exact performs_returnVars machine top callers n names
  | enter => exact .goesOn .enter
  | leave =>
    rw [perform, Board.careful_popState.apply_eq]
    cases hboard : Board.Action.popState.outcome machine.board with
    | error e => exact .refuses (.leave hboard)
    | ok board => exact .goesOn (.leave hboard)

/-! ## Steps -/

/-- What a step comes to.  It is counted first; then it fails for the limit or for lack of an
instruction, or it performs the current instruction of the innermost activation. -/
inductive Steps (machine : Machine) : Machine × Outcome → Prop where
  | limit {limit : Nat}
    (hlimit : machine.stepLimit.filter (· < machine.steps + 1) = some limit) :
    Steps machine ({ machine with steps := machine.steps + 1 }.fail (.stepLimit limit))
  | idle (hframes : machine.frames = []) :
    Steps machine ({ machine with steps := machine.steps + 1 }.fail .noActiveRoutine)
  | ranOff {top : Activation} {callers : List Activation}
    (hframes : machine.frames = top :: callers) (hinstruction : top.instruction? = none) :
    Steps machine ({ machine with steps := machine.steps + 1 }.fail
      (.ranOff top.routine.kind top.routine.name))
  | performs {top : Activation} {callers : List Activation} {instruction : Instruction}
    {result : Machine × Outcome} (hframes : machine.frames = top :: callers)
    (hinstruction : top.instruction? = some instruction)
    (h : Performs { machine with steps := machine.steps + 1 } top callers instruction result) :
    Steps machine result

/-- A step comes to what its cases say. -/
theorem steps_step (machine : Machine) : Steps machine machine.step := by
  simp only [step]
  split
  · next limit hlimit => exact .limit hlimit
  · split
    · next hframes => exact .idle hframes
    · next top callers hframes =>
      split
      · next hinstruction => exact .ranOff hframes hinstruction
      · next instruction hinstruction =>
        exact .performs hframes hinstruction (performs_perform _ top callers instruction)

/-- A step after which the run goes on performs the current instruction of the innermost
activation. -/
theorem goesOn_of_step (h : machine.step = (next, .running)) :
    ∃ top callers instruction, machine.frames = top :: callers ∧
      top.instruction? = some instruction ∧
      GoesOn { machine with steps := machine.steps + 1 } top callers instruction next := by
  have hsteps := steps_step machine
  rw [h] at hsteps
  cases hsteps with
  | performs hframes hinstruction hperforms =>
    cases hperforms with
    | goesOn hgoes => exact ⟨_, _, _, hframes, hinstruction, hgoes⟩

end Machine
end Gobstones
