import Gobstones.Machine.State
/-!
# Steps of the stack machine

This module defines what one instruction does.  An instruction that fails keeps what it
has done so far: arguments that it had popped stay popped.

Main definitions:

- {lit}`Outcome`: whether a run goes on, has ended or has failed.
- {lit}`Machine.perform`: the effect of one instruction.
- {lit}`Machine.step`: one counted step of a machine.
-/

namespace Gobstones

/-- What a step comes to: the run goes on, or ends with the returned variables, or
fails. -/
inductive Outcome where
  | running
  | finished (bindings : Bindings)
  | failed (fault : Fault)
deriving DecidableEq, Repr

namespace Machine

/-! ## The operand stack -/

/-- Move {lit}`n` values from the stack in front of {lit}`args`, so that they end up in
the order in which they were pushed. -/
def popArguments (n : Nat) (args stack : List Value) : Option (List Value × List Value) :=
  match n, stack with
  | 0, stack => some (args, stack)
  | n + 1, value :: stack => popArguments n (value :: args) stack
  | _ + 1, [] => none

/-- Push a result, if there is one. -/
def pushResult (stack : List Value) : Option Value → List Value
  | some value => value :: stack
  | none => stack

/-! ## Outcomes of one step -/

/-- Fail in the current state. -/
def fail (machine : Machine) (cause : FaultCause) : Machine × Outcome :=
  (machine, .failed (machine.fault cause))

/-- Go on with other activations. -/
def goOn (machine : Machine) (frames : List Activation) : Machine × Outcome :=
  ({ machine with frames }, .running)

/-- Leave the innermost activation.  The caller goes on after its call; without a caller
the run ends with the given variables. -/
def leave (machine : Machine) (callers : List Activation) (bindings : Bindings) :
    Machine × Outcome :=
  match callers with
  | [] => ({ machine with frames := [] }, .finished bindings)
  | caller :: rest => machine.goOn (caller.advance :: rest)

/-- Go on at the destination of the current jump. -/
def jump (machine : Machine) (top : Activation) (callers : List Activation) : Machine × Outcome :=
  match top.routine.target? top.ip with
  | some target => machine.goOn ({ top with ip := target } :: callers)
  | none => machine.fail (.unresolvedJump top.ip)

/-! ## Calls -/

/-- Call a routine of a program with arguments from the stack. -/
def enterRoutine (machine : Machine) (program : Program) (routine : Routine) (argc : Nat) :
    Machine × Outcome :=
  if routine.params.length ≠ argc then
    machine.fail (.wrongArity routine.kind routine.name routine.params argc)
  else
    match popArguments argc [] machine.stack with
    | none => machine.fail .stackUnderflow
    | some (args, stack) =>
      let locals := Locals.ofArguments routine.params args
      { machine with stack }.goOn (.new program routine locals :: machine.frames)

/-- Apply a builtin to arguments from the stack.  Only functions leave their result. -/
def applyBuiltin (machine : Machine) (top : Activation) (callers : List Activation)
    (builtin : Builtin) (argc : Nat) : Machine × Outcome :=
  if builtin.params.length ≠ argc then
    machine.fail (.wrongArity builtin.kind builtin.name builtin.params argc)
  else
    match popArguments argc [] machine.stack with
    | none => machine.fail .stackUnderflow
    | some (args, stack) =>
      match builtin.operation.perform args machine.board with
      | .error e board => { machine with stack, board }.fail (.primitive e)
      | .ok result board =>
        let stack := pushResult stack (if builtin.kind = .function then result else none)
        { machine with stack, board }.goOn (top.advance :: callers)

/-- Call what a name stands for in the module of the innermost activation. -/
def call (machine : Machine) (top : Activation) (callers : List Activation) (name : String)
    (argc : Nat) : Machine × Outcome :=
  match top.program.resolve? name with
  | none => machine.fail (.undefinedRoutine name)
  | some (.builtin builtin) => machine.applyBuiltin top callers builtin argc
  | some (.own routine) => machine.enterRoutine top.program routine argc
  | some (.external program routine) => machine.enterRoutine program routine argc

/-! ## Returns -/

/-- The values of returned variables, or the first one that has none. -/
def resultBindings (locals : Locals) : List String → Except String Bindings
  | [] => .ok []
  | name :: rest =>
    match locals.get? (Polyname.base name) with
    | none => .error (Polyname.base name)
    | some value => (resultBindings locals rest).map ((Polyname.base name, value) :: ·)

/-- Return variables.  Only the outermost activation looks at their values. -/
def returnVars (machine : Machine) (top : Activation) (callers : List Activation) (n : Nat)
    (names : List String) : Machine × Outcome :=
  if names.length ≠ n then machine.fail (.namesMismatch n names.length)
  else if callers.isEmpty then
    match resultBindings top.locals names with
    | .ok bindings => machine.leave callers bindings
    | .error name => machine.fail (.uninitialized name)
  else machine.leave callers []

/-! ## Instructions -/

/-- The effect of an instruction of the innermost activation {lit}`top`. -/
def perform (machine : Machine) (top : Activation) (callers : List Activation) :
    Instruction → Machine × Outcome
  | .pushConst value =>
    { machine with stack := value :: machine.stack }.goOn (top.advance :: callers)
  | .pushFrom name =>
    match top.locals.get? name with
    | some value => { machine with stack := value :: machine.stack }.goOn (top.advance :: callers)
    | none => machine.fail (.uninitialized name)
  | .popTo name =>
    if name ∈ top.immutable then machine.fail (.immutable name)
    else
      match machine.stack with
      | [] => machine.fail .stackUnderflow
      | value :: stack =>
        { machine with stack }.goOn
          ({ top with locals := top.locals.set name value }.advance :: callers)
  | .delVar name =>
    machine.goOn ({ top with locals := top.locals.erase name }.advance :: callers)
  | .setImmutable name =>
    machine.goOn ({ top with immutable := top.immutable.insert name }.advance :: callers)
  | .unsetImmutable name =>
    machine.goOn
      ({ top with immutable := top.immutable.filter (· ≠ name) }.advance :: callers)
  | .label _ => machine.goOn (top.advance :: callers)
  | .jump _ => machine.jump top callers
  | .jumpIfFalse _ =>
    match machine.stack with
    | [] => machine.fail .stackUnderflow
    | .bool true :: stack => { machine with stack }.goOn (top.advance :: callers)
    | .bool false :: stack => { machine with stack }.jump top callers
    | _ :: stack => { machine with stack }.fail .conditionNotBoolean
  | .jumpIfNotIn values _ =>
    match machine.stack with
    | [] => machine.fail .stackUnderflow
    | value :: stack =>
      if value ∈ values then { machine with stack }.goOn (top.advance :: callers)
      else { machine with stack }.jump top callers
  | .raise message => machine.fail (.thrown message)
  | .call name argc => machine.call top callers name argc
  | .ret n =>
    match popArguments n [] machine.stack with
    | none => machine.fail .stackUnderflow
    | some _ => machine.leave callers []
  | .returnVars n names => machine.returnVars top callers n names
  | .enter => { machine with board := machine.board.pushState }.goOn (top.advance :: callers)
  | .leave =>
    match Board.Action.popState machine.board with
    | .ok _ board => { machine with board }.goOn (top.advance :: callers)
    | .error _ board => { machine with board }.fail .unbalancedLeave

/-- One step.  It is counted before anything else, and a step beyond the limit fails. -/
def step (machine : Machine) : Machine × Outcome :=
  let machine := { machine with steps := machine.steps + 1 }
  match machine.stepLimit.filter (· < machine.steps) with
  | some limit => machine.fail (.stepLimit limit)
  | none =>
    match machine.frames with
    | [] => machine.fail .noActiveRoutine
    | top :: callers =>
      match top.instruction? with
      | none => machine.fail (.ranOff top.routine.kind top.routine.name)
      | some instruction => machine.perform top callers instruction

end Machine
end Gobstones
