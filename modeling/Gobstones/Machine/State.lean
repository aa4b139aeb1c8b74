import Gobstones.Program.Basic
import Gobstones.Value.Literal
/-!
# States of the stack machine

This module defines the machine that runs programs: an operand stack shared by all
calls, the activations of the calls in progress, and the board.  A fault carries the
calls in progress and the variables of the innermost one.

Main definitions:

- {lit}`Locals`: the variables of an activation, in ascending order of names.
- {lit}`Activation` and {lit}`Machine`: calls in progress and the whole state.
- {lit}`Fault`: a failure with its backtrace.
-/

namespace Gobstones

/-! ## Variables -/

/-- Names with values. -/
abbrev Bindings := List (String × Value)

/-- The variables of an activation, in ascending order of their names, each of them once. -/
structure Locals where
  entries : Bindings
  ascending : Ordered.Ascending Prod.fst entries

instance : CoeOut Locals Bindings :=
  ⟨Locals.entries⟩

namespace Locals

/-- No variables. -/
def empty : Locals where
  entries := []
  ascending := .nil

/-- The value of a variable. -/
def get? (locals : Locals) (name : String) : Option Value :=
  locals.entries.lookup name

/-- Give a variable a value. -/
def set (locals : Locals) (name : String) (value : Value) : Locals where
  entries := Ordered.insert Prod.fst (name, value) locals.entries
  ascending := Ordered.ascending_insert locals.ascending (name, value)

/-- Forget a variable. -/
def erase (locals : Locals) (name : String) : Locals where
  entries := Ordered.erase Prod.fst name locals.entries
  ascending := Ordered.ascending_erase locals.ascending name

/-- The variables that are not temporaries: their names do not start with an underscore. -/
def visible (locals : Locals) : Bindings :=
  locals.entries.filter fun binding => binding.1.toList.head? ≠ some '_'

/-- Give parameters the values of arguments, in order. -/
def ofArguments (params : List String) (args : List Value) : Locals :=
  (params.zip args).foldl (fun locals binding => locals.set binding.1 binding.2) empty

end Locals

/-! ## Activations -/

/-- A call in progress: the routine and the module in which its calls are resolved, the
position of the current instruction, the variables, and the names protected from
assignment. -/
structure Activation where
  program : Program
  routine : Routine
  ip : Nat
  locals : Locals
  immutable : List String

namespace Activation

/-- The call of a routine at its first instruction. -/
def new (program : Program) (routine : Routine) (locals : Locals) : Activation :=
  { program, routine, ip := 0, locals, immutable := [] }

/-- The current instruction. -/
def instruction? (activation : Activation) : Option Instruction :=
  activation.routine.code[activation.ip]?

/-- Go on to the next instruction. -/
def advance (activation : Activation) : Activation :=
  { activation with ip := activation.ip + 1 }

end Activation

/-! ## Faults -/

/-- A call in progress as it is listed in a backtrace. -/
structure TraceFrame where
  kind : RoutineKind
  routine : String
  moduleName : String
  ip : Nat
deriving DecidableEq, Repr

/-- A failure of a running program, with the calls in progress, innermost first, and the
variables of the innermost one. -/
structure Fault where
  cause : FaultCause
  frames : List TraceFrame
  locals : Bindings
deriving DecidableEq, Repr

/-- The place of an activation in a backtrace. -/
def Activation.traceFrame (activation : Activation) : TraceFrame :=
  { kind := activation.routine.kind
    routine := activation.routine.name
    moduleName := activation.program.moduleName
    ip := activation.ip }

namespace Fault

/-- A failure without a call in progress. -/
def bare (cause : FaultCause) : Fault :=
  { cause, frames := [], locals := [] }

/-- The class of a failure. -/
def kind (fault : Fault) : FaultKind :=
  fault.cause.kind

/-- The report of a failure without its backtrace. -/
def message (fault : Fault) : String :=
  fault.cause.message

/-- The backtrace of a failure. -/
def backtrace (fault : Fault) : String :=
  if fault.frames.isEmpty then ""
  else
    let frames := fault.frames.map fun frame =>
      s!"\n    {frame.kind.keyword} {frame.routine} at {frame.ip}"
    let locals := fault.locals.map fun binding => s!"\n    {binding.1} = {binding.2.text}"
    "\n\nAt:" ++ String.join frames ++
      if locals.isEmpty then "" else "\nLocals:" ++ String.join locals

/-- The full report of a failure. -/
def report (fault : Fault) : String :=
  fault.message ++ fault.backtrace

end Fault

/-! ## Machines -/

/-- The state of a run.  The operand stack and the activations have their latest entry in
front. -/
structure Machine where
  program : Program
  board : Board
  stack : List Value
  frames : List Activation
  steps : Nat
  stepLimit : Option Nat

namespace Machine

/-- A machine that has not run yet. -/
def new (program : Program) (board : Board) (stepLimit : Option Nat) : Machine :=
  { program, board, stack := [], frames := [], steps := 0, stepLimit }

/-- A failure in the current state. -/
def fault (machine : Machine) (cause : FaultCause) : Fault :=
  { cause
    frames := machine.frames.map Activation.traceFrame
    locals := (machine.frames.head?.map (·.locals.visible)).getD [] }

/-- The number of calls in progress. -/
def depth (machine : Machine) : Nat :=
  machine.frames.length

end Machine
end Gobstones
