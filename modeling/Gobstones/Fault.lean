import Gobstones.Arithmetic
import Gobstones.Board.Basic
/-!
# Faults

This module classifies the ways in which a running program fails and words their
reports.  A primitive operation fails for a reason of its own; the running
program adds the reasons that lie in its code.

Main definitions:

- {lit}`FaultKind`: the classes of failure.
- {lit}`PrimitiveError`: the reasons for which a primitive operation fails.
- {lit}`FaultCause`: the reasons for which a running program fails.
-/

namespace Gobstones

/-! ## Kinds of routines -/

/-- The kinds of routines.  A function leaves results and has no effect on the
board, a procedure has effects and leaves nothing, and a program starts at an
entrypoint. -/
inductive RoutineKind where
  | procedure
  | function
  | entrypoint
deriving DecidableEq, Repr

namespace RoutineKind

/-- The keyword of a kind of routine. -/
def keyword : RoutineKind → String
  | procedure => "procedure"
  | function => "function"
  | entrypoint => "entrypoint"

end RoutineKind

/-! ## Classes of failure -/

/-- The classes of failure of a running program. -/
inductive FaultKind where
  | uninitializedVariable
  | typeMismatch
  | undefinedRoutine
  | arityMismatch
  | selfDestruction
  | explicitThrow
  | divisionByZero
  | negativeExponent
  | malformedBytecode
  | immutableAssignment
  | stepLimitExceeded
deriving DecidableEq, Repr

namespace FaultKind

/-- The name of a class of failure. -/
def name : FaultKind → String
  | uninitializedVariable => "uninitialized variable"
  | typeMismatch => "type mismatch"
  | undefinedRoutine => "undefined routine"
  | arityMismatch => "arity mismatch"
  | selfDestruction => "self destruction"
  | explicitThrow => "explicit throw"
  | divisionByZero => "division by zero"
  | negativeExponent => "negative exponent"
  | malformedBytecode => "malformed bytecode"
  | immutableAssignment => "immutable assignment"
  | stepLimitExceeded => "step limit exceeded"

end FaultKind

/-! ## Primitive operations -/

/-- The report of a failed integer operation. -/
def ArithmeticError.message : ArithmeticError → String
  | divisionByZero => "Division by zero"
  | negativeExponent => "Negative exponent"

/-- The reasons for which a primitive operation fails. -/
inductive PrimitiveError where
  | board (error : BoardError)
  | arithmetic (error : ArithmeticError)
  | notColor (operation : String)
  | notDirection (operation : String)
  | notScalar (operation : String)
  | notReversible (operation : String)
  | incomparable
  | notBoolean
  | notNumeric
  | operandCount (received : Nat)
deriving DecidableEq, Repr

namespace PrimitiveError

/-- The class of a failed primitive operation. -/
def kind : PrimitiveError → FaultKind
  | board _ => .selfDestruction
  | arithmetic .divisionByZero => .divisionByZero
  | arithmetic .negativeExponent => .negativeExponent
  | operandCount _ => .arityMismatch
  | notColor _ | notDirection _ | notScalar _ | notReversible _
  | incomparable | notBoolean | notNumeric => .typeMismatch

/-- The report of a failed primitive operation. -/
def message : PrimitiveError → String
  | board error => error.message
  | arithmetic error => error.message
  | notColor operation => s!"The argument to {operation} should be a color"
  | notDirection operation => s!"The argument to {operation} should be a direction"
  | notScalar operation => s!"The argument to {operation} should be a scalar"
  | notReversible operation =>
    s!"The argument to {operation} should be a direction or an integer"
  | incomparable => "Relational operation between values of different types"
  | notBoolean => "Logical operation over non-boolean values"
  | notNumeric => "Arithmetic operation over non-numeric values"
  | operandCount received => s!"expected 2 operands, received {received}"

end PrimitiveError

/-! ## Running programs -/

/-- The reasons for which a running program fails. -/
inductive FaultCause where
  | primitive (error : PrimitiveError)
  | uninitialized (name : String)
  | conditionNotBoolean
  | immutable (name : String)
  | undefinedRoutine (name : String)
  | wrongArity (kind : RoutineKind) (name : String) (params : List String) (received : Nat)
  | thrown (message : String)
  | stackUnderflow
  | namesMismatch (declared named : Nat)
  | ranOff (kind : RoutineKind) (name : String)
  | unresolvedJump (position : Nat)
  | unbalancedLeave
  | noActiveRoutine
  | noEntrypoint
  | stepLimit (limit : Nat)
deriving DecidableEq, Repr

namespace FaultCause

/-- The class of a failure. -/
def kind : FaultCause → FaultKind
  | primitive error => error.kind
  | uninitialized _ => .uninitializedVariable
  | conditionNotBoolean => .typeMismatch
  | immutable _ => .immutableAssignment
  | undefinedRoutine _ => .undefinedRoutine
  | wrongArity .. => .arityMismatch
  | thrown _ => .explicitThrow
  | noEntrypoint => .undefinedRoutine
  | stepLimit _ => .stepLimitExceeded
  | stackUnderflow | namesMismatch .. | ranOff .. | unresolvedJump _ | unbalancedLeave
  | noActiveRoutine => .malformedBytecode

/-- The report of a failure. -/
def message : FaultCause → String
  | primitive error => error.message
  | uninitialized name => s!"Uninitialized variable \"{name}\""
  | conditionNotBoolean => "Condition should be a boolean"
  | immutable name =>
    s!"Cannot modify \"{name}\": index of a foreach/repeatWith/repeat is immutable"
  | undefinedRoutine name => s!"function \"{name}\" is not defined"
  | wrongArity kind name params received =>
    let amount := if received > params.length then "many" else "few"
    let list := ", ".intercalate params
    s!"Too {amount} arguments for {kind.keyword} \"{name}\".\nExpected {params.length} ({list}), received {received}"
  | thrown text => text
  | stackUnderflow => "operand stack underflow"
  | namesMismatch declared named => s!"returnVars declares {declared} values but names {named}"
  | ranOff kind name => s!"{kind.keyword} {name} ended without returning"
  | unresolvedJump position => s!"unresolved jump at instruction {position}"
  | unbalancedLeave => BoardError.unbalancedState.message
  | noActiveRoutine => "no active routine"
  | noEntrypoint => "Program has no entrypoint"
  | stepLimit limit => s!"execution exceeded {limit} steps"

end FaultCause
end Gobstones
