/-!
# Problems of programs

This module lists the static problems of programs and words their reports.  A
problem of an instruction names its routine and its position there.

Main definitions:

- {lit}`Problem`: the static problems, grouped by the check that finds them.
- {lit}`Problem.message`: the report of a problem.
-/

namespace Gobstones

/-- What can be wrong with the return of variables. -/
inductive ReturnVarsFlaw where
  | outsideEntrypoint
  | countMismatch
deriving DecidableEq, Repr

/-- The report of a flaw. -/
def ReturnVarsFlaw.message : ReturnVarsFlaw → String
  | outsideEntrypoint => "outside the entrypoint"
  | countMismatch => "name count differs from value count"

/-- The static problems of a program. -/
inductive Problem where
  | missingEntrypoint
  | multipleEntrypoints (names : List String)
  | undefinedRoutine (routine : String) (position : Nat) (name : String)
  | arityMismatch (routine : String) (position : Nat) (name : String) (expected found : Nat)
  | malformedReturnVars (routine : String) (position : Nat) (flaw : ReturnVarsFlaw)
  | missingEnter (routine : String)
  | misplacedEnter (routine : String) (position : Nat)
  | leaveWithoutReturn (routine : String) (position : Nat)
  | returnWithoutLeave (routine : String) (position : Nat)
  | transactionOutsideFunction (routine : String) (position : Nat)
  | stackUnderflow (routine : String) (position depth needed : Nat)
  | inconsistentDepth (routine : String) (position first second : Nat)
  | unbalancedReturn (routine : String) (position expected depth : Nat)
  | mixedReturnCounts (routine : String) (position first found : Nat)
  | fallsOffEnd (routine : String)
deriving DecidableEq, Repr

namespace Problem

/-- The report of a problem. -/
def message : Problem → String
  | missingEntrypoint => "program has no entrypoint"
  | multipleEntrypoints names =>
    let list := ", ".intercalate names
    s!"program has {names.length} entrypoints: {list}"
  | undefinedRoutine routine position name =>
    s!"{routine}@{position}: call to undefined routine \"{name}\""
  | arityMismatch routine position name expected found =>
    s!"{routine}@{position}: \"{name}\" expects {expected} argument(s), called with {found}"
  | malformedReturnVars routine position flaw =>
    s!"{routine}@{position}: malformed returnVars ({flaw.message})"
  | missingEnter routine => s!"{routine}: function body does not start with enter"
  | misplacedEnter routine position =>
    s!"{routine}@{position}: enter must be the first instruction"
  | leaveWithoutReturn routine position =>
    s!"{routine}@{position}: leave must be followed by return"
  | returnWithoutLeave routine position =>
    s!"{routine}@{position}: function returns without leave"
  | transactionOutsideFunction routine position =>
    s!"{routine}@{position}: board transaction outside a function"
  | stackUnderflow routine position depth needed =>
    s!"{routine}@{position}: stack underflow (depth {depth}, needs {needed})"
  | inconsistentDepth routine position first second =>
    s!"{routine}@{position}: inconsistent stack depth ({first} vs {second})"
  | unbalancedReturn routine position expected depth =>
    s!"{routine}@{position}: return {expected} with {depth} value(s) on the stack"
  | mixedReturnCounts routine position first found =>
    s!"{routine}@{position}: return {found} but the first return of the function is return {first}"
  | fallsOffEnd routine =>
    s!"{routine}: control reaches the end of the routine without returning"

end Problem
end Gobstones
