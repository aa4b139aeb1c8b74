import Gobstones.Check.Problem
import Gobstones.Program.Basic
/-!
# Entrypoints and calls

This module checks that a program has one place to start, that every call names a
routine and passes as many arguments as it takes, and that variables are returned
only by the entrypoint, as many as it says.

Main definitions:

- {lit}`Program.entryProblems`: the problems of the entrypoint.
- {lit}`Program.callProblems`: the problems of calls and returned variables.
-/

namespace Gobstones
namespace Program

/-- The problems of the entrypoint.  Fallback names count only when no routine is marked. -/
def entryProblems (program : Program) : List Problem :=
  match (program.routines.filter (·.kind = .entrypoint)).map Routine.name with
  | [] => if program.entrypoint?.isNone then [.missingEntrypoint] else []
  | [_] => []
  | names => [.multipleEntrypoints names]

/-- The problems of one call. -/
def callProblemsAt (program : Program) (routine : String) (position : Nat) (name : String)
    (argc : Nat) : List Problem :=
  match program.resolve? name with
  | none => [.undefinedRoutine routine position name]
  | some target =>
    if target.arity = argc then []
    else [.arityMismatch routine position name target.arity argc]

/-- The problems of one return of variables. -/
def returnVarsProblemsAt (program : Program) (routine : String) (position n : Nat)
    (names : List String) : List Problem :=
  (if program.entrypoint?.any (·.name = routine) then []
    else [.malformedReturnVars routine position .outsideEntrypoint]) ++
  (if names.length = n then [] else [.malformedReturnVars routine position .countMismatch])

/-- The problems of the calls and the returned variables among instructions, of which the
first has the given position. -/
def callProblemsFrom (program : Program) (routine : String) (position : Nat) :
    List Instruction → List Problem
  | [] => []
  | .call name argc :: rest =>
    program.callProblemsAt routine position name argc ++
      program.callProblemsFrom routine (position + 1) rest
  | .returnVars n names :: rest =>
    program.returnVarsProblemsAt routine position n names ++
      program.callProblemsFrom routine (position + 1) rest
  | _ :: rest => program.callProblemsFrom routine (position + 1) rest

/-- The problems of the calls and the returned variables of a program. -/
def callProblems (program : Program) : List Problem :=
  program.routines.flatMap fun routine =>
    program.callProblemsFrom routine.name 0 routine.code.toList

end Program
end Gobstones
