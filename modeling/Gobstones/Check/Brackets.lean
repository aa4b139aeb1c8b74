import Gobstones.Check.Problem
import Gobstones.Program.Basic
/-!
# Transaction brackets

This module checks the board transactions of routines.  A function opens its
transaction with its first instruction and closes it right before each return;
procedures and entrypoints have none.

Main definitions:

- {lit}`Routine.bracketProblems`: the problems of one routine.
- {lit}`Program.bracketProblems`: the problems of all routines of a program.
-/

namespace Gobstones
namespace Routine

/-- The transactions among the instructions of a routine that is not a function. -/
def strayBracketsFrom (name : String) (position : Nat) : List Instruction → List Problem
  | [] => []
  | instruction :: rest =>
    let problems :=
      match instruction with
      | .enter | .leave => [.transactionOutsideFunction name position]
      | _ => []
    problems ++ strayBracketsFrom name (position + 1) rest

/-- The misplaced brackets among the instructions of a function.  {lit}`before` is the
instruction in front of them, if there is one. -/
def misplacedBracketsFrom (name : String) (position : Nat) (before : Option Instruction) :
    List Instruction → List Problem
  | [] => []
  | instruction :: rest =>
    let problems :=
      match instruction with
      | .enter => if before.isSome then [.misplacedEnter name position] else []
      | .leave =>
        match rest with
        | .ret _ :: _ => []
        | _ => [.leaveWithoutReturn name position]
      | .ret _ => if before = some .leave then [] else [.returnWithoutLeave name position]
      | _ => []
    problems ++ misplacedBracketsFrom name (position + 1) (some instruction) rest

/-- The problems with the transactions of a routine. -/
def bracketProblems (routine : Routine) : List Problem :=
  let code := routine.code.toList
  if routine.kind = .function then
    (if code.head? = some .enter then [] else [.missingEnter routine.name]) ++
      misplacedBracketsFrom routine.name 0 none code
  else strayBracketsFrom routine.name 0 code

end Routine

/-- The problems with the transactions of a program. -/
def Program.bracketProblems (program : Program) : List Problem :=
  program.routines.flatMap Routine.bracketProblems

end Gobstones
