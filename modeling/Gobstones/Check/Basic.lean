import Gobstones.Check.Brackets
import Gobstones.Check.Calls
import Gobstones.Check.Depth
/-!
# Accepted programs

This module puts the checks of programs together.  Stack depths are looked at only
if every call is sound, since the effect of another call on the stack is unknown.

Main definitions:

- {lit}`Program.problems`: everything that is wrong with a program.
- {lit}`Program.layoutProblems`: what makes a module unfit for native code.
- {lit}`Program.Accepted`: nothing is wrong with a program.
-/

namespace Gobstones
namespace Program

/-- Everything that is wrong with a program, check by check. -/
def problems (program : Program) : List Problem :=
  program.entryProblems ++ program.callProblems ++ program.bracketProblems ++
    if program.callProblems.isEmpty then program.depthProblems else []

/-- What makes a module unfit for native code: its transactions and its stack depths.  A
module needs no entrypoint, and calls that always fail are allowed since they end their
path. -/
def layoutProblems (program : Program) : List Problem :=
  program.bracketProblems ++ program.depthProblems

/-- A program is accepted when nothing is wrong with it. -/
def Accepted (program : Program) : Prop :=
  program.problems = []

instance (program : Program) : Decidable program.Accepted :=
  inferInstanceAs (Decidable (program.problems = []))

end Program
end Gobstones
