import Gobstones.Check.Basic
import Gobstones.Command.Settings
import Gobstones.Machine.Run
import Gobstones.Native.Run
import Gobstones.Object.Reader
import Gobstones.Object.Writer
/-!
# Actions on object files

This module defines what can be done with an object file: check it, write it again,
and run it.  An action takes the content of the file and yields the text that it
prints, or an error with an exit code of its own.

Main definitions:

- {lit}`CommandError`: the ways in which an action fails.
- {lit}`check`, {lit}`dump` and {lit}`run`: the actions.
-/

namespace Gobstones
namespace Command

/-! ## Errors -/

/-- The ways in which an action fails. -/
inductive CommandError where
  | unreadable (path reason : String)
  | malformed (error : ObjectError)
  | settings (error : SettingsError)
  | rejected (problems : List Problem)
  | fault (failure : Fault)
  | native (error : Native.NativeError)
deriving DecidableEq, Repr

namespace CommandError

/-- The report of a failed action. -/
def message : CommandError → String
  | .unreadable path reason => s!"cannot read '{path}': {reason}"
  | .malformed error => error.message
  | .settings error => s!"invalid configuration: {error.message}"
  | .rejected problems => "\n".intercalate (problems.map Problem.message)
  | .fault failure => failure.report
  | .native error => error.message

/-- Whether the program failed while it was running. -/
def isRuntime : CommandError → Bool
  | .fault _ | .native _ => true
  | _ => false

/-- The exit code tells bad input, a rejected program and a failed run apart. -/
def exitCode : CommandError → UInt32
  | .unreadable .. | .malformed _ | .settings _ => 1
  | .rejected _ => 2
  | .fault _ | .native _ => 3

end CommandError

/-! ## Loading -/

/-- The text of a file, or the reason why it cannot be read. -/
abbrev Content := Except String String

/-- The program in an object file. -/
def loadProgram (path : String) (content : Content) : Except CommandError Program :=
  match content with
  | .error reason => .error (.unreadable path reason)
  | .ok text => (readObject text).mapError .malformed

/-- The program in an object file, in which nothing may be wrong. -/
def loadAccepted (path : String) (content : Content) : Except CommandError Program := do
  let program ← loadProgram path content
  if program.Accepted then return program
  else throw (.rejected program.problems)

/-! ## Checking and writing -/

/-- Report that nothing is wrong with an object file. -/
def check (path : String) (content : Content) : Except CommandError String := do
  let program ← loadAccepted path content
  return s!"OK: {path} ({program.routines.length} routines)\n"

/-- Write an object file again. -/
def dump (style : Style) (path : String) (content : Content) : Except CommandError String := do
  let program ← loadProgram path content
  return writeObject program style

/-! ## Running -/

/-- Run a program on the stack machine, at most {lit}`fuel` steps.  There is no result when
they do not suffice. -/
def interpret (fuel : Nat) (settings : Settings) (program : Program) (board : Board) :
    Option (Except CommandError Bindings) :=
  match ((Machine.new program board settings.maxSteps).execute fuel).2 with
  | .running => none
  | .finished bindings => some (.ok bindings)
  | .failed fault => some (.error (.fault fault))

/-- Run a program as native code, or on the stack machine if it has no native code.  Native
code knows no limit of steps. -/
def runNative (fuel : Nat) (settings : Settings) (program : Program) (board : Board) :
    Option (Except CommandError Bindings) :=
  match Native.compile program with
  | .error _ => interpret fuel settings program board
  | .ok code =>
    match Native.load .host code.linked.bytes.size with
    | .error _ => interpret fuel settings program board
    | .ok _ => (code.run fuel board).map fun outcome => (outcome.mapError .native).map Prod.fst

/-- Run a program on a board. -/
def execute (fuel : Nat) (settings : Settings) (program : Program) (board : Board) :
    Option (Except CommandError Bindings) :=
  match settings.backend with
  | .interpreter => interpret fuel settings program board
  | .native => runNative fuel settings program board

/-- The results of a run, one to a line. -/
def resultLines (bindings : Bindings) : String :=
  String.join (bindings.map fun (name, value) => s!"{name} = {value.text}\n")

/-- The program of an object file and the board that settings give it. -/
def prepare (settings : Settings) (path : String) (content : Content) :
    Except CommandError (Program × Board) := do
  let program ← loadAccepted path content
  let board ← (Board.withHead settings.width settings.height settings.headX settings.headY).mapError
    fun error => .settings (.board error)
  return (program, board)

/-- Run an object file and report its results. -/
def run (fuel : Nat) (settings : Settings) (path : String) (content : Content) :
    Option (Except CommandError String) :=
  match prepare settings path content with
  | .error e => some (.error e)
  | .ok (program, board) => (execute fuel settings program board).map (·.map resultLines)

/-- Run an object file with the settings from their sources, which are looked at first. -/
def runWith (fuel : Nat) (flags : Flags) (env : Environment) (path : String) (content : Content) :
    Option (Except CommandError String) :=
  match Settings.resolve flags env with
  | .error e => some (.error (.settings e))
  | .ok settings => run fuel settings path content

end Command
end Gobstones
