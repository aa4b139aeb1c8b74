import Gobstones.Command.Line
/-!
# The program

This module runs the command on the arguments, the environment and the files of the
process.
-/

namespace Gobstones

/-- The number of steps after which a run is given up. -/
def stepBudget : Nat :=
  1000000000000000000

/-- The text of an error of the host, with its number. -/
def hostReason : IO.Error → String
  | .noFileOrDirectory _ code details => s!"{details} (os error {code})"
  | .permissionDenied _ code details => s!"{details} (os error {code})"
  | .inappropriateType _ code details => s!"{details} (os error {code})"
  | .invalidArgument _ code details => s!"{details} (os error {code})"
  | error => error.toString

/-- The content of a file. -/
def readContent (path : String) : IO Command.Content := do
  try
    match String.fromUTF8? (← IO.FS.readBinFile path) with
    | some text => return .ok text
    | none => return .error "stream did not contain valid UTF-8"
  catch error => return .error (hostReason error)

/-- The settings in the environment of the process. -/
def readEnvironment : IO Command.Environment := do
  return ⟨← IO.getEnv Command.backendVariable, ← IO.getEnv Command.maxStepsVariable⟩

/-- The content of the file that a request is about. -/
def requestContent (request : Command.Request) : IO Command.Content :=
  match request.file? with
  | some path => readContent path
  | none => return .ok ""

/-- The response to the arguments of the process. -/
def respondTo (args : List String) : IO Command.Response := do
  match Command.Request.ofArguments args with
  | .error e => return .ofUsageError e
  | .ok request =>
    let response := request.respond stepBudget (← readEnvironment) (← requestContent request)
    return response.getD { exitCode := 3, output := "", errors := "runtime error: no end\n" }

end Gobstones

/-- Answer the arguments of the process. -/
def main (args : List String) : IO UInt32 := do
  let response ← Gobstones.respondTo args
  IO.print response.output
  IO.eprint response.errors
  return response.exitCode
