import Gobstones.Command.Action
/-!
# The command line

This module reads the arguments of the command {lit}`gbs` and answers them.  A word
that starts with a dash is an option, unless it is a lone dash or follows a lone
double dash; every other word names the action or the file.  An option may have its
value behind an equals sign or in the next word, and nothing may be given twice.

Main definitions:

- {lit}`Request` and {lit}`UsageError`: what arguments ask for.
- {lit}`Request.ofArguments`: read arguments from left to right.
- {lit}`respond`: the exit code and the texts that the command prints.
-/

namespace Gobstones
namespace Command

/-! ## Requests -/

/-- What the arguments ask for. -/
inductive Request where
  | help
  | version
  | check (file : String)
  | dump (file : String) (style : Style)
  | run (file : String) (flags : Flags)
deriving DecidableEq, Repr

/-- The ways in which arguments make no sense. -/
inductive UsageError where
  | missingCommand
  | unknownCommand (name : String)
  | unknownOption (word : String)
  | unexpectedWord (word : String)
  | unexpectedValue (option value : String)
  | missingValue (option : String)
  | invalidValue (option value : String)
  | repeatedOption (option : String)
  | missingFile
deriving DecidableEq, Repr

/-- The report of arguments that make no sense. -/
def UsageError.message : UsageError → String
  | missingCommand => "a command is required"
  | unknownCommand name => s!"unrecognized command '{name}'"
  | unknownOption word => s!"unexpected option '{word}'"
  | unexpectedWord word => s!"unexpected argument '{word}'"
  | unexpectedValue option value => s!"unexpected value '{value}' for '--{option}'"
  | missingValue option => s!"a value is required for '--{option}'"
  | invalidValue option value => s!"invalid value '{value}' for '--{option}'"
  | repeatedOption option => s!"'--{option}' cannot be used multiple times"
  | missingFile => "a file is required"

/-! ## Options -/

/-- The actions on files. -/
inductive Verb where
  | run
  | check
  | dump
deriving DecidableEq, Repr

/-- The options of actions. -/
inductive Setting where
  | backend
  | width
  | height
  | head
  | maxSteps
  | compact
deriving DecidableEq, Repr

namespace Setting

/-- The name of an option behind its two dashes. -/
def name : Setting → String
  | backend => "backend"
  | width => "width"
  | height => "height"
  | head => "head"
  | maxSteps => "max-steps"
  | compact => "compact"

end Setting

namespace Verb

/-- The name of an action. -/
def name : Verb → String
  | run => "run"
  | check => "check"
  | dump => "dump"

/-- The action of a name. -/
def ofName? (name : String) : Option Verb :=
  [run, check, dump].find? (·.name = name)

/-- The options that an action has. -/
def settings : Verb → List Setting
  | run => [.backend, .width, .height, .head, .maxSteps]
  | check => []
  | dump => [.compact]

/-- The option that an action has under a name. -/
def setting? (verb : Verb) (name : String) : Option Setting :=
  verb.settings.find? (·.name = name)

end Verb

/-! ## Words -/

/-- The kinds of words on a command line. -/
inductive Word where
  | terminator
  | long (name : String) (value : Option String)
  | short (letter : Char)
  | plain
deriving DecidableEq, Repr

/-- The name of an option, with its value behind an equals sign if there is one. -/
def splitLong (text : List Char) : Word :=
  match text.span (· ≠ '=') with
  | (name, []) => .long (String.ofList name) none
  | (name, _ :: value) => .long (String.ofList name) (some (String.ofList value))

/-- The kind of a word.  A lone dash is a plain word. -/
def Word.ofString (word : String) : Word :=
  match word.toList with
  | ['-', '-'] => .terminator
  | '-' :: '-' :: text => splitLong text
  | '-' :: letter :: _ => .short letter
  | _ => .plain

/-! ## Arguments of an action -/

/-- The arguments of an action that have been read. -/
structure Arguments where
  file : Option String
  flags : Flags
  compact : Bool
deriving DecidableEq, Repr

namespace Arguments

/-- Nothing has been read. -/
def empty : Arguments :=
  { file := none, flags := .empty, compact := false }

/-- The size of a board that a value writes. -/
def size? (value : String) : Option UInt32 := do
  let n ← Numeral.int64? value.toList
  if 0 ≤ n.toInt ∧ n.toInt < UInt32.size then return UInt32.ofNat n.toInt.toNat else failure

/-- Put a value into a place that must be empty. -/
def fill {α : Type} (setting : Setting) (text : String) (place value : Option α) :
    Except UsageError (Option α) :=
  match place, value with
  | _, none => .error (.invalidValue setting.name text)
  | some _, some _ => .error (.repeatedOption setting.name)
  | none, some value => .ok (some value)

/-- Give an option a value. -/
def set (arguments : Arguments) (setting : Setting) (text : String) :
    Except UsageError Arguments := do
  let flags := arguments.flags
  match setting with
  | .backend =>
    let backend ← fill setting text flags.backend (Backend.ofName? text)
    return { arguments with flags := { flags with backend } }
  | .width =>
    let width ← fill setting text flags.width (size? text)
    return { arguments with flags := { flags with width } }
  | .height =>
    let height ← fill setting text flags.height (size? text)
    return { arguments with flags := { flags with height } }
  | .head =>
    let head ← fill setting text flags.head (readPosition text).toOption
    return { arguments with flags := { flags with head } }
  | .maxSteps =>
    let maxSteps ← fill setting text flags.maxSteps (Numeral.uint64? text.toList)
    return { arguments with flags := { flags with maxSteps } }
  | .compact => throw (.unexpectedValue setting.name text)

/-- Name the file, which must not be empty. -/
def setFile (arguments : Arguments) (word : String) : Except UsageError Arguments :=
  match arguments.file with
  | some _ => .error (.unexpectedWord word)
  | none => if word = "" then .error .missingFile else .ok { arguments with file := some word }

/-- Ask for compact style. -/
def setCompact (arguments : Arguments) : Except UsageError Arguments :=
  if arguments.compact then .error (.repeatedOption Setting.compact.name)
  else .ok { arguments with compact := true }

/-- The request of an action with all its arguments. -/
def request (arguments : Arguments) (verb : Verb) : Except UsageError Request :=
  match arguments.file, verb with
  | none, _ => .error .missingFile
  | some file, .run => .ok (.run file arguments.flags)
  | some file, .check => .ok (.check file)
  | some file, .dump => .ok (.dump file (if arguments.compact then .compact else .verbose))

/-- Read the arguments of an action from left to right.  A request for help ends the
reading. -/
def read (verb : Verb) (arguments : Arguments) : List String → Except UsageError Request
  | [] => arguments.request verb
  | word :: rest =>
    match Word.ofString word with
    | .plain => do read verb (← arguments.setFile word) rest
    | .terminator => do (← rest.foldlM setFile arguments).request verb
    | .short 'h' => .ok .help
    | .short _ => .error (.unknownOption word)
    | .long "help" none => .ok .help
    | .long name value =>
      match verb.setting? name, value, rest with
      | none, _, _ => .error (.unknownOption word)
      | some .compact, none, rest => do read verb (← arguments.setCompact) rest
      | some setting, some value, rest => do read verb (← arguments.set setting value) rest
      | some setting, none, [] => .error (.missingValue setting.name)
      | some setting, none, value :: rest =>
        if Word.ofString value = .plain then do read verb (← arguments.set setting value) rest
        else .error (.missingValue setting.name)

end Arguments

namespace Request

/-- A request for help on an action, or on the command as a whole. -/
def helpOn : List String → Except UsageError Request
  | [] => .ok .help
  | name :: rest =>
    if (Verb.ofName? name).isSome ∨ name = "help" then
      match rest with
      | [] => .ok .help
      | word :: _ => .error (.unknownCommand word)
    else .error (.unknownCommand name)

/-- What arguments ask for. -/
def ofArguments : List String → Except UsageError Request
  | [] => .error .missingCommand
  | word :: rest =>
    match Verb.ofName? word, Word.ofString word with
    | some verb, _ => Arguments.empty.read verb rest
    | none, .short 'h' | none, .long "help" none => .ok .help
    | none, .short 'V' | none, .long "version" none => .ok .version
    | none, .plain => if word = "help" then helpOn rest else .error (.unknownCommand word)
    | none, _ => .error (.unknownOption word)

end Request

/-! ## Responses -/

/-- What the command leaves: its exit code and what it prints to its two outputs. -/
structure Response where
  exitCode : UInt32
  output : String
  errors : String
deriving DecidableEq, Repr

/-- The name and the version of the command. -/
def versionLine : String :=
  "gbs 0.1.0\n"

/-- The summary of the command's usage. -/
def usage : String :=
  "Run Gobstones object files on the interpreter or as native code\n\n" ++
  "Usage: gbs <COMMAND>\n\nCommands:\n" ++
  "  run    Verify and run a program, printing its results as `name = value`\n" ++
  "  check  Verify a program without running it\n" ++
  "  dump   Print a program in object-file form\n" ++
  "  help   Print this message\n"

namespace Response

/-- The response to a successful request prints a text. -/
def success (output : String) : Response :=
  { exitCode := 0, output, errors := "" }

/-- The response to arguments that make no sense. -/
def ofUsageError (error : UsageError) : Response :=
  { exitCode := 1, output := "", errors := s!"error: {error.message}\n\n" ++ usage }

/-- The response to a failed action. -/
def ofError (error : CommandError) : Response :=
  let label := if error.isRuntime then "runtime error" else "error"
  { exitCode := error.exitCode, output := "", errors := s!"{label}: {error.message}\n" }

/-- The response to an action. -/
def ofResult : Except CommandError String → Response
  | .ok output => success output
  | .error e => ofError e

end Response

/-- The file that a request is about. -/
def Request.file? : Request → Option String
  | help | version => none
  | check file | dump file _ | run file _ => some file

/-- The response to a request, given the content of its file.  There is none when
{lit}`fuel` steps do not suffice for a run. -/
def Request.respond (fuel : Nat) (env : Environment) (content : Content) :
    Request → Option Response
  | help => some (.success usage)
  | version => some (.success versionLine)
  | check file => some (.ofResult (Command.check file content))
  | dump file style => some (.ofResult (Command.dump style file content))
  | run file flags => (runWith fuel flags env file content).map .ofResult

end Command
end Gobstones
