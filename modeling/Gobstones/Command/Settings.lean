import Gobstones.Board.Basic
import Gobstones.Text.Blank
import Gobstones.Text.Numeral
/-!
# Settings of a run

This module defines the settings with which a program is run.  Each setting comes from
the first source that gives it: an option on the command line, the environment, or a
default.

Main definitions:

- {lit}`Backend`: what executes the program.
- {lit}`Settings` and {lit}`Settings.resolve`: the settings and where they come from.
- {lit}`readPosition`: a head position on the command line.
-/

namespace Gobstones
namespace Command

/-! ## Backends -/

/-- What executes the program: the stack machine, or native code where there is any. -/
inductive Backend where
  | interpreter
  | native
deriving DecidableEq, Repr

namespace Backend

/-- The name of a backend. -/
def name : Backend → String
  | interpreter => "interpreter"
  | native => "native"

/-- The backend of a name. -/
def ofName? (name : String) : Option Backend :=
  if name = interpreter.name then some interpreter
  else if name = native.name then some native
  else none

@[simp]
theorem ofName?_name (backend : Backend) : ofName? backend.name = some backend := by
  cases backend <;> decide

end Backend

/-! ## Errors -/

/-- The ways in which settings make no sense. -/
inductive SettingsError where
  | unknownBackend (name : String)
  | stepLimitNotNumber (text : String)
  | emptyBoard (width height : UInt32)
  | headOutside (x y width height : UInt32)
  | board (error : BoardError)
deriving DecidableEq, Repr

/-- The ways in which a text is no head position. -/
inductive PositionError where
  | noComma (text : String)
  | notCoordinate (text : String)
deriving DecidableEq, Repr

/-- The environment variable that names the backend. -/
def backendVariable : String :=
  "GBS_BACKEND"

/-- The environment variable that limits the steps. -/
def maxStepsVariable : String :=
  "GBS_MAX_STEPS"

/-- The report of settings that make no sense. -/
def SettingsError.message : SettingsError → String
  | unknownBackend name => s!"unknown backend '{name}' (expected interpreter or native)"
  | stepLimitNotNumber text => s!"{maxStepsVariable} must be a number, got '{text}'"
  | emptyBoard width height => s!"board must be at least 1x1, got {width}x{height}"
  | headOutside x y width height => s!"head ({x},{y}) is outside a {width}x{height} board"
  | board error => error.message

/-- The report of a text that is no head position. -/
def PositionError.message : PositionError → String
  | noComma text => s!"expected X,Y, got '{text}'"
  | notCoordinate text => s!"'{text}' is not a coordinate"

/-! ## Reading settings -/

/-- The coordinate that a text writes, with blanks around it allowed. -/
def readCoordinate (text : List Char) : Except PositionError UInt32 :=
  match Numeral.uint32? (Text.trim text) with
  | some n => .ok n
  | none => .error (.notCoordinate (String.ofList (Text.trim text)))

/-- The head position that a text writes as two coordinates.  The first comma separates
them. -/
def readPosition (text : String) : Except PositionError (UInt32 × UInt32) :=
  match text.toList.span (· ≠ ',') with
  | (x, _ :: y) => do return (← readCoordinate x, ← readCoordinate y)
  | (_, []) => .error (.noComma text)

/-- The backend that a text names, without regard to case and to blanks around it. -/
def readBackend (text : String) : Except SettingsError Backend :=
  let name := String.ofList ((Text.trim text.toList).map Char.toLower)
  match Backend.ofName? name with
  | some backend => .ok backend
  | none => .error (.unknownBackend name)

/-- The limit of steps that a text writes, with blanks around it allowed. -/
def readStepLimit (text : String) : Except SettingsError Nat :=
  match Numeral.uint64? (Text.trim text.toList) with
  | some n => .ok n
  | none => .error (.stepLimitNotNumber text)

/-! ## Sources of settings -/

/-- The settings given on the command line. -/
structure Flags where
  backend : Option Backend
  maxSteps : Option Nat
  width : Option UInt32
  height : Option UInt32
  head : Option (UInt32 × UInt32)
deriving DecidableEq, Repr

/-- Nothing is given on the command line. -/
def Flags.empty : Flags :=
  ⟨none, none, none, none, none⟩

/-- The texts of the environment variables that are set. -/
structure Environment where
  backend : Option String
  maxSteps : Option String
deriving DecidableEq, Repr

namespace Environment

/-- The text of a variable, unless it is blank. -/
def given (text : Option String) : Option String :=
  text.filter fun text => !Text.allBlank text.toList

end Environment

/-- What a run depends on besides the program.  Without a limit a run may take any number of
steps. -/
structure Settings where
  backend : Backend
  maxSteps : Option Nat
  width : UInt32
  height : UInt32
  headX : UInt32
  headY : UInt32
deriving DecidableEq, Repr

namespace Settings

/-- The settings of a run for which nothing is given. -/
def default : Settings :=
  { backend := .interpreter, maxSteps := none, width := 9, height := 9, headX := 0, headY := 0 }

/-- The head has to stand on a board that is not empty. -/
def check (settings : Settings) : Except SettingsError Settings :=
  if settings.width = 0 ∨ settings.height = 0 then
    .error (.emptyBoard settings.width settings.height)
  else if settings.headX < settings.width ∧ settings.headY < settings.height then .ok settings
  else .error (.headOutside settings.headX settings.headY settings.width settings.height)

/-- The backend from the first source that gives one. -/
def resolveBackend (flags : Flags) (env : Environment) : Except SettingsError Backend :=
  match flags.backend, Environment.given env.backend with
  | some backend, _ => .ok backend
  | none, some text => readBackend text
  | none, none => .ok default.backend

/-- The limit of steps from the first source that gives one. -/
def resolveMaxSteps (flags : Flags) (env : Environment) : Except SettingsError (Option Nat) :=
  match flags.maxSteps, Environment.given env.maxSteps with
  | some limit, _ => .ok (some limit)
  | none, some text => (readStepLimit text).map some
  | none, none => .ok default.maxSteps

/-- The settings of a run. -/
def resolve (flags : Flags) (env : Environment) : Except SettingsError Settings := do
  let backend ← resolveBackend flags env
  let maxSteps ← resolveMaxSteps flags env
  let (headX, headY) := flags.head.getD (default.headX, default.headY)
  let width := flags.width.getD default.width
  let height := flags.height.getD default.height
  check { backend, maxSteps, width, height, headX, headY }

end Settings
end Command
end Gobstones
