import Gobstones.Fault
import Gobstones.Program.Instruction
/-!
# Spellings of object text

This module fixes the two spellings of opcodes and keywords.  The verbose spelling
has long words and the compact one single letters; a reader takes both.

Main definitions:

- {lit}`Style`: verbose or compact.
- {lit}`Opcode.spelling` and {lit}`Opcode.ofWord?`: the words of opcodes.
- {lit}`RoutineKind.spelling` and {lit}`RoutineKind.ofWord?`: the words of kinds.
-/

namespace Gobstones

/-- The two styles of object text. -/
inductive Style where
  | verbose
  | compact
deriving DecidableEq, Repr

namespace Opcode

/-- Every opcode. -/
def all : List Opcode :=
  [pushConst, pushFrom, popTo, call, raise, label, jump, jumpIfFalse, jumpIfNotIn, ret,
    returnVars, enter, leave, delVar, setImmutable, unsetImmutable]

/-- The long word of an opcode. -/
def mnemonic : Opcode → String
  | pushConst => "pushConst"
  | pushFrom => "pushFrom"
  | popTo => "popTo"
  | call => "call"
  | raise => "THROW_ERROR"
  | label => "label"
  | jump => "jump"
  | jumpIfFalse => "jumpIfFalse"
  | jumpIfNotIn => "jumpIfNotIn"
  | ret => "return"
  | returnVars => "returnVars"
  | enter => "enter"
  | leave => "leave"
  | delVar => "delVar"
  | setImmutable => "setImmutable"
  | unsetImmutable => "unsetImmutable"

/-- The letter of an opcode. -/
def letter : Opcode → String
  | pushConst => "p"
  | pushFrom => "v"
  | popTo => "a"
  | call => "c"
  | raise => "b"
  | label => "l"
  | jump => "j"
  | jumpIfFalse => "f"
  | jumpIfNotIn => "n"
  | ret => "r"
  | returnVars => "x"
  | enter => "e"
  | leave => "z"
  | delVar => "d"
  | setImmutable => "s"
  | unsetImmutable => "u"

/-- The word of an opcode in a style. -/
def spelling (opcode : Opcode) : Style → String
  | .verbose => opcode.mnemonic
  | .compact => opcode.letter

/-- The opcode of a word in either style. -/
def ofWord? (text : String) : Option Opcode :=
  all.find? fun opcode => opcode.mnemonic = text || opcode.letter = text

@[simp]
theorem ofWord?_spelling (opcode : Opcode) (style : Style) :
    ofWord? (opcode.spelling style) = some opcode := by
  cases style <;> cases opcode <;> rfl

end Opcode

namespace RoutineKind

/-- The letter of a kind of routine. -/
def letter : RoutineKind → String
  | procedure => "P"
  | function => "F"
  | entrypoint => "E"

/-- The word of a kind of routine in a style. -/
def spelling (kind : RoutineKind) : Style → String
  | .verbose => kind.keyword
  | .compact => kind.letter

/-- The kind of routine of a word in either style. -/
def ofWord? : String → Option RoutineKind
  | "procedure" | "P" => some procedure
  | "function" | "F" => some function
  | "entrypoint" | "E" => some entrypoint
  | _ => none

@[simp]
theorem ofWord?_spelling (kind : RoutineKind) (style : Style) :
    ofWord? (kind.spelling style) = some kind := by
  cases style <;> cases kind <;> rfl

end RoutineKind

namespace Style

/-- The word that closes a routine. -/
def closing : Style → String
  | verbose => "end"
  | compact => "X"

/-- The blanks in front of an instruction. -/
def indentation : Style → List Char
  | verbose => [' ', ' ', ' ', ' ']
  | compact => []

/-- Whether a word closes a routine, in either style. -/
def isClosing (text : String) : Bool :=
  text = verbose.closing || text = compact.closing

end Style

namespace ObjectText

/-- The word of the first line. -/
def header : String :=
  "GBO/1.0"

/-- The word of the last line. -/
def terminator : String :=
  "%%"

end ObjectText
end Gobstones
