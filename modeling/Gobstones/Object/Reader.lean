import Gobstones.Object.Spelling
import Gobstones.Object.Token
import Gobstones.Program.Basic
import Gobstones.Value.Literal
/-!
# Reading object text

This module reads object text into a program.  An object is a header line, a list
of routines and a terminator line; blank lines and comments may stand anywhere, and
what follows the terminator is not looked at.  The reader goes through the lines
once and stops at the first problem.

Main definitions:

- {lit}`ObjectError`: a problem and the line where it was found.
- {lit}`readInstruction`: the instruction of one line.
- {lit}`Reader` and {lit}`Reader.step`: the progress of reading, line by line.
- {lit}`readObject`: the program of a text.
-/

namespace Gobstones

/-! ## Problems -/

/-- The ways in which object text is not an object. -/
inductive ObjectProblem where
  | missingHeader (found : String)
  | unknownOpcode (token : String)
  | unknownRoutineKind (token : String)
  | missingArgument (opcode : String) (expected : Nat)
  | invalidNumber (token : String)
  | unknownConstant (token : String)
  | unexpectedToken (token : String)
  | unterminatedString
  | unexpectedEnd (expected : String)
  | duplicateRoutine (name : String)
  | load (error : LoadError)
deriving DecidableEq, Repr

namespace ObjectProblem

/-- The report of a problem. -/
def message : ObjectProblem → String
  | missingHeader found => s!"expected header line \"GBO/1.0\", found '{found}'"
  | unknownOpcode token => s!"unknown opcode '{token}'"
  | unknownRoutineKind token => s!"unknown routine kind '{token}'"
  | missingArgument opcode expected => s!"{opcode} expects {expected} argument(s)"
  | invalidNumber token => s!"invalid number '{token}'"
  | unknownConstant token => s!"unknown constant {token}"
  | unexpectedToken token => s!"unexpected token '{token}'"
  | unterminatedString => "unterminated string literal"
  | unexpectedEnd expected => s!"unexpected end of object, expected {expected}"
  | duplicateRoutine name => s!"routine {name} is defined twice"
  | load error => error.message

end ObjectProblem

/-- A problem and the number of the line where it was found. -/
structure ObjectError where
  line : Nat
  problem : ObjectProblem
deriving DecidableEq, Repr

namespace ObjectError

/-- The report of a problem with its line. -/
def message (error : ObjectError) : String :=
  s!"line {error.line}: {error.problem.message}"

end ObjectError

/-! ## Operands -/

/-- Take a token that has to be a bare word. -/
def expectWord : Token → Except ObjectProblem String
  | .word text => .ok text
  | token@(.quoted _) => .error (.unexpectedToken (String.ofList token.chars))

/-- Take the next operand of {lit}`opcode`, a bare word, and leave the rest. -/
def nextWord (opcode : String) (expected : Nat) : List Token → Except ObjectProblem (String × List Token)
  | [] => .error (.missingArgument opcode expected)
  | token :: rest => (expectWord token).map (·, rest)

/-- Take operands that all have to be bare words. -/
def allWords (tokens : List Token) : Except ObjectProblem (List String) :=
  tokens.mapM expectWord

/-- Check that no operand is left. -/
def noMore : List Token → Except ObjectProblem Unit
  | [] => .ok ()
  | token :: _ => .error (.unexpectedToken (String.ofList token.chars))

/-- The value of a count. -/
def countOf (text : String) : Except ObjectProblem Nat :=
  match Numeral.uint64? text.toList with
  | some n => .ok n
  | none => .error (.invalidNumber text)

/-- The value of a literal. -/
def constantOf (text : String) : Except ObjectProblem Value :=
  match Value.ofText? text with
  | some value => .ok value
  | none => .error (.unknownConstant text)

/-- The name of a routine without the mark that a writer may put in front of it. -/
def unmarked (name : String) : String :=
  match name.toList with
  | '$' :: rest => String.ofList rest
  | _ => name

/-! ## Instructions -/

/-- The operand of an instruction that takes one word. -/
def singleWord (opcode : Opcode) (operands : List Token) : Except ObjectProblem String := do
  let (text, rest) ← nextWord opcode.mnemonic 1 operands
  noMore rest
  return text

/-- The instruction of an opcode and its operands. -/
def readOperands (opcode : Opcode) (operands : List Token) : Except ObjectProblem Instruction :=
  match opcode with
  | .pushConst => do return .pushConst (← constantOf (← singleWord opcode operands))
  | .pushFrom => do return .pushFrom (← singleWord opcode operands)
  | .popTo => do return .popTo (← singleWord opcode operands)
  | .delVar => do return .delVar (← singleWord opcode operands)
  | .setImmutable => do return .setImmutable (← singleWord opcode operands)
  | .unsetImmutable => do return .unsetImmutable (← singleWord opcode operands)
  | .call => do
    let (name, rest) ← nextWord opcode.mnemonic 2 operands
    let (count, rest) ← nextWord opcode.mnemonic 2 rest
    let argc ← countOf count
    noMore rest
    return .call (unmarked name) argc
  | .raise =>
    match operands with
    | [] => .error (.missingArgument opcode.mnemonic 1)
    | message :: rest => do
      noMore rest
      return .raise message.text
  | .label => do return .label (← singleWord opcode operands)
  | .jump => do return .jump (← singleWord opcode operands)
  | .jumpIfFalse => do return .jumpIfFalse (← singleWord opcode operands)
  | .jumpIfNotIn => do
    let (label, rest) ← nextWord opcode.mnemonic 1 operands
    let values ← rest.mapM fun token => do constantOf (← expectWord token)
    return .jumpIfNotIn values label
  | .ret => do
    let (count, rest) ← nextWord opcode.mnemonic 1 operands
    let n ← countOf count
    noMore rest
    return .ret n
  | .returnVars => do
    let (count, rest) ← nextWord opcode.mnemonic 1 operands
    let n ← countOf count
    return .returnVars n (← allWords rest)
  | .enter => do
    noMore operands
    return .enter
  | .leave => do
    noMore operands
    return .leave

/-- The instruction of a line that starts with a token.  The opcode may even be
quoted. -/
def readInstruction (first : Token) (operands : List Token) : Except ObjectProblem Instruction :=
  match Opcode.ofWord? first.text with
  | none => .error (.unknownOpcode first.text)
  | some opcode => readOperands opcode operands

/-! ## Lines -/

/-- The header of a routine and the line where it stands. -/
structure Header where
  line : Nat
  kind : RoutineKind
  name : String
  params : List String
deriving DecidableEq, Repr

/-- Read the header of a routine. -/
def readHeader (line : Nat) (first : Token) (operands : List Token) :
    Except ObjectProblem Header := do
  let keyword ← expectWord first
  match RoutineKind.ofWord? keyword with
  | none => .error (.unknownRoutineKind keyword)
  | some kind =>
    let (name, rest) ← nextWord "routine header" 2 operands
    let params ← allWords rest
    return { line, kind, name := unmarked name, params }

/-- How far reading has come: before the header line, between routines, inside a routine,
or past the terminator.  Routines and instructions are listed latest first. -/
inductive Reader where
  | start
  | between (routines : List Routine)
  | within (routines : List Routine) (header : Header) (code : List Instruction)
  | done (routines : List Routine)

namespace Reader

/-- Report problems of a line. -/
def located {α : Type} (line : Nat) : Except ObjectProblem α → Except ObjectError α
  | .ok a => .ok a
  | .error problem => .error ⟨line, problem⟩

/-- Add a complete routine.  Problems with its labels or its name are reported at its
header. -/
def complete (routines : List Routine) (header : Header) (code : List Instruction) :
    Except ObjectError Reader :=
  match Routine.new header.kind header.name header.params code.reverse with
  | .error e => .error ⟨header.line, .load e⟩
  | .ok routine =>
    if routine.name ∈ routines.map Routine.name then
      .error ⟨header.line, .duplicateRoutine routine.name⟩
    else .ok (between (routine :: routines))

/-- Go on with the tokens of a line, of which there is at least one. -/
def stepTokens (reader : Reader) (line : Nat) (first : Token) (operands : List Token) :
    Except ObjectError Reader :=
  match reader with
  | start =>
    if first = .word ObjectText.header ∧ operands = [] then .ok (between [])
    else
      .error ⟨line, .missingHeader (" ".intercalate ((first :: operands).map Token.text))⟩
  | between routines =>
    if first.text = ObjectText.terminator then do
      located line (noMore operands)
      return done routines
    else do
      let header ← located line (readHeader line first operands)
      return within routines header []
  | within routines header code =>
    if Style.isClosing first.text then do
      located line (noMore operands)
      complete routines header code
    else do
      let instruction ← located line (readInstruction first operands)
      return within routines header (instruction :: code)
  | done routines => .ok (done routines)

/-- Go on with a line.  Nothing is read past the terminator. -/
def step (reader : Reader) (line : Nat) (cs : List Char) : Except ObjectError Reader :=
  match reader with
  | done routines => .ok (done routines)
  | _ =>
    match Token.ofLine? cs with
    | none => .error ⟨line, .unterminatedString⟩
    | some [] => .ok reader
    | some (first :: operands) => reader.stepTokens line first operands

/-- Go on with the lines from number {lit}`line` on. -/
def run (reader : Reader) (line : Nat) : List (List Char) → Except ObjectError Reader
  | [] => .ok reader
  | cs :: rest => do (← reader.step line cs).run (line + 1) rest

/-- The routines that were read, unless the text of {lit}`lines` lines ended early. -/
def finish (reader : Reader) (lines : Nat) : Except ObjectError (List Routine) :=
  match reader with
  | start => .error ⟨lines, .unexpectedEnd "header line \"GBO/1.0\""⟩
  | between _ => .error ⟨lines, .unexpectedEnd ObjectText.terminator⟩
  | within .. => .error ⟨lines, .unexpectedEnd Style.verbose.closing⟩
  | done routines => .ok routines.reverse

end Reader

/-- Read object text into a program with the standard builtins. -/
def readObject (text : String) : Except ObjectError Program := do
  let lines := splitLines text.toList
  let routines ← (← Reader.start.run 1 lines).finish lines.length
  Reader.located lines.length ((Program.new routines).mapError .load)

end Gobstones
