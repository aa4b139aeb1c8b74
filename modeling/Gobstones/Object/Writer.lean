import Gobstones.Object.Naming
import Gobstones.Object.Token
import Gobstones.Value.Literal
/-!
# Writing object text

This module writes a program, together with every module that it links to, as one
object.  Routines are written in ascending order of their written names.

Main definitions:

- {lit}`Program.collect`: a program and the modules behind it, dependencies first.
- {lit}`Naming.operands`: the operands of an instruction under chosen names.
- {lit}`writeObject`: the text of a program.
-/

namespace Gobstones

/-! ## Modules -/

/-- Add a program to a list of programs, each module once and after the modules that it
links to. -/
def Program.collect (program : Program) (found : List Program) : List Program :=
  if found.any (·.moduleName = program.moduleName) then found
  else
    let behind := program.links.attach.foldl
      (fun (found : List Program) (link : { l // l ∈ program.links }) =>
        have : sizeOf link.val.target < sizeOf program := Program.sizeOf_target_lt link.property
        if link.val.target.moduleName = program.moduleName then found
        else link.val.target.collect found) found
    behind ++ [program]
termination_by sizeOf program

/-! ## Instructions -/

namespace Naming

/-- Choose written names for a list of variables. -/
def variableNames (naming : Naming) : List String → List String × Naming
  | [] => ([], naming)
  | name :: rest =>
    let (chosen, naming) := naming.variableName name
    let (others, naming) := naming.variableNames rest
    (chosen :: others, naming)

/-- The numeral of a count as a word. -/
def countWord (n : Nat) : Token :=
  .word (String.ofList (Numeral.ofNat n))

/-- The operands of an instruction of a program under chosen names. -/
def operands (naming : Naming) (program : Program) : Instruction → List Token × Naming
  | .pushConst value => ([.word value.text], naming)
  | .pushFrom name | .popTo name | .delVar name | .setImmutable name | .unsetImmutable name =>
    let (chosen, naming) := naming.variableName name
    ([.word chosen], naming)
  | .call name argc =>
    let (chosen, naming) := naming.routineName program name
    ([.word chosen, countWord argc], naming)
  | .raise message => ([.quoted message], naming)
  | .label name | .jump name | .jumpIfFalse name =>
    let (chosen, naming) := naming.labelName name
    ([.word chosen], naming)
  | .jumpIfNotIn values name =>
    let (chosen, naming) := naming.labelName name
    (.word chosen :: values.map fun value => .word value.text, naming)
  | .ret n => ([countWord n], naming)
  | .returnVars n names => (countWord n :: names.map .word, naming)
  | .enter | .leave => ([], naming)

end Naming

/-! ## Lines -/

/-- Tokens with a blank between them. -/
def spaced (tokens : List Token) : List Char :=
  [' '].intercalate (tokens.map Token.chars)

/-- The line of an instruction. -/
def instructionLine (naming : Naming) (program : Program) (instruction : Instruction) :
    List Char × Naming :=
  let (operands, after) := naming.operands program instruction
  let opcode := Token.word (instruction.opcode.spelling naming.style)
  (naming.style.indentation ++ spaced (opcode :: operands), after)

/-- The lines of a list of instructions. -/
def codeLines (naming : Naming) (program : Program) : List Instruction → List (List Char) × Naming
  | [] => ([], naming)
  | instruction :: rest =>
    let (line, naming) := instructionLine naming program instruction
    let (lines, naming) := codeLines naming program rest
    (line :: lines, naming)

/-- The lines of a routine under its written name, and the blank line after it. -/
def routineLines (naming : Naming) (name : String) (program : Program) (routine : Routine) :
    List (List Char) × Naming :=
  let (params, naming) := (naming.keepResults routine).variableNames routine.params
  let header := Token.word (routine.kind.spelling naming.style) :: .word name :: params.map .word
  let (code, naming) := codeLines naming program routine.code.toList
  (spaced header :: code ++ [naming.style.closing.toList, []], naming)

/-! ## Objects -/

/-- A routine of a program under its written name. -/
structure Listed where
  name : String
  program : Program
  routine : Routine

/-- Choose written names for the routines of a program and list them in ascending order.
Of two routines with one name the later stays. -/
def listRoutines (naming : Naming) (listed : List Listed) (program : Program) :
    List Routine → List Listed × Naming
  | [] => (listed, naming)
  | routine :: rest =>
    let (name, naming) := naming.routineName program routine.name
    listRoutines naming (Ordered.insert Listed.name ⟨name, program, routine⟩ listed) program rest

/-- Choose written names for the routines of several programs in turn. -/
def listPrograms (naming : Naming) (listed : List Listed) : List Program → List Listed × Naming
  | [] => (listed, naming)
  | program :: rest =>
    let (listed, naming) := listRoutines naming listed program program.routines
    listPrograms naming listed rest

/-- The lines of listed routines. -/
def listedLines (naming : Naming) : List Listed → List (List Char)
  | [] => []
  | ⟨name, program, routine⟩ :: rest =>
    let (lines, naming) := routineLines naming name program routine
    lines ++ listedLines naming rest

/-- The lines of the object of a program. -/
def objectLines (program : Program) (style : Style) : List (List Char) :=
  let naming := Naming.new style program.moduleName
  let (listed, naming) := listPrograms naming [] (program.collect [])
  ObjectText.header.toList :: listedLines naming listed ++ [ObjectText.terminator.toList]

/-- Write a program, and every module that it links to, as object text. -/
def writeObject (program : Program) (style : Style) : String :=
  String.ofList ((objectLines program style).flatMap (· ++ ['\n']))

end Gobstones
