import Gobstones.Fault
import Gobstones.Native.Emitter
/-!
# Builtins as inline code

This module generates the code of builtins.  A builtin takes its arguments from the
native stack and pushes its result there, so a call of it needs no call
instruction.  A failure jumps to the fault stub of its message.

While routines run, {lit}`rbx` points to the cells, {lit}`r11` and {lit}`r12` hold the
position of the head, and {lit}`r13` and {lit}`r14` hold the size of the grid.

Main definitions:

- the code of single builtins as lists of instructions, such as
  {lit}`powerCode` and {lit}`divisionCode`;
- {lit}`Emitter.builtin?`: emit the builtin of a name.
-/

namespace Gobstones
namespace Native

/-! ## Fragments -/

/-- A memory operand without displacement. -/
def deref (base : Register) : Memory :=
  ⟨base, 0⟩

/-- Put the address of the counter of the color in {lit}`rcx` into {lit}`rax`.  The color is
taken modulo four, so that the address stays inside the cell under the head. -/
def cellAddress : List Instr :=
  [.mov .rax .r13, .imul .rax .r12, .alu .add .rax .r11, .shl .rax 4, .alu .add .rax .rbx,
    .mov .rdx .rcx, .aluImm .and .rdx 3, .shl .rdx 2, .alu .add .rax .rdx]

/-- Push whether a condition holds. -/
def pushFlag (cond : Condition) : List Instr :=
  [.setcc cond .rax, .movzx .rax .rax, .push .rax]

/-- Change the value on top of the stack by instructions on {lit}`rax`. -/
def unaryCode (body : List Instr) : List Instr :=
  .pop .rax :: body ++ [.push .rax]

/-- Combine the two values on top of the stack by an instruction on {lit}`rax` and
{lit}`rcx`, of which {lit}`rcx` is the upper one. -/
def binaryCode (op : Instr) : List Instr :=
  [.pop .rcx, .pop .rax, op, .push .rax]

/-- Compare the two values on top of the stack. -/
def compareCode (cond : Condition) : List Instr :=
  [.pop .rcx, .pop .rax, .alu .cmp .rax .rcx] ++ pushFlag cond

/-- Labels for the four cases of an enumeration and for the place behind them. -/
structure SwitchLabels where
  case0 : Label
  case1 : Label
  case2 : Label
  case3 : Label
  done : Label

/-- Hand out the labels of a switch. -/
def Emitter.freshSwitch (em : Emitter) : SwitchLabels × Emitter :=
  let (case0, em) := em.fresh
  let (case1, em) := em.fresh
  let (case2, em) := em.fresh
  let (case3, em) := em.fresh
  let (done, em) := em.fresh
  (⟨case0, case1, case2, case3, done⟩, em)

/-- Run the code of the case whose number a register holds.  Every other number counts as
the last case. -/
def switchCode (r : Register) (labels : SwitchLabels) (arm0 arm1 arm2 arm3 : List Instr) :
    List Instr :=
  [.aluImm .cmp r 0, .jcc .e labels.case0, .aluImm .cmp r 1, .jcc .e labels.case1,
    .aluImm .cmp r 2, .jcc .e labels.case2, .jmp labels.case3] ++
  .bind labels.case0 :: arm0 ++ .jmp labels.done ::
  .bind labels.case1 :: arm1 ++ .jmp labels.done ::
  .bind labels.case2 :: arm2 ++ .jmp labels.done ::
  .bind labels.case3 :: arm3 ++ [.jmp labels.done, .bind labels.done]

/-! ## The board -/

/-- Add a stone of the color on top of the stack. -/
def putStoneCode : List Instr :=
  .pop .rcx :: cellAddress ++
    [.load32 .rdx (deref .rax), .aluImm .add .rdx 1, .store32 (deref .rax) .rdx]

/-- Remove a stone of the color on top of the stack. -/
def takeStoneCode (enough : Label) (labels : SwitchLabels) (fault0 fault1 fault2 fault3 : Label) :
    List Instr :=
  .pop .rcx :: cellAddress ++
    [.load32 .rdx (deref .rax), .test .rdx .rdx, .jcc .ne enough] ++
    switchCode .rcx labels [.jmp fault0] [.jmp fault1] [.jmp fault2] [.jmp fault3] ++
    [.bind enough, .aluImm .sub .rdx 1, .store32 (deref .rax) .rdx]

/-- Increase a coordinate that has to stay below a bound. -/
def stepUpCode (coord bound : Register) (fault : Label) : List Instr :=
  [.mov .rax coord, .aluImm .add .rax 1, .alu .cmp .rax bound, .jcc .ge fault, .mov coord .rax]

/-- Decrease a coordinate that must not be zero. -/
def stepDownCode (coord : Register) (fault : Label) : List Instr :=
  [.test coord coord, .jcc .e fault, .aluImm .sub coord 1]

/-- Move the head one step in the direction on top of the stack. -/
def moveCode (labels : SwitchLabels) (fault0 fault1 fault2 fault3 : Label) : List Instr :=
  .pop .rcx ::
    switchCode .rcx labels (stepUpCode .r12 .r14 fault0) (stepUpCode .r11 .r13 fault1)
      (stepDownCode .r12 fault2) (stepDownCode .r11 fault3)

/-- Move the head to the edge in the direction on top of the stack. -/
def goToBoundaryCode (labels : SwitchLabels) : List Instr :=
  .pop .rcx ::
    switchCode .rcx labels [.mov .r12 .r14, .aluImm .sub .r12 1]
      [.mov .r11 .r13, .aluImm .sub .r11 1] [.alu .xor .r12 .r12] [.alu .xor .r11 .r11]

/-- Move the head to the origin. -/
def goToOriginCode : List Instr :=
  [.alu .xor .r11 .r11, .alu .xor .r12 .r12]

/-- Compare a coordinate after one step with its bound. -/
def belowBoundCode (coord bound : Register) : List Instr :=
  [.mov .rax coord, .aluImm .add .rax 1, .alu .cmp .rax bound, .setcc .l .rax]

/-- Compare a coordinate with zero. -/
def aboveZeroCode (coord : Register) : List Instr :=
  [.test coord coord, .setcc .ne .rax]

/-- Push whether the head can move in the direction on top of the stack. -/
def canMoveCode (labels : SwitchLabels) : List Instr :=
  .pop .rcx ::
    switchCode .rcx labels (belowBoundCode .r12 .r14) (belowBoundCode .r11 .r13)
      (aboveZeroCode .r12) (aboveZeroCode .r11) ++
    [.movzx .rax .rax, .push .rax]

/-- Clear all cells, two counters at a time. -/
def clearBoardCode (top done : Label) : List Instr :=
  [.mov .rax .r13, .imul .rax .r14, .shl .rax 4, .mov .rdx .rbx, .mov .r10 .rbx,
    .alu .add .r10 .rax, .alu .xor .rcx .rcx, .bind top, .alu .cmp .rdx .r10, .jcc .ae done,
    .store (deref .rdx) .rcx, .aluImm .add .rdx 8, .jmp top, .bind done]

/-- Push the number of stones of the color on top of the stack. -/
def numStonesCode : List Instr :=
  .pop .rcx :: cellAddress ++ [.load32 .rax (deref .rax), .push .rax]

/-- Push whether there are stones of the color on top of the stack. -/
def existStonesCode : List Instr :=
  .pop .rcx :: cellAddress ++ [.load32 .rax (deref .rax), .test .rax .rax] ++ pushFlag .ne

/-! ## Arithmetic -/

/-- Raise a value to the power on top of the stack by repeated squaring. -/
def powerCode (negative top skip done : Label) : List Instr :=
  [.pop .rcx, .pop .r9, .aluImm .cmp .rcx 0, .jcc .l negative, .movImm .rax 1, .bind top,
    .test .rcx .rcx, .jcc .e done, .mov .rdx .rcx, .aluImm .and .rdx 1, .jcc .e skip,
    .imul .rax .r9, .bind skip, .imul .r9 .r9, .shr .rcx 1, .jmp top, .bind done, .push .rax]

/-- The two results of a division. -/
inductive DivisionResult where
  | quotient
  | remainder
deriving DecidableEq, Repr

namespace DivisionResult

/-- Push the result of a division by minus one, for which the division instruction could
trap. -/
def minusOneCode : DivisionResult → List Instr
  | quotient => [.neg .rax, .push .rax]
  | remainder => [.pushImm 0]

/-- Turn a result truncated toward zero into the one rounded down. -/
def correctionCode : DivisionResult → Instr
  | quotient => .aluImm .sub .rax 1
  | remainder => .alu .add .rdx .rcx

/-- The register of the result. -/
def register : DivisionResult → Register
  | quotient => .rax
  | remainder => .rdx

end DivisionResult

/-- Divide by the value on top of the stack, rounding down. -/
def divisionCode (result : DivisionResult) (byZero normal exact done : Label) : List Instr :=
  [.pop .rcx, .pop .rax, .test .rcx .rcx, .jcc .e byZero, .aluImm .cmp .rcx (-1),
    .jcc .ne normal] ++ result.minusOneCode ++
  [.jmp done, .bind normal, .cqo, .idiv .rcx, .test .rdx .rdx, .jcc .e exact, .mov .r9 .rdx,
    .alu .xor .r9 .rcx, .aluImm .cmp .r9 0, .jcc .ge exact, result.correctionCode, .bind exact,
    .push result.register, .bind done]

/-! ## Builtins by name -/

/-- The code of builtins that need no labels. -/
def plainCode? : String → Option (List Instr)
  | "PutStone" => some putStoneCode
  | "GoToOrigin" => some goToOriginCode
  | "numStones" => some numStonesCode
  | "existStones" => some existStonesCode
  | "minBool" | "minColor" | "minDir" => some [.pushImm 0]
  | "maxBool" => some [.pushImm 1]
  | "maxColor" | "maxDir" => some [.pushImm 3]
  | "next@Int" => some (unaryCode [.aluImm .add .rax 1])
  | "prev@Int" => some (unaryCode [.aluImm .sub .rax 1])
  | "next@Bool" | "prev@Bool" | "opposite@Bool" | "not" =>
    some (unaryCode [.aluImm .xor .rax 1])
  | "next@Color" | "next@Dir" => some (unaryCode [.aluImm .add .rax 1, .aluImm .and .rax 3])
  | "prev@Color" | "prev@Dir" => some (unaryCode [.aluImm .add .rax 3, .aluImm .and .rax 3])
  | "opposite@Int" | "unary-@Int" => some (unaryCode [.neg .rax])
  | "opposite@Dir" | "unary-@Dir" =>
    some (unaryCode [.aluImm .add .rax 2, .aluImm .and .rax 3])
  | "==" => some (compareCode .e)
  | "/=" => some (compareCode .ne)
  | "<" => some (compareCode .l)
  | "<=" => some (compareCode .le)
  | ">=" => some (compareCode .ge)
  | ">" => some (compareCode .g)
  | "&&" => some (binaryCode (.alu .and .rax .rcx))
  | "||" => some (binaryCode (.alu .or .rax .rcx))
  | "+" => some (binaryCode (.alu .add .rax .rcx))
  | "-" => some (binaryCode (.alu .sub .rax .rcx))
  | "*" => some (binaryCode (.imul .rax .rcx))
  | _ => none

namespace Emitter

/-- The stub of a failed take of one stone. -/
def cannotTake (em : Emitter) (color : Color) : Label × Emitter :=
  em.fault (BoardError.cannotTake color 1 0).message

/-- The stub of a failed move. -/
def cannotMove (em : Emitter) (direction : Direction) : Label × Emitter :=
  em.fault (BoardError.cannotMove direction).message

/-- Emit the removal of a stone. -/
def takeStone (em : Emitter) : Emitter :=
  let (enough, em) := em.fresh
  let (labels, em) := em.freshSwitch
  let (fault0, em) := em.cannotTake .blue
  let (fault1, em) := em.cannotTake .black
  let (fault2, em) := em.cannotTake .red
  let (fault3, em) := em.cannotTake .green
  em.emitAll (takeStoneCode enough labels fault0 fault1 fault2 fault3)

/-- Emit a move of the head. -/
def move (em : Emitter) : Emitter :=
  let (labels, em) := em.freshSwitch
  let (fault0, em) := em.cannotMove .north
  let (fault1, em) := em.cannotMove .east
  let (fault2, em) := em.cannotMove .south
  let (fault3, em) := em.cannotMove .west
  em.emitAll (moveCode labels fault0 fault1 fault2 fault3)

/-- Emit a move of the head to the edge. -/
def goToBoundary (em : Emitter) : Emitter :=
  let (labels, em) := em.freshSwitch
  em.emitAll (goToBoundaryCode labels)

/-- Emit the test whether the head can move. -/
def canMove (em : Emitter) : Emitter :=
  let (labels, em) := em.freshSwitch
  em.emitAll (canMoveCode labels)

/-- Emit the removal of all stones. -/
def clearBoard (em : Emitter) : Emitter :=
  let (top, em) := em.fresh
  let (done, em) := em.fresh
  em.emitAll (clearBoardCode top done)

/-- Emit an exponentiation. -/
def power (em : Emitter) : Emitter :=
  let (negative, em) := em.fault ArithmeticError.negativeExponent.message
  let (top, em) := em.fresh
  let (skip, em) := em.fresh
  let (done, em) := em.fresh
  em.emitAll (powerCode negative top skip done)

/-- Emit a division. -/
def division (em : Emitter) (result : DivisionResult) : Emitter :=
  let (byZero, em) := em.fault ArithmeticError.divisionByZero.message
  let (normal, em) := em.fresh
  let (exact, em) := em.fresh
  let (done, em) := em.fresh
  em.emitAll (divisionCode result byZero normal exact done)

/-- Emit the builtin of a name, if it has inline code. -/
def builtin? (em : Emitter) (name : String) : Option Emitter :=
  match name with
  | "TakeStone" => some em.takeStone
  | "Move" => some em.move
  | "GoToBoundary" => some em.goToBoundary
  | "canMove" => some em.canMove
  | "ClearBoard" => some em.clearBoard
  | "^" => some em.power
  | "div" => some (em.division .quotient)
  | "mod" => some (em.division .remainder)
  | _ => (plainCode? name).map em.emitAll

end Emitter
end Native
end Gobstones
