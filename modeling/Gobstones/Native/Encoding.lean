import Gobstones.Bytes
import Gobstones.Native.Instr
/-!
# The encoding of machine instructions

This module encodes machine instructions as bytes.  An instruction consists of an
extension byte, which carries the operand size and the high bits of the register
numbers, its opcode, an operand byte, an index byte where the base register needs
one, a displacement, and an immediate operand.

Main definitions:

- {lit}`memoryOperand`: the bytes of a memory operand.
- {lit}`Instr.encode`: the bytes of an instruction, given the distance of its
  branch.
- {lit}`Instr.size`: their number.
-/

namespace Gobstones
namespace Native

/-! ## Immediate operands -/

/-- Whether a 32-bit number fits in eight bits with its sign. -/
def fitsByte (n : Int32) : Bool :=
  -128 ≤ n && n ≤ 127

/-- The low byte of a 32-bit number. -/
def lowByte (n : Int32) : UInt8 :=
  n.toUInt32.toUInt8

/-- The bytes of a 32-bit number. -/
def int32Bytes (n : Int32) : List UInt8 :=
  wordBytes n.toUInt32

/-- The bytes of a 64-bit number. -/
def int64Bytes (n : Int64) : List UInt8 :=
  quadBytes n.toUInt64

/-! ## Operand bytes -/

/-- The extension byte: the operand size and the high bits of the register operand and of
the register or base operand. -/
def extension (wide reg base : Bool) : UInt8 :=
  0x40 ||| (if wide then 8 else 0) ||| (if reg then 4 else 0) ||| (if base then 1 else 0)

/-- The extension byte where it says something. -/
def extensionIfNeeded (wide reg base : Bool) : List UInt8 :=
  if wide || reg || base then [extension wide reg base] else []

/-- The operand byte: the mode, the register operand and the register or base operand. -/
def operandByte (mode reg base : UInt8) : UInt8 :=
  (mode <<< 6) ||| ((reg &&& 7) <<< 3) ||| (base &&& 7)

/-- The index byte of a base without an index. -/
def indexByte (base : UInt8) : UInt8 :=
  0x20 ||| (base &&& 7)

/-- The operand byte of a register, with a register or a digit beside it. -/
def registerOperand (reg : UInt8) (r : Register) : UInt8 :=
  operandByte 3 reg r.low

/-- The mode of a memory operand and the bytes of its displacement: none, one or four.  A
base whose low bits are those of {lit}`rbp` always has a displacement. -/
def displacement (mem : Memory) : UInt8 × List UInt8 :=
  if mem.disp = 0 ∧ mem.base.low ≠ 5 then (0, [])
  else if fitsByte mem.disp then (1, [lowByte mem.disp])
  else (2, int32Bytes mem.disp)

/-- The bytes of a memory operand, with a register or a digit beside it.  A base whose low
bits are those of {lit}`rsp` needs an index byte. -/
def memoryOperand (reg : UInt8) (mem : Memory) : List UInt8 :=
  let (mode, disp) := displacement mem
  if mem.base.low = 4 then operandByte mode reg 4 :: indexByte mem.base.low :: disp
  else operandByte mode reg mem.base.low :: disp

/-! ## Instruction forms -/

/-- An instruction with two registers. -/
def formRegReg (wide : Bool) (opcode : List UInt8) (reg base : Register) : List UInt8 :=
  extensionIfNeeded wide reg.isHigh base.isHigh ++ opcode ++ [registerOperand reg.low base]

/-- An instruction with a register and a memory operand. -/
def formRegMem (wide : Bool) (opcode : List UInt8) (reg : Register) (mem : Memory) : List UInt8 :=
  extensionIfNeeded wide reg.isHigh mem.base.isHigh ++ opcode ++ memoryOperand reg.low mem

/-- An instruction with a digit and a register. -/
def formDigitReg (wide : Bool) (opcode digit : UInt8) (base : Register) : List UInt8 :=
  extensionIfNeeded wide false base.isHigh ++ [opcode, registerOperand digit base]

/-- An instruction with a digit and a memory operand. -/
def formDigitMem (wide : Bool) (opcode digit : UInt8) (mem : Memory) : List UInt8 :=
  extensionIfNeeded wide false mem.base.isHigh ++ opcode :: memoryOperand digit mem

namespace Instr

/-- The bytes of an instruction.  {lit}`distance` is the distance of its branch, counted
from the end of the instruction. -/
def encode (distance : Int32) : Instr → List UInt8
  | mov dst src => formRegReg true [0x89] src dst
  | movImm dst imm => extension true false dst.isHigh :: (0xB8 + dst.low) :: int64Bytes imm
  | load dst mem => formRegMem true [0x8B] dst mem
  | store mem src => formRegMem true [0x89] src mem
  | load32 dst mem => formRegMem false [0x8B] dst mem
  | store32 mem src => formRegMem false [0x89] src mem
  | lea dst mem => formRegMem true [0x8D] dst mem
  | alu op dst src => formRegReg true [op.opcode] src dst
  | aluImm op dst imm =>
    if fitsByte imm then formDigitReg true 0x83 op.number dst ++ [lowByte imm]
    else formDigitReg true 0x81 op.number dst ++ int32Bytes imm
  | test a b => formRegReg true [0x85] b a
  | imul dst src => formRegReg true [0x0F, 0xAF] dst src
  | neg r => formDigitReg true 0xF7 3 r
  | idiv divisor => formDigitReg true 0xF7 7 divisor
  | cqo => [0x48, 0x99]
  | shl r amount => formDigitReg true 0xC1 4 r ++ [amount]
  | shr r amount => formDigitReg true 0xC1 5 r ++ [amount]
  | push src => extensionIfNeeded false false src.isHigh ++ [0x50 + src.low]
  | pop dst => extensionIfNeeded false false dst.isHigh ++ [0x58 + dst.low]
  | pushImm imm => if fitsByte imm then [0x6A, lowByte imm] else 0x68 :: int32Bytes imm
  | pushMem mem => formDigitMem false 0xFF 6 mem
  | popMem mem => formDigitMem false 0x8F 0 mem
  | setcc cond dst =>
    (if 4 ≤ dst.number then [extension false false dst.isHigh] else []) ++
      [0x0F, 0x90 + cond.number, registerOperand 0 dst]
  | movzx dst src => formRegReg true [0x0F, 0xB6] dst src
  | jmp _ => 0xE9 :: int32Bytes distance
  | jcc cond _ => 0x0F :: (0x80 + cond.number) :: int32Bytes distance
  | call _ => 0xE8 :: int32Bytes distance
  | ret => [0xC3]
  | bind _ => []

/-- The number of bytes of an instruction. -/
def size (instr : Instr) : Nat :=
  (instr.encode 0).length

@[simp]
theorem length_int32Bytes (n : Int32) : (int32Bytes n).length = 4 :=
  rfl

/-- The distance of a branch does not change the number of bytes. -/
theorem length_encode (distance : Int32) (instr : Instr) :
    (instr.encode distance).length = instr.size := by
  cases instr <;> simp [size, encode]

end Instr
end Native
end Gobstones
