/-!
# Registers and operands

This module defines the operands of machine instructions: the sixteen general
registers, memory operands with a base register and a displacement, conditions on
the flags, and two-operand arithmetic.

Main definitions:

- {lit}`Register`, {lit}`Memory`, {lit}`Condition`, {lit}`AluOp`: the operands, each
  with its machine number.
-/

namespace Gobstones
namespace Native

/-- The 64-bit general registers, in machine order. -/
inductive Register where
  | rax
  | rcx
  | rdx
  | rbx
  | rsp
  | rbp
  | rsi
  | rdi
  | r8
  | r9
  | r10
  | r11
  | r12
  | r13
  | r14
  | r15
deriving DecidableEq, Repr

namespace Register

/-- The machine number of a register. -/
def number : Register → UInt8
  | rax => 0
  | rcx => 1
  | rdx => 2
  | rbx => 3
  | rsp => 4
  | rbp => 5
  | rsi => 6
  | rdi => 7
  | r8 => 8
  | r9 => 9
  | r10 => 10
  | r11 => 11
  | r12 => 12
  | r13 => 13
  | r14 => 14
  | r15 => 15

/-- The low three bits of the number, as placed in operand bytes. -/
def low (r : Register) : UInt8 :=
  r.number &&& 7

/-- The high bit of the number, which the first byte of an instruction carries. -/
def isHigh (r : Register) : Bool :=
  8 ≤ r.number

end Register

/-- A memory operand: the address in a register plus a displacement. -/
structure Memory where
  base : Register
  disp : Int32
deriving DecidableEq, Repr

/-- The conditions on the flags after a comparison. -/
inductive Condition where
  /-- Below, unsigned. -/
  | b
  /-- Above or equal, unsigned. -/
  | ae
  /-- Equal. -/
  | e
  /-- Not equal. -/
  | ne
  /-- Less, signed. -/
  | l
  /-- Greater or equal, signed. -/
  | ge
  /-- Less or equal, signed. -/
  | le
  /-- Greater, signed. -/
  | g
deriving DecidableEq, Repr

namespace Condition

/-- The machine number of a condition. -/
def number : Condition → UInt8
  | b => 0x2
  | ae => 0x3
  | e => 0x4
  | ne => 0x5
  | l => 0xC
  | ge => 0xD
  | le => 0xE
  | g => 0xF

end Condition

/-- The arithmetic operations with two operands. -/
inductive AluOp where
  | add
  | or
  | and
  | sub
  | xor
  | cmp
deriving DecidableEq, Repr

namespace AluOp

/-- The machine number of an operation, which its immediate forms carry. -/
def number : AluOp → UInt8
  | add => 0
  | or => 1
  | and => 4
  | sub => 5
  | xor => 6
  | cmp => 7

/-- The opcode byte of the form with two registers. -/
def opcode (op : AluOp) : UInt8 :=
  (op.number <<< 3) ||| 0x01

end AluOp

end Native
end Gobstones
