import Gobstones.Native.Register
/-!
# Machine instructions

This module defines the machine instructions that native code consists of.  Branches
name their destinations by labels, and a pseudo-instruction marks the place of a
label.

Main definitions:

- {lit}`Label`: the number of a place in the code.
- {lit}`Instr`: the instructions.
-/

namespace Gobstones
namespace Native

/-- The number of a place in the code. -/
abbrev Label := Nat

/-- The machine instructions, destinations in front of sources, and the places of
labels. -/
inductive Instr where
  | mov (dst src : Register)
  | movImm (dst : Register) (imm : Int64)
  | load (dst : Register) (mem : Memory)
  | store (mem : Memory) (src : Register)
  | load32 (dst : Register) (mem : Memory)
  | store32 (mem : Memory) (src : Register)
  | lea (dst : Register) (mem : Memory)
  | alu (op : AluOp) (dst src : Register)
  | aluImm (op : AluOp) (dst : Register) (imm : Int32)
  | test (a b : Register)
  | imul (dst src : Register)
  | neg (r : Register)
  | idiv (divisor : Register)
  | cqo
  | shl (r : Register) (amount : UInt8)
  | shr (r : Register) (amount : UInt8)
  | push (src : Register)
  | pop (dst : Register)
  | pushImm (imm : Int32)
  | pushMem (mem : Memory)
  | popMem (mem : Memory)
  | setcc (cond : Condition) (dst : Register)
  | movzx (dst src : Register)
  | jmp (target : Label)
  | jcc (cond : Condition) (target : Label)
  | call (target : Label)
  | ret
  | bind (label : Label)
deriving DecidableEq, Repr, Inhabited

namespace Instr

/-- The destination of a branch. -/
def target? : Instr → Option Label
  | jmp target => some target
  | jcc _ target => some target
  | call target => some target
  | _ => none

end Instr
end Native
end Gobstones
