import Gobstones.Native.Instr
/-!
# The processor

This module says what machine instructions do.  A word is an integer or the address
of a place in one of three separate regions of memory: the stack, which has no lower
end, the board, and the result buffer.  An instruction that has no defined effect on
its operands stops the processor, and so does a division that would trap.

Main definitions:

- {lit}`Word` and {lit}`Registers`: what registers hold.
- {lit}`Flags`: what comparisons leave, as far as conditions ask for it.
- {lit}`Processor`: the registers, the flags and the memory.
- {lit}`Processor.step`: the effect of one instruction.
- {lit}`Processor.run`: the effect of a list of instructions.
-/

namespace Gobstones
namespace Native

/-! ## Words -/

/-- What a register or a stack word holds: an integer, the address of a byte of the stack,
counted from its upper end, of the board or of the result buffer, or the position of an
instruction to return to. -/
inductive Word where
  | int (n : Int64)
  | stack (offset : Int)
  | board (offset : Int)
  | results (offset : Int)
  | code (position : Nat)
deriving DecidableEq, Repr, Inhabited

namespace Word

/-- An address moved by a number of bytes, or the sum of integers. -/
def add : Word → Word → Option Word
  | int a, int b => some (int (a + b))
  | stack a, int b => some (stack (a + b.toInt))
  | board a, int b => some (board (a + b.toInt))
  | results a, int b => some (results (a + b.toInt))
  | int a, board b => some (board (a.toInt + b))
  | _, _ => none

/-- An address moved back by a number of bytes, or the difference of integers. -/
def sub : Word → Word → Option Word
  | int a, int b => some (int (a - b))
  | stack a, int b => some (stack (a - b.toInt))
  | board a, int b => some (board (a - b.toInt))
  | results a, int b => some (results (a - b.toInt))
  | _, _ => none

/-- A word without its lowest byte.  Nothing is known of an address but its region, and it
counts as zero here. -/
def highPart : Word → Int64
  | int n => n &&& (-256)
  | _ => 0

end Word

/-! ## Registers -/

/-- The words in the sixteen registers. -/
structure Registers where
  rax : Word
  rcx : Word
  rdx : Word
  rbx : Word
  rsp : Word
  rbp : Word
  rsi : Word
  rdi : Word
  r8 : Word
  r9 : Word
  r10 : Word
  r11 : Word
  r12 : Word
  r13 : Word
  r14 : Word
  r15 : Word
deriving DecidableEq, Repr

namespace Registers

/-- Every register holds one word. -/
def replicate (w : Word) : Registers :=
  ⟨w, w, w, w, w, w, w, w, w, w, w, w, w, w, w, w⟩

/-- The word in a register. -/
def get (regs : Registers) : Register → Word
  | .rax => regs.rax
  | .rcx => regs.rcx
  | .rdx => regs.rdx
  | .rbx => regs.rbx
  | .rsp => regs.rsp
  | .rbp => regs.rbp
  | .rsi => regs.rsi
  | .rdi => regs.rdi
  | .r8 => regs.r8
  | .r9 => regs.r9
  | .r10 => regs.r10
  | .r11 => regs.r11
  | .r12 => regs.r12
  | .r13 => regs.r13
  | .r14 => regs.r14
  | .r15 => regs.r15

/-- Put a word into a register. -/
def set (regs : Registers) (r : Register) (w : Word) : Registers :=
  match r with
  | .rax => { regs with rax := w }
  | .rcx => { regs with rcx := w }
  | .rdx => { regs with rdx := w }
  | .rbx => { regs with rbx := w }
  | .rsp => { regs with rsp := w }
  | .rbp => { regs with rbp := w }
  | .rsi => { regs with rsi := w }
  | .rdi => { regs with rdi := w }
  | .r8 => { regs with r8 := w }
  | .r9 => { regs with r9 := w }
  | .r10 => { regs with r10 := w }
  | .r11 => { regs with r11 := w }
  | .r12 => { regs with r12 := w }
  | .r13 => { regs with r13 := w }
  | .r14 => { regs with r14 := w }
  | .r15 => { regs with r15 := w }

@[simp]
theorem get_set_self (regs : Registers) (r : Register) (w : Word) : (regs.set r w).get r = w := by
  cases r <;> rfl

theorem get_set_of_ne (regs : Registers) {r other : Register} (w : Word) (h : other ≠ r) :
    (regs.set r w).get other = regs.get other := by
  cases r <;> cases other <;> first | rfl | exact absurd rfl h

end Registers

/-! ## Flags -/

/-- The outcome of the last comparison, as conditions ask for it: equal to zero, below
without signs, and less with signs. -/
structure Flags where
  zero : Bool
  below : Bool
  less : Bool
deriving DecidableEq, Repr

namespace Flags

/-- The flags of a difference of integers. -/
def ofDifference (a b : Int64) : Flags :=
  ⟨a = b, a.toUInt64 < b.toUInt64, a < b⟩

/-- The flags of a sum of integers. -/
def ofSum (a b : Int64) : Flags :=
  ⟨a + b = 0, UInt64.size ≤ a.toUInt64.toNat + b.toUInt64.toNat, a.toInt + b.toInt < 0⟩

/-- The flags of the result of a bitwise operation. -/
def ofBits (n : Int64) : Flags :=
  ⟨n = 0, false, n < 0⟩

/-- The flags of a difference of offsets in one region. -/
def ofOffsets (a b : Int) : Flags :=
  ⟨a = b, a < b, a < b⟩

/-- Whether a condition holds. -/
def holds (flags : Flags) : Condition → Bool
  | .b => flags.below
  | .ae => !flags.below
  | .e => flags.zero
  | .ne => !flags.zero
  | .l => flags.less
  | .ge => !flags.less
  | .le => flags.zero || flags.less
  | .g => !(flags.zero || flags.less)

end Flags

/-! ## Processors -/

/-- The state of the processor.  The stack lists its words from the upper end down; past its
end lie words that nobody has written, which are whatever they are.  The board lists 32-bit
words.  Instructions that leave no defined flags leave none. -/
structure Processor where
  regs : Registers
  flags : Option Flags
  stack : Array Word
  stale : Nat → Word
  board : Array UInt32
  results : Array Int64
  position : Nat

namespace Processor

/-! ## Memory -/

/-- The index of the stack word at an offset, which is negative and a multiple of eight. -/
def stackIndex? (offset : Int) : Option Nat :=
  if offset < 0 ∧ offset % 8 = 0 then some (-offset / 8 - 1).toNat else none

/-- The index of an aligned unit of some bytes at an offset that is not negative. -/
def unitIndex? (size : Nat) (offset : Int) : Option Nat :=
  if 0 ≤ offset ∧ offset % size = 0 then some (offset / size).toNat else none

/-- The word of the stack at an index. -/
def word (p : Processor) (index : Nat) : Word :=
  p.stack.getD index (p.stale index)

/-- The stack up to an index, with the words that nobody has written. -/
def extend (p : Processor) (index : Nat) : Array Word :=
  if index < p.stack.size then p.stack
  else p.stack ++ ((List.range' p.stack.size (index + 1 - p.stack.size)).map p.stale).toArray

/-- Put a word into the stack at an index. -/
def setWord (p : Processor) (index : Nat) (w : Word) : Processor :=
  { p with stack := (p.extend index).setIfInBounds index w }

/-- The 64-bit word at an address. -/
def read64 (p : Processor) : Word → Option Word
  | .stack offset => (stackIndex? offset).map p.word
  | .board offset => do
    let i ← unitIndex? 4 offset
    let low ← p.board[i]?
    let high ← p.board[i + 1]?
    return .int (low.toUInt64 ||| (high.toUInt64 <<< 32)).toInt64
  | .results offset => do
    let i ← unitIndex? 8 offset
    return .int (← p.results[i]?)
  | _ => none

/-- Put a 64-bit word at an address. -/
def write64 (p : Processor) (address w : Word) : Option Processor :=
  match address, w with
  | .stack offset, w => (stackIndex? offset).map (p.setWord · w)
  | .board offset, .int n => do
    let i ← unitIndex? 4 offset
    if i + 1 < p.board.size then
      let low := n.toUInt64.toUInt32
      let high := (n.toUInt64 >>> 32).toUInt32
      return { p with board := (p.board.setIfInBounds i low).setIfInBounds (i + 1) high }
    else none
  | .results offset, .int n => do
    let i ← unitIndex? 8 offset
    if i < p.results.size then return { p with results := p.results.setIfInBounds i n }
    else none
  | _, _ => none

/-- The 32-bit word at an address of the board. -/
def read32 (p : Processor) : Word → Option UInt32
  | .board offset => do p.board[← unitIndex? 4 offset]?
  | _ => none

/-- Put a 32-bit word at an address of the board. -/
def write32 (p : Processor) (address : Word) (w : UInt32) : Option Processor :=
  match address with
  | .board offset => do
    let i ← unitIndex? 4 offset
    if i < p.board.size then return { p with board := p.board.setIfInBounds i w } else none
  | _ => none

/-! ## Operands -/

/-- The word in a register. -/
def reg (p : Processor) (r : Register) : Word :=
  p.regs.get r

/-- The integer in a register. -/
def int? (p : Processor) (r : Register) : Option Int64 :=
  match p.reg r with
  | .int n => some n
  | _ => none

/-- Put a word into a register. -/
def setReg (p : Processor) (r : Register) (w : Word) : Processor :=
  { p with regs := p.regs.set r w }

/-- The address of a memory operand. -/
def address? (p : Processor) (mem : Memory) : Option Word :=
  (p.reg mem.base).add (.int mem.disp.toInt64)

/-- Leave flags. -/
def withFlags (p : Processor) (flags : Option Flags) : Processor :=
  { p with flags }

/-- Go on at another instruction. -/
def goTo (p : Processor) (position : Nat) : Processor :=
  { p with position }

/-- Push a word. -/
def pushWord (p : Processor) (w : Word) : Option Processor := do
  let top ← (p.reg .rsp).sub (.int 8)
  (p.setReg .rsp top).write64 top w

/-- Pop a word. -/
def popWord (p : Processor) : Option (Word × Processor) := do
  let w ← p.read64 (p.reg .rsp)
  let top ← (p.reg .rsp).add (.int 8)
  return (w, p.setReg .rsp top)

/-! ## Arithmetic -/

/-- The flags of a comparison of words: of integers, or of addresses in one region. -/
def compareWords : Word → Word → Option Flags
  | .int a, .int b => some (.ofDifference a b)
  | .stack a, .stack b => some (.ofOffsets a b)
  | .board a, .board b => some (.ofOffsets a b)
  | .results a, .results b => some (.ofOffsets a b)
  | _, _ => none

/-- Combine integers bit by bit. -/
def bitwise (f : Int64 → Int64 → Int64) (p : Processor) (dst : Register) (a b : Word) :
    Option Processor :=
  match a, b with
  | .int a, .int b => some ((p.setReg dst (.int (f a b))).withFlags (some (.ofBits (f a b))))
  | _, _ => none

/-- The flags of a sum or difference, which only integers leave. -/
def integerFlags (f : Int64 → Int64 → Flags) : Word → Word → Option Flags
  | .int a, .int b => some (f a b)
  | _, _ => none

/-- Combine the word in a register with another one. -/
def alu (p : Processor) (op : AluOp) (dst : Register) (b : Word) : Option Processor :=
  let a := p.reg dst
  match op with
  | .add => (a.add b).map fun w => (p.setReg dst w).withFlags (integerFlags .ofSum a b)
  | .sub => (a.sub b).map fun w => (p.setReg dst w).withFlags (integerFlags .ofDifference a b)
  | .cmp => (compareWords a b).map fun flags => p.withFlags (some flags)
  | .and => p.bitwise (· &&& ·) dst a b
  | .or => p.bitwise (· ||| ·) dst a b
  | .xor => p.bitwise (· ^^^ ·) dst a b

/-- Divide the double word in {lit}`rdx` and {lit}`rax`, truncating toward zero.  A zero
divisor and a quotient out of range trap. -/
def divide (p : Processor) (divisor : Int64) : Option Processor := do
  let high ← p.int? .rdx
  let low ← p.int? .rax
  let dividend := high.toInt * UInt64.size + low.toUInt64.toNat
  if divisor = 0 then none
  else
    let quotient := dividend.tdiv divisor.toInt
    let remainder := dividend.tmod divisor.toInt
    if Int64.minValue.toInt ≤ quotient ∧ quotient ≤ Int64.maxValue.toInt then
      return ((p.setReg .rax (.int (Int64.ofInt quotient))).setReg .rdx
        (.int (Int64.ofInt remainder))).withFlags none
    else none

/-! ## Steps -/

/-- The effect of an instruction, after which the next one follows unless it branches.
{lit}`place` gives the places of labels. -/
def perform (place : Label → Option Nat) (p : Processor) : Instr → Option Processor
  | .mov dst src => some (p.setReg dst (p.reg src))
  | .movImm dst imm => some (p.setReg dst (.int imm))
  | .load dst mem => do return p.setReg dst (← p.read64 (← p.address? mem))
  | .store mem src => do p.write64 (← p.address? mem) (p.reg src)
  | .load32 dst mem => do
    return p.setReg dst (.int (← p.read32 (← p.address? mem)).toUInt64.toInt64)
  | .store32 mem src => do p.write32 (← p.address? mem) (← p.int? src).toUInt64.toUInt32
  | .lea dst mem => do return p.setReg dst (← p.address? mem)
  | .alu op dst src =>
    if op = .xor ∧ dst = src then
      some ((p.setReg dst (.int 0)).withFlags (some (.ofBits 0)))
    else p.alu op dst (p.reg src)
  | .aluImm op dst imm => p.alu op dst (.int imm.toInt64)
  | .test a b => do return p.withFlags (some (.ofBits ((← p.int? a) &&& (← p.int? b))))
  | .imul dst src => do
    return (p.setReg dst (.int ((← p.int? dst) * (← p.int? src)))).withFlags none
  | .neg r => do
    let n ← p.int? r
    return (p.setReg r (.int (-n))).withFlags (some (.ofDifference 0 n))
  | .idiv divisor => do p.divide (← p.int? divisor)
  | .cqo => do
    let n ← p.int? .rax
    return p.setReg .rdx (.int (if n < 0 then -1 else 0))
  | .shl r amount => do
    let n ← p.int? r
    return (p.setReg r (.int (n.toUInt64 <<< amount.toUInt64).toInt64)).withFlags none
  | .shr r amount => do
    let n ← p.int? r
    return (p.setReg r (.int (n.toUInt64 >>> amount.toUInt64).toInt64)).withFlags none
  | .push src => p.pushWord (p.reg src)
  | .pop dst => do
    let (w, p) ← p.popWord
    return p.setReg dst w
  | .pushImm imm => p.pushWord (.int imm.toInt64)
  | .pushMem mem => do p.pushWord (← p.read64 (← p.address? mem))
  | .popMem mem => do
    let (w, p) ← p.popWord
    p.write64 (← p.address? mem) w
  | .setcc cond dst => do
    let flags ← p.flags
    return p.setReg dst (.int ((p.reg dst).highPart ||| (if flags.holds cond then 1 else 0)))
  | .movzx dst src => do return p.setReg dst (.int ((← p.int? src) &&& 255))
  | .jmp target => do return p.goTo (← place target)
  | .jcc cond target => do
    if (← p.flags).holds cond then return p.goTo (← place target) else return p
  | .call target => do
    let destination ← place target
    return (← p.pushWord (.code p.position)).goTo destination
  | .ret => do
    match ← p.popWord with
    | (.code position, p) => return p.goTo position
    | _ => none
  | .bind _ => some p

/-- How far a processor has come: it goes on, it has left the code, or it has stopped at an
instruction without a defined effect. -/
inductive Progress where
  | running (p : Processor)
  | finished (p : Processor)
  | stopped (p : Processor)

/-- The effect of the current instruction.  Leaving the code ends the run. -/
def step (instrs : Array Instr) (place : Label → Option Nat) (p : Processor) : Progress :=
  match instrs[p.position]? with
  | none => .finished p
  | some instr =>
    match (p.goTo (p.position + 1)).perform place instr with
    | some next => .running next
    | none => .stopped p

/-- Perform instructions until the run ends or stops, at most {lit}`fuel` of them. -/
def run (fuel : Nat) (instrs : Array Instr) (place : Label → Option Nat) (p : Processor) :
    Progress :=
  match fuel with
  | 0 => .running p
  | fuel + 1 =>
    match p.step instrs place with
    | .running next => run fuel instrs place next
    | ended => ended

end Processor
end Native
end Gobstones
