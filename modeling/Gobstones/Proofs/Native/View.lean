import Mathlib.Data.List.Basic
import Gobstones.Proofs.Native.Placement
/-!
# Views of the processor

This module looks at the stack of the processor as a list.  A view keeps the words of
the stack, latest first, and the words below its end that are left over from earlier.
The instructions of native code do to a view what they do to the processor, so code can
be followed on views.

Main definitions:

- {lit}`View`: registers, flags and memory with the stack as a list.
- {lit}`Processor.Shows`: a processor is in the state of a view.
- {lit}`View.perform`: the effect of an instruction that does not branch.

Main results:

- Theorem {lit}`Processor.Shows.perform`: the processor does what the view does.
-/

namespace Gobstones
namespace Native

/-! ## Views -/

/-- The state of the processor with its stack as a list: the words that are pushed, latest
first, and the words that are left behind them in memory.  The stack pointer is given by
the number of pushed words, whatever the registers say. -/
structure View where
  regs : Registers
  flags : Option Flags
  live : List Word
  dead : List Word
  board : Array UInt32
  results : Array Int64

namespace View

/-- The address of the latest word. -/
def top (v : View) : Word :=
  .stack (-(8 * v.live.length))

/-- The words of the stack from its upper end down. -/
def mem (v : View) : List Word :=
  v.live.reverse ++ v.dead

/-- The processor of a view, without a stack. -/
def cpu (v : View) : Processor :=
  { regs := v.regs.set .rsp v.top
    flags := v.flags
    stack := #[]
    stale := fun _ => .int 0
    board := v.board
    results := v.results
    position := 0 }

/-- The word in a register. -/
def reg (v : View) (r : Register) : Word :=
  v.cpu.reg r

/-- Put a word into a register other than the stack pointer. -/
def setReg (v : View) (r : Register) (w : Word) : View :=
  { v with regs := v.regs.set r w }

/-- Take over everything but the stack. -/
def adopt (v : View) (p : Processor) : View :=
  { v with regs := p.regs, flags := p.flags, board := p.board, results := p.results }

/-- Push a word over the first one that was left behind. -/
def push (v : View) (w : Word) : View :=
  { v with live := w :: v.live, dead := v.dead.tail }

/-- Pop the latest word and leave it behind. -/
def pop? (v : View) : Option (Word × View) :=
  match v.live with
  | [] => none
  | w :: live => some (w, { v with live, dead := w :: v.dead })

/-- The 64-bit word at an address. -/
def read? (v : View) : Word → Option Word
  | .stack offset => (Processor.stackIndex? offset).bind (v.mem[·]?)
  | address => v.cpu.read64 address

/-- Put a 64-bit word at an address. -/
def write? (v : View) (address w : Word) : Option View :=
  match address with
  | .stack offset => do
    let a ← Processor.stackIndex? offset
    if a < v.live.length then return { v with live := v.live.set (v.live.length - 1 - a) w }
    else none
  | address => (v.cpu.write64 address w).map v.adopt

end View

/-- Whether an instruction puts a word into the stack pointer by name. -/
def Instr.setsStackPointer : Instr → Bool
  | .mov dst _ | .movImm dst _ | .load dst _ | .load32 dst _ | .lea dst _ | .alu _ dst _
  | .aluImm _ dst _ | .imul dst _ | .neg dst | .shl dst _ | .shr dst _ | .pop dst
  | .setcc _ dst | .movzx dst _ => dst = .rsp
  | _ => false

/-- The effect of an instruction that does not branch.  Instructions on other words than those
of the stack do what they do to the processor. -/
def View.perform (v : View) (instr : Instr) : Option View :=
  if instr.setsStackPointer then none
  else
    match instr with
    | .push src => some (v.push (v.reg src))
    | .pushImm imm => some (v.push (.int imm.toInt64))
    | .pop dst => v.pop?.map fun popped => popped.2.setReg dst popped.1
    | .load dst mem => do return v.setReg dst (← v.read? (← v.cpu.address? mem))
    | .store mem src => do v.write? (← v.cpu.address? mem) (v.reg src)
    | .pushMem mem => do return v.push (← v.read? (← v.cpu.address? mem))
    | .popMem mem => do
      let (w, v) ← v.pop?
      v.write? (← v.cpu.address? mem) w
    | instr => (v.cpu.perform (fun _ => none) instr).map v.adopt

/-- The effect of instructions that do not branch. -/
def View.performAll (v : View) : List Instr → Option View
  | [] => some v
  | instr :: rest => (v.perform instr).bind (·.performAll rest)

theorem View.performAll_cons {v v' : View} {instr : Instr} (h : v.perform instr = some v')
    (rest : List Instr) : v.performAll (instr :: rest) = v'.performAll rest := by
  rw [performAll, h, Option.bind_some]

/-! ## Processors in the state of a view -/

namespace Processor

/-- A processor is in the state of a view. -/
structure Shows (p : Processor) (v : View) : Prop where
  regs : p.regs = v.regs.set .rsp v.top
  flags : p.flags = v.flags
  board : p.board = v.board
  results : p.results = v.results
  words : ∀ a w, v.mem[a]? = some w → p.word a = w

variable {p : Processor} {v v' : View} {place : Label → Option Nat}

/-- The processor without its stack. -/
def detach (p : Processor) : Processor :=
  { p with stack := #[], stale := fun _ => .int 0, position := 0 }

/-- The stack and the position of another processor. -/
def attach (p q : Processor) : Processor :=
  { q with stack := p.stack, stale := p.stale, position := p.position }

theorem Shows.cpu_eq (h : p.Shows v) : v.cpu = p.detach := by
  rw [View.cpu, ← h.regs, ← h.flags, ← h.board, ← h.results]
  rfl

theorem Shows.reg (h : p.Shows v) (r : Register) : p.reg r = v.reg r := by
  rw [View.reg, h.cpu_eq]
  rfl

/-- The stack index of a word is the number of words above it. -/
theorem stackIndex?_neg (n : Nat) : stackIndex? (-(8 * (n + 1 : Nat))) = some n := by
  rw [stackIndex?, if_pos (by omega)]
  congr 1
  omega

theorem size_extend (p : Processor) (index : Nat) : index < (p.extend index).size := by
  unfold extend
  split
  · assumption
  · simp only [Array.size_append, List.size_toArray, List.length_map, List.length_range']
    omega

/-- Words that nobody has written lie where they lay. -/
theorem getD_extend (p : Processor) (index a : Nat) :
    (p.extend index).getD a (p.stale a) = p.word a := by
  unfold extend word
  split
  · rfl
  · simp only [Array.getD_eq_getD_getElem?, Array.getElem?_append]
    by_cases ha : a < p.stack.size
    · rw [if_pos ha]
    · rw [if_neg ha, Array.getElem?_eq_none (Nat.le_of_not_lt ha), List.getElem?_toArray,
        List.getElem?_map]
      by_cases hin : a - p.stack.size < index + 1 - p.stack.size
      · rw [List.getElem?_range' hin, Nat.one_mul, Nat.add_sub_cancel' (Nat.le_of_not_lt ha)]
        rfl
      · rw [List.getElem?_eq_none (by rw [List.length_range']; exact Nat.le_of_not_lt hin)]
        rfl

/-- Putting a word into the stack leaves all others alone. -/
theorem word_setWord (p : Processor) (index : Nat) (w : Word) (a : Nat) :
    (p.setWord index w).word a = if a = index then w else p.word a := by
  have hsize := p.size_extend index
  rw [← getD_extend p index a]
  simp only [setWord, word, Array.getD_eq_getD_getElem?]
  by_cases ha : a = index
  · subst ha
    simp [hsize]
  · simp [Array.getElem?_setIfInBounds_ne (Ne.symm ha), ha]

/-- The words of the stack with another word in a place. -/
theorem getElem?_set_live (live dead : List Word) {a : Nat} (ha : a < live.length) (w : Word)
    (b : Nat) :
    ((live.set (live.length - 1 - a) w).reverse ++ dead)[b]? =
      if b = a then some w else (live.reverse ++ dead)[b]? := by
  by_cases hb : b < live.length
  · rw [List.getElem?_append_left (by simpa using hb),
      List.getElem?_append_left (by simpa using hb),
      List.getElem?_reverse (by simpa using hb), List.getElem?_reverse hb, List.length_set,
      List.getElem?_set]
    by_cases hab : b = a
    · rw [if_pos (by omega), if_pos (by omega), if_pos hab]
    · rw [if_neg (by omega), if_neg hab]
  · rw [List.getElem?_append_right (by simpa using hb),
      List.getElem?_append_right (by simpa using hb), if_neg (by omega)]
    simp

/-- Pushing a word. -/
theorem Shows.pushWord (h : p.Shows v) (w : Word) :
    ∃ p', p.pushWord w = some p' ∧ p'.Shows (v.push w) ∧ p'.position = p.position := by
  have hrsp : p.reg .rsp = .stack (-(8 * v.live.length)) := by
    rw [Processor.reg, h.regs, Registers.get_set_self, View.top]
  have htop : (p.reg .rsp).sub (.int 8) = some (v.push w).top := by
    rw [hrsp, Word.sub, View.top, View.push]
    have h8 : (8 : Int64).toInt = 8 := rfl
    rw [h8, List.length_cons]
    congr 2
    omega
  have hindex : stackIndex? (-(8 * ((v.push w).live.length : Nat))) = some v.live.length :=
    stackIndex?_neg _
  refine ⟨(p.setReg .rsp (v.push w).top).setWord v.live.length w, ?_, ?_, rfl⟩
  · simp only [Processor.pushWord, htop, bind, Option.bind, View.top, write64, hindex, Option.map]
  · refine ⟨?_, h.flags, h.board, h.results, fun a x hx => ?_⟩
    · change p.regs.set .rsp _ = v.regs.set .rsp _
      rw [h.regs]
      rfl
    · rw [word_setWord]
      simp only [View.mem, View.push, List.reverse_cons, List.append_assoc] at hx
      split
      · next ha =>
        subst ha
        simpa [List.getElem?_append_right] using hx
      · next ha =>
        refine h.words a x ?_
        rw [View.mem]
        by_cases hlt : a < v.live.length
        · rw [List.getElem?_append_left (by simpa using hlt)] at hx ⊢
          exact hx
        · rw [List.getElem?_append_right (by simp; omega)] at hx ⊢
          have hpos : a - v.live.reverse.length = (a - v.live.reverse.length - 1) + 1 := by
            rw [List.length_reverse]
            omega
          rw [hpos] at hx ⊢
          simpa using hx

/-- Popping a word. -/
theorem Shows.popWord (h : p.Shows v) {w : Word} (hpop : v.pop? = some (w, v')) :
    ∃ p', p.popWord = some (w, p') ∧ p'.Shows v' ∧ p'.position = p.position := by
  unfold View.pop? at hpop
  split at hpop
  · simp at hpop
  · next first live hlive =>
    obtain ⟨rfl, rfl⟩ := Prod.mk.inj (Option.some.inj hpop)
    have hrsp : p.reg .rsp = .stack (-(8 * (live.length + 1 : Nat))) := by
      rw [Processor.reg, h.regs, Registers.get_set_self, View.top, hlive]
      rfl
    have hword : p.word live.length = first := by
      refine h.words _ _ ?_
      simp [View.mem, hlive]
    have htop : (p.reg .rsp).add (.int 8) = some (.stack (-(8 * (live.length : Nat)))) := by
      rw [hrsp, Word.add]
      have h8 : (8 : Int64).toInt = 8 := rfl
      rw [h8]
      congr 2
      omega
    refine ⟨p.setReg .rsp (.stack (-(8 * (live.length : Nat)))), ?_, ?_, rfl⟩
    · have hread : p.read64 (p.reg .rsp) = some first := by
        rw [hrsp, read64, stackIndex?_neg, Option.map_some, hword]
      simp only [Processor.popWord, hread, htop, bind, Option.bind, pure]
    · refine ⟨?_, h.flags, h.board, h.results, fun a x hx => h.words a x ?_⟩
      · change p.regs.set .rsp _ = v.regs.set .rsp _
        rw [h.regs]
        rfl
      · simpa [View.mem, hlive] using hx

theorem Shows.address? (h : p.Shows v) (mem : Memory) : p.address? mem = v.cpu.address? mem := by
  rw [Processor.address?, Processor.address?, h.reg mem.base, View.reg]

/-- Reading a word. -/
theorem Shows.read64 (h : p.Shows v) {address w : Word} (hread : v.read? address = some w) :
    p.read64 address = some w := by
  cases address with
  | stack offset =>
    obtain ⟨a, ha, hw⟩ := Option.bind_eq_some_iff.1 hread
    rw [Processor.read64, ha, Option.map_some, h.words a w hw]
  | board offset =>
    have hread : v.cpu.read64 (.board offset) = some w := hread
    rw [h.cpu_eq] at hread
    exact hread
  | results offset =>
    have hread : v.cpu.read64 (.results offset) = some w := hread
    rw [h.cpu_eq] at hread
    exact hread
  | int n => simp [View.read?, Processor.read64] at hread
  | code position => simp [View.read?, Processor.read64] at hread

/-- Writing a word in memory leaves the registers alone. -/
theorem write64_keeps {p q : Processor} {address w : Word} (h : p.write64 address w = some q) :
    q.regs = p.regs ∧ q.flags = p.flags ∧ q.position = p.position := by
  unfold Processor.write64 at h
  split at h
  · obtain ⟨i, -, rfl⟩ := Option.map_eq_some_iff.1 h
    exact ⟨rfl, rfl, rfl⟩
  · obtain ⟨i, -, h⟩ := Option.bind_eq_some_iff.1 h
    split at h
    · obtain rfl := Option.some.inj h
      exact ⟨rfl, rfl, rfl⟩
    · simp at h
  · obtain ⟨i, -, h⟩ := Option.bind_eq_some_iff.1 h
    split at h
    · obtain rfl := Option.some.inj h
      exact ⟨rfl, rfl, rfl⟩
    · simp at h
  · simp at h

/-- Writing outside the stack does not depend on it. -/
theorem write64_detached {p q : Processor} {address w : Word} (haddress : ∀ o, address ≠ .stack o)
    (h : p.detach.write64 address w = some q) : p.write64 address w = some (p.attach q) := by
  cases address with
  | stack offset => exact (haddress offset rfl).elim
  | int n => simp [Processor.write64] at h
  | code position => simp [Processor.write64] at h
  | board offset | results offset =>
    cases w with
    | int n =>
      obtain ⟨i, hi, h⟩ := Option.bind_eq_some_iff.1 h
      simp only [Processor.write64, hi, bind, Option.bind]
      split at h
      · next hlt =>
        obtain rfl := Option.some.inj h
        exact if_pos hlt
      · simp at h
    | _ => simp [Processor.write64] at h

/-- A processor that agrees with one that shows a view, but for what the view takes over from
a processor without a stack. -/
theorem Shows.adopt (h : p.Shows v) {q : Processor} (hrsp : q.regs.rsp = v.top) :
    (p.attach q).Shows (v.adopt q) := by
  refine ⟨?_, rfl, rfl, rfl, h.words⟩
  change q.regs = q.regs.set .rsp v.top
  rw [← hrsp]
  rfl

/-- Writing a word. -/
theorem Shows.write64 (h : p.Shows v) {address w : Word} (hwrite : v.write? address w = some v') :
    ∃ p', p.write64 address w = some p' ∧ p'.Shows v' ∧ p'.position = p.position := by
  have hother (haddress : ∀ o, address ≠ .stack o)
      (hwrite : (v.cpu.write64 address w).map v.adopt = some v') :
      ∃ p', p.write64 address w = some p' ∧ p'.Shows v' ∧ p'.position = p.position := by
    obtain ⟨q, hq, rfl⟩ := Option.map_eq_some_iff.1 hwrite
    have hregs := (write64_keeps hq).1
    rw [h.cpu_eq] at hq
    refine ⟨_, write64_detached haddress hq, h.adopt ?_, rfl⟩
    rw [hregs]
    rfl
  cases address with
  | stack offset =>
    obtain ⟨a, ha, hwrite⟩ := Option.bind_eq_some_iff.1 hwrite
    split at hwrite
    · next hlt =>
      obtain rfl := Option.some.inj hwrite
      refine ⟨p.setWord a w, ?_, ?_, rfl⟩
      · rw [Processor.write64, ha, Option.map_some]
      · refine ⟨?_, h.flags, h.board, h.results, fun b x hx => ?_⟩
        · change p.regs = _
          rw [h.regs, View.top, View.top, List.length_set]
        · rw [View.mem, getElem?_set_live v.live v.dead hlt w b] at hx
          rw [word_setWord]
          split at hx
          · next hb =>
            rw [if_pos hb]
            exact Option.some.inj hx
          · next hb =>
            rw [if_neg hb]
            exact h.words b x hx
    · simp at hwrite
  | board offset => exact hother (by simp) hwrite
  | results offset => exact hother (by simp) hwrite
  | int n => exact hother (by simp) hwrite
  | code position => exact hother (by simp) hwrite

theorem Shows.setReg (h : p.Shows v) {r : Register} (hr : r ≠ .rsp) (w : Word) :
    (p.setReg r w).Shows (v.setReg r w) := by
  refine ⟨?_, h.flags, h.board, h.results, h.words⟩
  change p.regs.set r w = (v.regs.set r w).set .rsp v.top
  rw [h.regs]
  cases r <;> first | rfl | exact (hr rfl).elim

/-! ## Instructions -/

/-- A processor has done something that is independent of the stack, in which the stack pointer
stays. -/
def Detached (p : Processor) (after : Processor → Option Processor) : Prop :=
  ∀ q, after p.detach = some q → after p = some (p.attach q) ∧ q.regs.rsp = p.regs.rsp

theorem rsp_set {regs : Registers} {r : Register} (hr : r ≠ .rsp) (w : Word) :
    (regs.set r w).rsp = regs.rsp := by
  cases r <;> first | rfl | exact (hr rfl).elim

theorem detached_some {f : Processor → Processor} (hf : f p = p.attach (f p.detach))
    (hrsp : (f p.detach).regs.rsp = p.regs.rsp) : p.Detached fun p => some (f p) := by
  intro q hq
  obtain rfl := Option.some.inj hq
  exact ⟨congrArg some hf, hrsp⟩

/-- What is read is the same without the stack, and what is done with it is independent of the
stack. -/
theorem detached_bind {α : Type} {g : Processor → Option α} {f : α → Processor → Option Processor}
    (hg : g p.detach = g p) (h : ∀ a, p.Detached (f a)) :
    p.Detached fun p => (g p).bind fun a => f a p := by
  intro q hq
  obtain ⟨a, ha, hq⟩ := Option.bind_eq_some_iff.1 hq
  obtain ⟨hp, hrsp⟩ := h a q hq
  simp only [← hg, ha, Option.bind_some]
  exact ⟨hp, hrsp⟩

theorem detached_setReg {r : Register} (hr : r ≠ .rsp) (w : Word) (flags : Option Flags) :
    p.Detached fun p => some ((p.setReg r w).withFlags flags) :=
  detached_some rfl (rsp_set hr w)

theorem detached_bitwise {dst : Register} (hdst : dst ≠ .rsp) (f : Int64 → Int64 → Int64)
    (a b : Word) : p.Detached fun p => p.bitwise f dst a b := by
  intro q hq
  simp only [Processor.bitwise] at hq ⊢
  split at hq
  · exact detached_setReg hdst _ _ q hq
  · simp at hq

theorem detached_alu {op : AluOp} {dst : Register} (hdst : dst ≠ .rsp) (b : Word) :
    p.Detached fun p => p.alu op dst b := by
  intro q hq
  cases op with
  | add =>
    obtain ⟨w, hw, hq⟩ := Option.map_eq_some_iff.1 hq
    have hw : (p.reg dst).add b = some w := hw
    simp only [Processor.alu, hw, Option.map_some]
    exact detached_setReg hdst w _ q (congrArg some hq)
  | sub =>
    obtain ⟨w, hw, hq⟩ := Option.map_eq_some_iff.1 hq
    have hw : (p.reg dst).sub b = some w := hw
    simp only [Processor.alu, hw, Option.map_some]
    exact detached_setReg hdst w _ q (congrArg some hq)
  | cmp =>
    obtain ⟨flags, hflags, rfl⟩ := Option.map_eq_some_iff.1 hq
    have hflags : compareWords (p.reg dst) b = some flags := hflags
    simp only [Processor.alu, hflags, Option.map_some]
    exact ⟨rfl, rfl⟩
  | and => exact detached_bitwise hdst _ (p.reg dst) b q hq
  | or => exact detached_bitwise hdst _ (p.reg dst) b q hq
  | xor => exact detached_bitwise hdst _ (p.reg dst) b q hq

theorem detached_divide (divisor : Int64) : p.Detached fun p => p.divide divisor := by
  refine detached_bind rfl fun high => detached_bind rfl fun low q hq => ?_
  dsimp only at hq ⊢
  split at hq
  · simp at hq
  · next hdivisor =>
    rw [if_neg hdivisor]
    split at hq
    · next hrange =>
      rw [if_pos hrange]
      obtain rfl := Option.some.inj hq
      exact ⟨rfl, rfl⟩
    · simp at hq

theorem detached_load32 {dst : Register} (hdst : dst ≠ .rsp) (mem : Memory) :
    p.Detached fun p => p.perform place (.load32 dst mem) := by
  refine detached_bind rfl fun address => ?_
  intro q hq
  obtain ⟨w, hw, hq⟩ := Option.bind_eq_some_iff.1 hq
  have hw : p.read32 address = some w := by
    cases address with
    | board offset => exact hw
    | _ => simp [Processor.read32] at hw
  obtain rfl := Option.some.inj hq
  simp only [hw, bind, Option.bind]
  exact ⟨rfl, rsp_set hdst _⟩

theorem detached_store32 (mem : Memory) (src : Register) :
    p.Detached fun p => p.perform place (.store32 mem src) := by
  refine detached_bind rfl fun address => detached_bind rfl fun n q hq => ?_
  cases address with
  | board offset =>
    obtain ⟨i, hi, hq⟩ := Option.bind_eq_some_iff.1 hq
    simp only [Processor.write32, hi, bind, Option.bind]
    split at hq
    · next hlt =>
      have hlt : i < p.board.size := hlt
      obtain rfl := Option.some.inj hq
      rw [if_pos hlt]
      exact ⟨rfl, rfl⟩
    · simp at hq
  | _ => simp [Processor.write32] at hq

/-- Without a stack there is no position to return to. -/
theorem detach_read64_ne_code {address : Word} {position : Nat} :
    p.detach.read64 address ≠ some (.code position) := by
  intro h
  cases address with
  | stack offset =>
    obtain ⟨i, -, hi⟩ := Option.map_eq_some_iff.1 h
    simp [detach, word] at hi
  | board offset =>
    obtain ⟨i, -, h⟩ := Option.bind_eq_some_iff.1 h
    obtain ⟨low, -, h⟩ := Option.bind_eq_some_iff.1 h
    obtain ⟨high, -, h⟩ := Option.bind_eq_some_iff.1 h
    simp at h
  | results offset =>
    obtain ⟨i, -, h⟩ := Option.bind_eq_some_iff.1 h
    obtain ⟨n, -, h⟩ := Option.bind_eq_some_iff.1 h
    simp at h
  | _ => simp [Processor.read64] at h

/-- What is done without a branch does not depend on where the labels lie. -/
theorem perform_of_unplaced {instr : Instr} {q : Processor}
    (h : p.perform (fun _ => none) instr = some q) : p.perform place instr = some q := by
  cases instr with
  | jmp target | call target => simp [Processor.perform] at h
  | jcc cond target =>
    obtain ⟨flags, hflags, h⟩ := Option.bind_eq_some_iff.1 h
    simp only [Processor.perform, hflags, bind, Option.bind]
    split at h
    · simp at h
    · next hcond =>
      rw [if_neg hcond]
      exact h
  | _ => exact h

/-- Going on behind a branch that is not taken is independent of the stack. -/
theorem detached_jcc (cond : Condition) (target : Label) :
    p.Detached fun p => p.perform (fun _ => none) (.jcc cond target) := by
  refine detached_bind rfl fun flags q hq => ?_
  dsimp only at hq ⊢
  split at hq
  · simp at hq
  · next hcond =>
    obtain rfl := Option.some.inj hq
    rw [if_neg hcond]
    exact ⟨rfl, rfl⟩

/-- An instruction that branches nowhere, does not set the stack pointer and does not use the
stack does the same without a stack. -/
theorem detached_perform {instr : Instr} (hrsp : instr.setsStackPointer = false)
    (hstack : ∀ src imm dst mem, instr ≠ .push src ∧ instr ≠ .pushImm imm ∧ instr ≠ .pop dst ∧
      instr ≠ .load dst mem ∧ instr ≠ .store mem src ∧ instr ≠ .pushMem mem ∧
      instr ≠ .popMem mem) :
    p.Detached fun p => p.perform (fun _ => none) instr := by
  cases instr with
  | push src => exact ((hstack src 0 .rax ⟨.rax, 0⟩).1 rfl).elim
  | pushImm imm => exact ((hstack .rax imm .rax ⟨.rax, 0⟩).2.1 rfl).elim
  | pop dst => exact ((hstack .rax 0 dst ⟨.rax, 0⟩).2.2.1 rfl).elim
  | load dst mem => exact ((hstack .rax 0 dst mem).2.2.2.1 rfl).elim
  | store mem src => exact ((hstack src 0 .rax mem).2.2.2.2.1 rfl).elim
  | pushMem mem => exact ((hstack .rax 0 .rax mem).2.2.2.2.2.1 rfl).elim
  | popMem mem => exact ((hstack .rax 0 .rax mem).2.2.2.2.2.2 rfl).elim
  | mov dst src | movImm dst imm =>
    have hdst : dst ≠ .rsp := by simpa [Instr.setsStackPointer] using hrsp
    exact detached_some rfl (rsp_set hdst _)
  | load32 dst mem =>
    have hdst : dst ≠ .rsp := by simpa [Instr.setsStackPointer] using hrsp
    exact detached_load32 hdst mem
  | store32 mem src => exact detached_store32 mem src
  | lea dst mem | setcc cond dst | movzx dst src =>
    have hdst : dst ≠ .rsp := by simpa [Instr.setsStackPointer] using hrsp
    exact detached_bind rfl fun _ => detached_some rfl (rsp_set hdst _)
  | alu op dst src =>
    have hdst : dst ≠ .rsp := by simpa [Instr.setsStackPointer] using hrsp
    simp only [Processor.perform]
    split
    · exact detached_setReg hdst _ _
    · exact detached_alu hdst (p.reg src)
  | aluImm op dst imm =>
    have hdst : dst ≠ .rsp := by simpa [Instr.setsStackPointer] using hrsp
    exact detached_alu hdst _
  | test a b =>
    exact detached_bind rfl fun _ => detached_bind rfl fun _ => detached_some rfl rfl
  | imul dst src =>
    have hdst : dst ≠ .rsp := by simpa [Instr.setsStackPointer] using hrsp
    exact detached_bind rfl fun _ => detached_bind rfl fun _ => detached_setReg hdst _ _
  | neg r | shl r _ | shr r _ =>
    have hr : r ≠ .rsp := by simpa [Instr.setsStackPointer] using hrsp
    exact detached_bind rfl fun _ => detached_setReg hr _ _
  | idiv divisor => exact detached_bind rfl fun n => detached_divide n
  | cqo => exact detached_bind rfl fun _ => detached_some rfl rfl
  | jcc cond target => exact detached_jcc cond target
  | jmp target | call target =>
    intro q hq
    simp [Processor.perform] at hq
  | ret =>
    intro q hq
    obtain ⟨⟨w, popped⟩, hpop, hq⟩ := Option.bind_eq_some_iff.1 hq
    obtain ⟨w', hread, hpop⟩ := Option.bind_eq_some_iff.1 hpop
    obtain ⟨top, -, hpop⟩ := Option.bind_eq_some_iff.1 hpop
    obtain ⟨rfl, rfl⟩ := Prod.mk.inj (Option.some.inj hpop)
    split at hq
    · next position _ heq =>
      obtain ⟨rfl, -⟩ := Prod.mk.inj heq
      exact (detach_read64_ne_code hread).elim
    · simp at hq
  | bind label => exact detached_some rfl rfl

/-- The processor does what the view does. -/
theorem Shows.perform (h : p.Shows v) {instr : Instr} (hview : v.perform instr = some v') :
    ∃ p', p.perform place instr = some p' ∧ p'.Shows v' ∧ p'.position = p.position := by
  unfold View.perform at hview
  by_cases hrsp : instr.setsStackPointer = true
  · simp [hrsp] at hview
  · rw [if_neg hrsp] at hview
    have hrsp : instr.setsStackPointer = false := by simpa using hrsp
    split at hview
    · next src _ =>
      obtain rfl := Option.some.inj hview
      rw [Processor.perform, h.reg]
      exact h.pushWord _
    · next imm _ =>
      obtain rfl := Option.some.inj hview
      exact h.pushWord _
    · next dst _ =>
      have hdst : dst ≠ .rsp := by simpa [Instr.setsStackPointer] using hrsp
      obtain ⟨⟨w, v₁⟩, hpop, rfl⟩ := Option.map_eq_some_iff.1 hview
      obtain ⟨p₁, hp₁, hshows, hposition⟩ := h.popWord hpop
      refine ⟨p₁.setReg dst w, ?_, hshows.setReg hdst w, hposition⟩
      simp only [Processor.perform, hp₁, bind, Option.bind]
      rfl
    · next dst mem _ =>
      have hdst : dst ≠ .rsp := by simpa [Instr.setsStackPointer] using hrsp
      obtain ⟨address, haddress, hview⟩ := Option.bind_eq_some_iff.1 hview
      obtain ⟨w, hw, hview⟩ := Option.bind_eq_some_iff.1 hview
      obtain rfl := Option.some.inj hview
      refine ⟨p.setReg dst w, ?_, h.setReg hdst w, rfl⟩
      simp only [Processor.perform, h.address?, haddress, h.read64 hw, bind, Option.bind]
      rfl
    · next mem src _ =>
      obtain ⟨address, haddress, hview⟩ := Option.bind_eq_some_iff.1 hview
      simp only [Processor.perform, h.address?, haddress, h.reg, bind, Option.bind]
      exact h.write64 hview
    · next mem _ =>
      obtain ⟨address, haddress, hview⟩ := Option.bind_eq_some_iff.1 hview
      obtain ⟨w, hw, hview⟩ := Option.bind_eq_some_iff.1 hview
      obtain rfl := Option.some.inj hview
      simp only [Processor.perform, h.address?, haddress, h.read64 hw, bind, Option.bind]
      exact h.pushWord w
    · next mem _ =>
      obtain ⟨⟨w, v₁⟩, hpop, hview⟩ := Option.bind_eq_some_iff.1 hview
      obtain ⟨address, haddress, hview⟩ := Option.bind_eq_some_iff.1 hview
      obtain ⟨p₁, hp₁, hshows, hposition⟩ := h.popWord hpop
      obtain ⟨p₂, hp₂, hshows₂, hposition₂⟩ := hshows.write64 hview
      refine ⟨p₂, ?_, hshows₂, hposition₂.trans hposition⟩
      simp only [Processor.perform, hp₁, hshows.address?, haddress, hp₂, bind, Option.bind]
    · next hpush hpushImm hpop hload hstore hpushMem hpopMem =>
      obtain ⟨q, hq, rfl⟩ := Option.map_eq_some_iff.1 hview
      rw [h.cpu_eq] at hq
      obtain ⟨hp, htop⟩ := detached_perform hrsp (fun src imm dst mem => ⟨hpush src, hpushImm imm,
        hpop dst, hload dst mem, hstore mem src, hpushMem mem, hpopMem mem⟩) q hq
      refine ⟨p.attach q, perform_of_unplaced hp, h.adopt ?_, rfl⟩
      rw [htop, h.regs]
      rfl

end Processor
end Native
end Gobstones
