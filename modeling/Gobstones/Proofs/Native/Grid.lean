import Gobstones.Proofs.Board.Invariant
import Gobstones.Proofs.Native.Leads
import Gobstones.Proofs.Native.Words
/-!
# The board in native memory

This module relates boards to the memory and the registers in which native code keeps
them.  A fixed register points to the cells, four others hold the head and the size, and
the counters of the cells follow four words of header.

Main definitions:

- {lit}`View.Carries`: native code keeps a board.
- {lit}`View.Keeps`: native code leaves the registers of its frame and the results alone.
- {lit}`View.Agrees`: native code leaves the board alone too.

Main results:

- Theorem {lit}`View.Carries.counter`: the counter of a color at its address.
- Theorem {lit}`View.Carries.setCount`: a counter is stored.
-/

namespace Gobstones

/-! ## Cells as words -/

/-- The counter of a color among the words of cells. -/
theorem getElem?_flatMap_counters (cells : List Cell) (k : Nat) (color : Color) :
    (cells.flatMap Cell.counters)[4 * k + color.index]? = cells[k]?.map (·.count color) := by
  induction cells generalizing k with
  | nil => simp
  | cons cell cells ih =>
    rw [List.flatMap_cons]
    cases k with
    | zero => cases color <;> rfl
    | succ k =>
      have hindex : 4 * (k + 1) + color.index = 4 * k + color.index + 4 := by omega
      rw [hindex, List.getElem?_append_right (by simp [Cell.counters])]
      simpa [Cell.counters] using ih k

/-- Another counter of a color among the words of cells. -/
theorem set_flatMap_counters (cells : List Cell) (k : Nat) (color : Color) (w : UInt32) :
    (cells.flatMap Cell.counters).set (4 * k + color.index) w =
      (cells.modify k (·.setCount color w)).flatMap Cell.counters := by
  induction cells generalizing k with
  | nil => simp
  | cons cell cells ih =>
    cases k with
    | zero => cases color <;> rfl
    | succ k =>
      have hindex : 4 * (k + 1) + color.index = 4 * k + color.index + 4 := by omega
      rw [hindex, List.flatMap_cons, List.set_append_right _ _ (by simp [Cell.counters]),
        List.modify_succ_cons, List.flatMap_cons, ← ih]
      rfl

/-- The index of the counter of a color under the head among the words of memory. -/
def Board.counterIndex (board : Board) (color : Color) : Nat :=
  4 + (4 * board.headIndex + color.index)

namespace Native
namespace View

/-! ## Boards and registers -/

/-- Native code keeps a board: its head and its size in registers, and its cells in memory
behind a header of four words. -/
structure Carries (v : View) (board : Board) : Prop where
  rbx : v.regs.rbx = .board 16
  r11 : v.regs.r11 = .nat board.headX.toNat
  r12 : v.regs.r12 = .nat board.headY.toNat
  r13 : v.regs.r13 = .nat board.width.toNat
  r14 : v.regs.r14 = .nat board.height.toNat
  cells : ∃ header : List UInt32, header.length = 4 ∧
    v.board.toList = header ++ board.cells.toList.flatMap Cell.counters

/-- The registers of a frame and the result buffer are left alone. -/
structure Keeps (v v' : View) : Prop where
  rbp : v'.regs.rbp = v.regs.rbp
  rsi : v'.regs.rsi = v.regs.rsi
  r15 : v'.regs.r15 = v.regs.r15
  results : v'.results = v.results

/-- Everything but registers for intermediate values, the flags and the stack is left alone. -/
structure Agrees (v v' : View) : Prop extends Keeps v v' where
  rbx : v'.regs.rbx = v.regs.rbx
  r11 : v'.regs.r11 = v.regs.r11
  r12 : v'.regs.r12 = v.regs.r12
  r13 : v'.regs.r13 = v.regs.r13
  r14 : v'.regs.r14 = v.regs.r14
  board : v'.board = v.board

variable {v v' v'' : View} {board : Board} {color : Color}

theorem Keeps.refl (v : View) : v.Keeps v :=
  ⟨rfl, rfl, rfl, rfl⟩

theorem Keeps.trans (h : v.Keeps v') (h' : v'.Keeps v'') : v.Keeps v'' :=
  ⟨h'.rbp.trans h.rbp, h'.rsi.trans h.rsi, h'.r15.trans h.r15, h'.results.trans h.results⟩

theorem Agrees.refl (v : View) : v.Agrees v :=
  ⟨.refl v, rfl, rfl, rfl, rfl, rfl, rfl⟩

theorem Agrees.trans (h : v.Agrees v') (h' : v'.Agrees v'') : v.Agrees v'' :=
  ⟨h.toKeeps.trans h'.toKeeps, h'.rbx.trans h.rbx, h'.r11.trans h.r11, h'.r12.trans h.r12,
    h'.r13.trans h.r13, h'.r14.trans h.r14, h'.board.trans h.board⟩

theorem Agrees.carries (h : v.Agrees v') (hv : v.Carries board) : v'.Carries board :=
  ⟨h.rbx.trans hv.rbx, h.r11.trans hv.r11, h.r12.trans hv.r12, h.r13.trans hv.r13,
    h.r14.trans hv.r14, h.board ▸ hv.cells⟩

/-! ## Counters -/

/-- The counter of a color under the head. -/
theorem Carries.counter (hv : v.Carries board) (hboard : board.WellFormed) (color : Color) :
    v.board[board.counterIndex color]? = some (board.numStones color) := by
  obtain ⟨header, hlength, hcells⟩ := hv.cells
  have hhead := hboard.headIndex_lt
  rw [← Array.getElem?_toList, hcells, Board.counterIndex,
    List.getElem?_append_right (by omega), hlength, Nat.add_sub_cancel_left,
    getElem?_flatMap_counters, Board.numStones, Board.here]
  simp [hhead]

/-- Another counter of a color under the head. -/
theorem Carries.setCount (hv : v.Carries board) {f : Cell → Cell} {w : UInt32}
    (hf : f board.here = board.here.setCount color w) :
    ({ v with board := v.board.setIfInBounds (board.counterIndex color) w } : View).Carries
      (board.modifyHere f) := by
  obtain ⟨header, hlength, hcells⟩ := hv.cells
  refine ⟨hv.rbx, hv.r11, hv.r12, hv.r13, hv.r14, header, hlength, ?_⟩
  have hmodify : (board.cells.modify board.headIndex f).toList =
      board.cells.toList.modify board.headIndex (·.setCount color w) := by
    rw [Array.toList_modify]
    apply List.ext_getElem?
    intro k
    rw [List.getElem?_modify, List.getElem?_modify]
    by_cases hk : board.headIndex = k
    · subst hk
      cases hcell : board.cells.toList[board.headIndex]? with
      | none => rfl
      | some cell =>
        have hhere : board.here = cell := by
          rw [Board.here, Array.getD_eq_getD_getElem?, ← Array.getElem?_toList, hcell]
          rfl
        simp [← hhere, hf]
    · simp only [if_neg hk]
  change (v.board.setIfInBounds _ w).toList =
    header ++ List.flatMap _ (board.modifyHere f).cells.toList
  rw [Array.toList_setIfInBounds, hcells, Board.counterIndex, Board.modifyHere, hmodify,
    ← set_flatMap_counters, List.set_append_right _ _ (by omega), hlength, Nat.add_sub_cancel_left]

/-! ## Loads and stores -/

theorem unitIndex?_mul {k : Nat} (hk : 0 < k) (i : Nat) :
    Processor.unitIndex? k (k * i : Nat) = some i := by
  have hmod : ((k * i : Nat) : Int) % k = 0 := by simp
  rw [Processor.unitIndex?, if_pos ⟨Int.natCast_nonneg _, hmod⟩]
  congr 1
  rw [Nat.cast_mul, Int.mul_ediv_cancel_left _ (by omega), Int.toNat_natCast]

/-- The address in a register without displacement. -/
theorem address?_deref {base : Register} {offset : Int} (hbase : v.reg base = .board offset) :
    v.cpu.address? (deref base) = some (.board offset) := by
  have hzero : (0 : Int32).toInt64.toInt = 0 := rfl
  have hreg : v.cpu.reg base = .board offset := hbase
  rw [Processor.address?, deref, hreg, Word.add, hzero, Int.add_zero]

/-- The address in a register without displacement. -/
theorem address?_deref_stack {base : Register} {offset : Int}
    (hbase : v.reg base = .stack offset) :
    v.cpu.address? (deref base) = some (.stack offset) := by
  have hzero : (0 : Int32).toInt64.toInt = 0 := rfl
  have hreg : v.cpu.reg base = .stack offset := hbase
  rw [Processor.address?, deref, hreg, Word.add, hzero, Int.add_zero]

/-- A 64-bit word is loaded from its address. -/
theorem perform_load {dst : Register} {mem : Memory} {address w : Word} (hdst : dst ≠ .rsp)
    (haddress : v.cpu.address? mem = some address) (hw : v.read? address = some w) :
    v.perform (.load dst mem) = some (v.setReg dst w) := by
  have hnot : (Instr.load dst mem).setsStackPointer = false := by
    simp [Instr.setsStackPointer, hdst]
  simp only [View.perform, hnot, haddress, hw, bind, Option.bind]
  rfl

/-- A 64-bit word is stored at its address. -/
theorem perform_store {src : Register} {mem : Memory} {address : Word}
    (haddress : v.cpu.address? mem = some address)
    (hwrite : v.write? address (v.reg src) = some v') :
    v.perform (.store mem src) = some v' := by
  simp only [View.perform, Instr.setsStackPointer, haddress, bind, Option.bind]
  exact hwrite

/-- A 32-bit word is loaded from its address. -/
theorem perform_load32 {dst : Register} {mem : Memory} {i : Nat} {w : UInt32} (hdst : dst ≠ .rsp)
    (haddress : v.cpu.address? mem = some (.board (4 * i : Nat))) (hw : v.board[i]? = some w) :
    v.perform (.load32 dst mem) = some (v.adopt (v.cpu.setReg dst (.nat w.toNat))) := by
  have hread : v.cpu.read32 (.board (4 * i : Nat)) = some w := by
    have hindex := unitIndex?_mul (k := 4) (by omega) i
    simp only [Processor.read32, hindex, bind, Option.bind]
    exact hw
  have hnot : (Instr.load32 dst mem).setsStackPointer = false := by
    simp [Instr.setsStackPointer, hdst]
  simp only [View.perform, hnot, Processor.perform, haddress, hread, bind, Option.bind,
    toInt64_toUInt64]
  rfl

/-- A 32-bit word is stored at its address. -/
theorem perform_store32 {src : Register} {mem : Memory} {i : Nat} {n : Int64}
    (haddress : v.cpu.address? mem = some (.board (4 * i : Nat))) (hi : i < v.board.size)
    (hsrc : v.reg src = .int n) :
    v.perform (.store32 mem src) =
      some (v.adopt { v.cpu with board := v.board.setIfInBounds i n.toUInt64.toUInt32 }) := by
  have hint : v.cpu.int? src = some n := by
    have hreg : v.cpu.reg src = .int n := hsrc
    rw [Processor.int?, hreg]
  have hindex := unitIndex?_mul (k := 4) (by omega) i
  have hwrite : v.cpu.write32 (.board (4 * i : Nat)) n.toUInt64.toUInt32 =
      some { v.cpu with board := v.board.setIfInBounds i n.toUInt64.toUInt32 } := by
    simp only [Processor.write32, hindex, bind, Option.bind]
    exact if_pos hi
  simp only [View.perform, Instr.setsStackPointer, Processor.perform, haddress, hint, hwrite, bind,
    Option.bind]
  rfl

end View
end Native
end Gobstones
