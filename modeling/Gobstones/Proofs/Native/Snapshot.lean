import Gobstones.Native.Compile
import Gobstones.Proofs.Native.Surface
/-!
# Copies of the board

This module follows the code that goes through all cells, two counters at a time: the
code that clears the board, the code that saves it on the stack, and the code that
restores it from there.

Main definitions:

- {lit}`Cell.pairs`: the counters of a cell in twos.
- {lit}`Board.snapshot`: the words that a saved board takes on the stack.

Main results:

- Theorem {lit}`changes_clearBoard`: all cells are cleared.
- Theorem {lit}`leads_enterCode`: the board is saved.
- Theorem {lit}`leads_leaveCode`: a saved board is restored.
-/

namespace Gobstones

/-! ## Pairs of counters -/

/-- The halves of a word that is put together from halves. -/
theorem halves_ofHalves (low high : UInt32) : halves (ofHalves low high) = (low, high) := by
  refine Prod.ext ?_ ?_
  · apply UInt32.toBitVec_inj.1
    apply BitVec.eq_of_getElem_eq
    intro i hi
    simp [halves, ofHalves]
  · apply UInt32.toBitVec_inj.1
    apply BitVec.eq_of_getElem_eq
    intro i hi
    have hbound : 32 + i < 64 := by omega
    simp [halves, ofHalves, hbound, BitVec.getLsbD_eq_getElem, hi, show i < 64 by omega]

/-- The words of pairs of 32-bit words. -/
def unpaired (pairs : List (UInt32 × UInt32)) : List UInt32 :=
  pairs.flatMap fun pair => [pair.1, pair.2]

/-- The counters of a cell in twos. -/
def Cell.pairs (cell : Cell) : List (UInt32 × UInt32) :=
  [(cell.blue, cell.black), (cell.red, cell.green)]

/-- The counters of cells in twos. -/
def cellPairs (cells : List Cell) : List (UInt32 × UInt32) :=
  cells.flatMap Cell.pairs

theorem unpaired_cellPairs (cells : List Cell) :
    unpaired (cellPairs cells) = cells.flatMap Cell.counters := by
  induction cells with
  | nil => rfl
  | cons cell cells ih =>
    rw [List.flatMap_cons, ← ih]
    rfl

theorem length_cellPairs (cells : List Cell) : (cellPairs cells).length = 2 * cells.length := by
  induction cells with
  | nil => rfl
  | cons cell cells ih =>
    rw [cellPairs, List.flatMap_cons, List.length_append, ← cellPairs, ih, List.length_cons]
    simp [Cell.pairs]
    omega

theorem length_unpaired (pairs : List (UInt32 × UInt32)) :
    (unpaired pairs).length = 2 * pairs.length := by
  induction pairs with
  | nil => rfl
  | cons pair pairs ih =>
    rw [unpaired, List.flatMap_cons, List.length_append, ← unpaired, ih, List.length_cons]
    simp
    omega

theorem unpaired_append (first second : List (UInt32 × UInt32)) :
    unpaired (first ++ second) = unpaired first ++ unpaired second :=
  List.flatMap_append

/-- An even number of words consists of pairs. -/
theorem exists_unpaired {words : List UInt32} {n : Nat} (h : words.length = 2 * n) :
    ∃ pairs : List (UInt32 × UInt32), pairs.length = n ∧ unpaired pairs = words := by
  induction n generalizing words with
  | zero => exact ⟨[], rfl, (List.eq_nil_of_length_eq_zero h).symm⟩
  | succ n ih =>
    rcases words with _ | ⟨low, _ | ⟨high, words⟩⟩
    · cases h
    · simp at h
      omega
    · have hrest : words.length = 2 * n := by
        simp at h
        omega
      obtain ⟨pairs, hlength, rfl⟩ := ih hrest
      exact ⟨(low, high) :: pairs, congrArg (· + 1) hlength, rfl⟩

theorem cellPairs_replicate (n : Nat) :
    cellPairs (List.replicate n Cell.empty) = List.replicate (2 * n) (0, 0) := by
  induction n with
  | zero => rfl
  | succ n ih =>
    rw [List.replicate_succ, cellPairs, List.flatMap_cons, ← cellPairs, ih, Nat.mul_succ]
    rfl

namespace Native
namespace View

variable {v : View}

/-! ## Loads and stores of pairs -/

/-- Memory holds pairs of counters behind the header of a board. -/
def Stores (words : Array UInt32) (pairs : List (UInt32 × UInt32)) : Prop :=
  ∃ header : List UInt32, header.length = 4 ∧ words.toList = header ++ unpaired pairs

/-- The address of a pair of counters. -/
def pairAddress (i : Nat) : Word :=
  .board (16 + 8 * i : Nat)

/-- A pair of counters as one word. -/
def pairWord (pair : UInt32 × UInt32) : Word :=
  .int (ofHalves pair.1 pair.2).toInt64

/-- The index of a pair of counters among the words of memory. -/
theorem unitIndex?_pair (i : Nat) :
    Processor.unitIndex? 4 (16 + 8 * i : Nat) = some (4 + 2 * i) := by
  have hoffset : 16 + 8 * i = 4 * (4 + 2 * i) := by omega
  rw [hoffset]
  exact unitIndex?_mul (by omega) _

/-- The two words of a pair of counters. -/
theorem Stores.getElem? {front rest : List (UInt32 × UInt32)} {pair : UInt32 × UInt32}
    (hv : Stores v.board (front ++ pair :: rest)) :
    v.board[4 + 2 * front.length]? = some pair.1 ∧
      v.board[4 + 2 * front.length + 1]? = some pair.2 := by
  rcases hv with ⟨header, hlength, hboard⟩
  rw [unpaired_append, ← List.append_assoc] at hboard
  have hfront : (header ++ unpaired front).length = 4 + 2 * front.length := by
    rw [List.length_append, hlength, length_unpaired]
  rw [← Array.getElem?_toList, ← Array.getElem?_toList, hboard, ← hfront]
  constructor
  · rw [List.getElem?_append_right (Nat.le_refl _), Nat.sub_self]
    rfl
  · rw [List.getElem?_append_right (Nat.le_add_right _ 1), Nat.add_sub_cancel_left]
    rfl

/-- A pair of counters is read at its address. -/
theorem Stores.read {front rest : List (UInt32 × UInt32)} {pair : UInt32 × UInt32}
    (hv : Stores v.board (front ++ pair :: rest)) :
    v.read? (pairAddress front.length) = some (pairWord pair) := by
  rcases hv.getElem? with ⟨hlow, hhigh⟩
  have hcpu : v.cpu.board = v.board := rfl
  change v.cpu.read64 (.board (16 + 8 * front.length : Nat)) = _
  simp only [Processor.read64, unitIndex?_pair, bind, Option.bind, hcpu, hlow, hhigh]
  rfl

/-- Other counters in the place of a pair. -/
def putPair (board : Array UInt32) (i : Nat) (pair : UInt32 × UInt32) : Array UInt32 :=
  (board.setIfInBounds (4 + 2 * i) pair.1).setIfInBounds (4 + 2 * i + 1) pair.2

/-- A pair of counters is written at its address. -/
theorem Stores.write {front rest : List (UInt32 × UInt32)} {old : UInt32 × UInt32}
    (hv : Stores v.board (front ++ old :: rest)) (pair : UInt32 × UInt32) :
    v.write? (pairAddress front.length) (pairWord pair) =
      some (v.adopt { v.cpu with board := putPair v.board front.length pair }) := by
  rcases hv.getElem? with ⟨-, hhigh⟩
  obtain ⟨hlt, -⟩ := Array.getElem?_eq_some_iff.1 hhigh
  have hhalves := halves_ofHalves pair.1 pair.2
  have hbits : (ofHalves pair.1 pair.2).toInt64.toUInt64 = ofHalves pair.1 pair.2 := rfl
  have hlow : (ofHalves pair.1 pair.2).toUInt32 = pair.1 := congrArg Prod.fst hhalves
  have hhigh : (ofHalves pair.1 pair.2 >>> 32).toUInt32 = pair.2 := congrArg Prod.snd hhalves
  have hwrite : v.cpu.write64 (.board (16 + 8 * front.length : Nat)) (pairWord pair) =
      some { v.cpu with board := putPair v.board front.length pair } := by
    simp only [Processor.write64, pairWord, unitIndex?_pair, bind, Option.bind, hbits, hlow, hhigh]
    exact if_pos hlt
  exact congrArg (Option.map v.adopt) hwrite

/-- The memory of the board with other counters in the place of a pair. -/
theorem Stores.put {front rest : List (UInt32 × UInt32)} {old : UInt32 × UInt32}
    (hv : Stores v.board (front ++ old :: rest)) (pair : UInt32 × UInt32) :
    Stores (putPair v.board front.length pair) (front ++ pair :: rest) := by
  rcases hv with ⟨header, hlength, hboard⟩
  refine ⟨header, hlength, ?_⟩
  have hfront : (header ++ unpaired front).length = 4 + 2 * front.length := by
    rw [List.length_append, hlength, length_unpaired]
  change (putPair v.board front.length pair).toList = _
  rw [putPair, Array.toList_setIfInBounds, Array.toList_setIfInBounds, hboard, unpaired_append,
    unpaired_append, ← List.append_assoc, ← List.append_assoc, ← hfront,
    List.set_append_right _ _ (Nat.le_refl _), Nat.sub_self,
    List.set_append_right _ _ (Nat.le_add_right _ 1), Nat.add_sub_cancel_left]
  rfl

end View

variable {code : NativeCode} {v : View} {n : Nat} {board : Board}
variable {Q : View → Nat → Prop} {base : Register} {front rest : List (UInt32 × UInt32)}

/-- A pair of counters is loaded. -/
theorem leads_readPair {dst : Register} {pair : UInt32 × UInt32} (hdst : dst ≠ .rsp)
    (hinstr : code.instrs[n]? = some (.load dst (deref base)))
    (hv : View.Stores v.board (front ++ pair :: rest))
    (hbase : v.reg base = View.pairAddress front.length)
    (hrest : code.Leads (v.setReg dst (View.pairWord pair)) (n + 1) Q) : code.Leads v n Q :=
  .instr hinstr (View.perform_load hdst (View.address?_deref hbase) hv.read) hrest

/-- A pair of counters is stored. -/
theorem leads_writePair {src : Register} {old : UInt32 × UInt32} (pair : UInt32 × UInt32)
    (hinstr : code.instrs[n]? = some (.store (deref base) src))
    (hv : View.Stores v.board (front ++ old :: rest))
    (hbase : v.reg base = View.pairAddress front.length) (hsrc : v.reg src = View.pairWord pair)
    (hrest : code.Leads (v.adopt { v.cpu with board := View.putPair v.board front.length pair })
      (n + 1) Q) : code.Leads v n Q :=
  .instr hinstr (View.perform_store (View.address?_deref hbase) (hsrc ▸ hv.write pair)) hrest

/-! ## Clearing -/

/-- The loop of the code that clears the board. -/
theorem leads_clearLoop {top done : Label} (front : List (UInt32 × UInt32))
    (hlinked : code.Linked) (hat : code.At n (clearBoardCode top done))
    (hv : View.Stores v.board (front ++ rest))
    (hrdx : v.regs.rdx = .board (16 + 8 * front.length : Nat))
    (hr10 : v.regs.r10 = .board (16 + 8 * (front ++ rest).length : Nat))
    (hrcx : v.regs.rcx = .int 0)
    (hrest : ∀ v', View.Agrees { v with board := v'.board } v' → v'.live = v.live →
      View.Stores v'.board (front ++ List.replicate rest.length (0, 0)) →
        code.Leads v' (n + 14) Q) :
    code.Leads v (n + 8) Q := by
  have height : (8 : Int32).toInt64.toInt = 8 := rfl
  induction rest generalizing v front with
  | nil =>
    rcases v with ⟨⟨rax, rcx, rdx, rbx, rsp, rbp, rsi, rdi, r8, r9, r10, r11, r12, r13, r14, r15⟩,
      flags, live, dead, cells, results⟩
    dsimp only at hrdx hr10 hrcx
    subst hrdx hr10 hrcx
    have hplace := hlinked.place_eq (hat 9 _ rfl) rfl (hat 13 _ rfl)
    refine .block (hat.slice 8 1) rfl (.taken (hat 9 _ rfl) rfl ?_ hplace (hrest _ ?_ rfl hv))
    · simp [Flags.holds, Flags.ofOffsets]
    · exact ⟨⟨rfl, rfl, rfl, rfl⟩, rfl, rfl, rfl, rfl, rfl, rfl⟩
  | cons pair rest ih =>
    rcases v with ⟨⟨rax, rcx, rdx, rbx, rsp, rbp, rsi, rdi, r8, r9, r10, r11, r12, r13, r14, r15⟩,
      flags, live, dead, cells, results⟩
    dsimp only at hrdx hr10 hrcx
    subst hrdx hr10 hrcx
    have hplace := hlinked.place_eq (hat 12 _ rfl) rfl (hat 7 _ rfl)
    refine .block (hat.slice 8 1) rfl (.passed (hat 9 _ rfl) rfl ?_ (leads_writePair (0, 0)
      (hat 10 _ rfl) hv rfl rfl (.block (hat.slice 11 1) rfl (.jmp (hat 12 _ rfl) hplace ?_))))
    · simp [Flags.holds, Flags.ofOffsets]
    have hput :
        View.Stores (View.putPair cells front.length (0, 0)) (front ++ [(0, 0)] ++ rest) := by
      rw [List.append_assoc]
      exact hv.put (0, 0)
    have hnext : ((16 + 8 * front.length : Nat) : Int) + (8 : Int32).toInt64.toInt =
        (16 + 8 * (front ++ [(0, 0)]).length : Nat) := by
      rw [height, List.length_append]
      push_cast
      simp
      omega
    have hend : (front ++ pair :: rest).length =
        (front ++ [((0 : UInt32), (0 : UInt32))] ++ rest).length := by
      simp
    refine ih _ hput (congrArg Word.board hnext) ?_ rfl ?_
    · exact congrArg (fun k : Nat => Word.board (16 + 8 * k : Nat)) hend
    · intro v' hagrees hlive hstores
      refine hrest v' (.trans ?_ hagrees) hlive ?_
      · exact ⟨⟨rfl, rfl, rfl, rfl⟩, rfl, rfl, rfl, rfl, rfl, rfl⟩
      · simpa [List.replicate_succ] using hstores

/-- The pairs of a board that native code carries. -/
theorem stores_cellPairs (hv : v.Carries board) :
    View.Stores v.board (cellPairs board.cells.toList) := by
  rcases hv.cells with ⟨header, hlength, hcells⟩
  exact ⟨header, hlength, by rw [unpaired_cellPairs, hcells]⟩

/-- The number of bytes of all cells. -/
theorem toInt_size (hboard : board.WellFormed) (hfits : board.nativeLength < 2 ^ 63) :
    ((Int64.ofNat board.width.toNat * Int64.ofNat board.height.toNat).toUInt64 <<<
      (4 : UInt8).toUInt64).toInt64.toInt = (8 * (cellPairs board.cells.toList).length : Nat) := by
  have hsize : board.cells.size = board.width.toNat * board.height.toNat := hboard.size_cells
  simp only [Board.nativeLength, Board.headerSize, Board.cellSize] at hfits
  rw [← Int64.ofNat_mul, ← hsize, toInt_shl_four (by omega), length_cellPairs,
    Array.length_toList]
  omega

theorem changes_clearBoard (hboard : board.WellFormed) (hfits : board.nativeLength < 2 ^ 63)
    {top done : Label} : Changes (clearBoardCode top done) board [] board.clear := by
  intro code v n rest hlinked hat hv hlive
  have hstores := stores_cellPairs hv
  have hsize := toInt_size hboard hfits
  obtain ⟨hrbx, h11, h12, h13, h14, hcells⟩ := hv
  rcases v with ⟨⟨rax, rcx, rdx, rbx, rsp, rbp, rsi, rdi, r8, r9, r10, r11, r12, r13, r14, r15⟩,
    flags, live, dead, cells, results⟩
  dsimp only at hrbx h11 h12 h13 h14 hlive
  subst hrbx h11 h12 h13 h14 hlive
  refine .block (hat.slice 0 7) rfl (.bind (hat 7 _ rfl) (leads_clearLoop [] hlinked hat hstores
    rfl ?_ rfl ?_))
  · refine congrArg Word.board ?_
    rw [List.nil_append]
    push_cast
    exact congrArg (16 + ·) (hsize.trans (by push_cast; rfl))
  · intro v' hagrees hlive hstores'
    refine .done ⟨rfl, ⟨hagrees.rbp, hagrees.rsi, hagrees.r15, hagrees.results⟩,
      ⟨hagrees.rbx, hagrees.r11, hagrees.r12, hagrees.r13, hagrees.r14, ?_⟩, hlive⟩
    have hcleared : View.Stores v'.board
      (List.replicate (cellPairs board.cells.toList).length (0, 0)) := hstores'
    rcases hcleared with ⟨header, hlength, hwords⟩
    refine ⟨header, hlength, ?_⟩
    rw [hwords, length_cellPairs, Array.length_toList, ← cellPairs_replicate,
      unpaired_cellPairs, Board.clear, Board.record, Array.toList_replicate]

/-! ## Words of the stack -/

/-- The address of the word of the stack that has some words below it. -/
def stackAddress (below : Nat) : Word :=
  .stack (-(8 * (below + 1 : Nat)))

/-- A word of the stack is read at its address. -/
theorem View.read?_live {above below : List Word} {w : Word} (h : v.live = above ++ w :: below) :
    v.read? (stackAddress below.length) = some w := by
  have hindex := Processor.stackIndex?_neg below.length
  have hlt : below.length < v.live.length := by
    rw [h]
    simp
    omega
  simp only [View.read?, stackAddress, hindex, Option.bind_some]
  rw [View.mem, List.getElem?_append_left (by simpa using hlt), h]
  simp

/-- A word of the stack is written at its address. -/
theorem View.write?_live {above below : List Word} {old : Word} (h : v.live = above ++ old :: below)
    (w : Word) :
    v.write? (stackAddress below.length) w = some { v with live := above ++ w :: below } := by
  have hindex := Processor.stackIndex?_neg below.length
  have hlength : v.live.length - 1 - below.length = above.length := by
    rw [h, List.length_append, List.length_cons]
    omega
  have hlt : below.length < v.live.length := by
    rw [h]
    simp
    omega
  simp only [View.write?, stackAddress, hindex, bind, Option.bind]
  rw [if_pos hlt, hlength, h, List.set_append_right _ _ (Nat.le_refl _), Nat.sub_self,
    List.set_cons_zero]
  rfl

/-- A word of the stack is loaded. -/
theorem leads_readStack {dst : Register} {above below : List Word} {w : Word} (hdst : dst ≠ .rsp)
    (hinstr : code.instrs[n]? = some (.load dst (deref base)))
    (hlive : v.live = above ++ w :: below)
    (hbase : v.reg base = stackAddress below.length)
    (hrest : code.Leads (v.setReg dst w) (n + 1) Q) : code.Leads v n Q :=
  .instr hinstr (View.perform_load hdst (View.address?_deref_stack hbase) (View.read?_live hlive))
    hrest

/-- A word of the stack is stored. -/
theorem leads_writeStack {src : Register} {above below : List Word} {old w : Word}
    (hinstr : code.instrs[n]? = some (.store (deref base) src))
    (hlive : v.live = above ++ old :: below) (hbase : v.reg base = stackAddress below.length)
    (hsrc : v.reg src = w) (hrest : code.Leads { v with live := above ++ w :: below } (n + 1) Q) :
    code.Leads v n Q :=
  .instr hinstr (View.perform_store (View.address?_deref_stack hbase)
    (hsrc ▸ View.write?_live hlive _)) hrest

/-! ## Saving -/

/-- The loop of the code that saves the cells. -/
theorem leads_saveLoop {top done : Label} (front : List (UInt32 × UInt32)) {found : List Word}
    (below : List Word) (hlinked : code.Linked) (hat : code.At n (enterCode top done))
    (hv : View.Stores v.board (front ++ rest)) (hfound : found.length = rest.length)
    (hlive : v.live = front.map View.pairWord ++ found ++ below)
    (hrdx : v.regs.rdx = View.pairAddress front.length)
    (hr9 : v.regs.r9 = .stack (-(8 * (found ++ below).length)))
    (hr10 : v.regs.r10 = View.pairAddress (front ++ rest).length)
    (hrest : ∀ v', v.Agrees v' → v'.live = (front ++ rest).map View.pairWord ++ below →
      code.Leads v' (n + 17) Q) : code.Leads v (n + 9) Q := by
  have height : (8 : Int32).toInt64.toInt = 8 := rfl
  induction rest generalizing v front found with
  | nil =>
    rcases v with ⟨⟨rax, rcx, rdx, rbx, rsp, rbp, rsi, rdi, r8, r9, r10, r11, r12, r13, r14, r15⟩,
      flags, live, dead, cells, results⟩
    dsimp only at hrdx hr9 hr10 hlive
    subst hrdx hr9 hr10 hlive
    obtain rfl := List.eq_nil_of_length_eq_zero hfound
    have hplace := hlinked.place_eq (hat 10 _ rfl) rfl (hat 16 _ rfl)
    refine .block (hat.slice 9 1) rfl (.taken (hat 10 _ rfl) rfl ?_ hplace (hrest _ ?_ ?_))
    · simp [Flags.holds, Flags.ofOffsets]
    · exact ⟨⟨rfl, rfl, rfl, rfl⟩, rfl, rfl, rfl, rfl, rfl, rfl⟩
    · simp [View.adopt]
  | cons pair rest ih =>
    rcases v with ⟨⟨rax, rcx, rdx, rbx, rsp, rbp, rsi, rdi, r8, r9, r10, r11, r12, r13, r14, r15⟩,
      flags, live, dead, cells, results⟩
    dsimp only at hrdx hr9 hr10 hlive
    subst hrdx hr9 hr10
    cases found with
    | nil => simp at hfound
    | cons old found =>
      have hplace := hlinked.place_eq (hat 15 _ rfl) rfl (hat 8 _ rfl)
      have hpop : live = front.map View.pairWord ++ old :: (found ++ below) := by simp [hlive]
      refine .block (hat.slice 9 1) rfl (.passed (hat 10 _ rfl) rfl ?_
        (leads_readPair (by decide) (hat 11 _ rfl) hv rfl (leads_writeStack (hat 12 _ rfl) hpop rfl
          rfl (.block (hat.slice 13 2) rfl (.jmp (hat 15 _ rfl) hplace ?_)))))
      · simp [Flags.holds, Flags.ofOffsets]
      have hmoved : View.Stores cells (front ++ [pair] ++ rest) := by
        rw [List.append_assoc]
        exact hv
      refine ih _ hmoved (Nat.succ.inj hfound) ?_ (congrArg Word.board ?_) (congrArg Word.stack ?_)
        ?_ ?_
      · change front.map View.pairWord ++ View.pairWord pair :: (found ++ below) =
          (front ++ [pair]).map View.pairWord ++ found ++ below
        simp
      · rw [height, List.length_append, List.length_singleton]
        push_cast
        omega
      · rw [height, List.cons_append, List.length_cons]
        push_cast
        omega
      · exact congrArg View.pairAddress (by simp)
      · intro v' hagrees hlive'
        refine hrest v' (.trans ?_ hagrees) (by simpa using hlive')
        exact ⟨⟨rfl, rfl, rfl, rfl⟩, rfl, rfl, rfl, rfl, rfl, rfl⟩

/-- The words that a saved board takes on the stack: its head and its cells. -/
def snapshot (board : Board) : List Word :=
  .nat board.headY.toNat :: .nat board.headX.toNat ::
    (cellPairs board.cells.toList).map View.pairWord

/-- The code that saves the board pushes a snapshot. -/
theorem leads_enterCode {top done : Label} (hlinked : code.Linked)
    (hboard : board.WellFormed) (hfits : board.nativeLength < 2 ^ 63)
    (hat : code.At n (enterCode top done)) (hv : v.Carries board)
    (hrest : ∀ v', v.Agrees v' → v'.live = snapshot board ++ v.live → code.Leads v' (n + 19) Q) :
    code.Leads v n Q := by
  have hstores := stores_cellPairs hv
  have hsize := toInt_size hboard hfits
  have h11 := hv.r11
  have h12 := hv.r12
  have hpins := hv
  obtain ⟨hrbx, -, -, h13, h14, -⟩ := hpins
  rcases v with ⟨⟨rax, rcx, rdx, rbx, rsp, rbp, rsi, rdi, r8, r9, r10, r11, r12, r13, r14, r15⟩,
    flags, live, dead, cells, results⟩
  dsimp only at hrbx h11 h12 h13 h14
  subst hrbx h11 h12 h13 h14
  refine .block (hat.slice 0 3) rfl (.reserve (hat 3 _ rfl) rfl hsize ?_)
  intro found hfound
  refine .block (hat.slice 4 4) rfl (.bind (hat 8 _ rfl) (leads_saveLoop [] live hlinked hat
    hstores hfound rfl rfl rfl ?_ ?_))
  · refine congrArg Word.board ?_
    rw [List.nil_append]
    push_cast
    exact congrArg (16 + ·) (hsize.trans (by push_cast; rfl))
  · intro v' hagrees hlive'
    have hx : v'.reg .r11 = .nat board.headX.toNat := hagrees.r11
    have hy : v'.reg .r12 = .nat board.headY.toNat := hagrees.r12
    refine .block (hat.slice 17 2) rfl (hrest _ (.trans (.trans ?_ hagrees) ?_) ?_)
    · exact ⟨⟨rfl, rfl, rfl, rfl⟩, rfl, rfl, rfl, rfl, rfl, rfl⟩
    · exact ⟨⟨rfl, rfl, rfl, rfl⟩, rfl, rfl, rfl, rfl, rfl, rfl⟩
    · change v'.reg .r12 :: v'.reg .r11 :: v'.live = _
      rw [hx, hy, hlive']
      rfl

/-! ## Restoring -/

/-- The loop of the code that restores the cells. -/
theorem leads_restoreLoop {top done : Label} (front : List (UInt32 × UInt32)) (above : List Word)
    {saved : List (UInt32 × UInt32)} (below : List Word) (hlinked : code.Linked)
    (hat : code.At n (leaveCode top done)) (hv : View.Stores v.board (front ++ rest))
    (hsaved : saved.length = rest.length)
    (hlive : v.live = above ++ (saved.map View.pairWord ++ below))
    (hrdx : v.regs.rdx = .stack (-(8 * (saved.map View.pairWord ++ below).length)))
    (hr9 : v.regs.r9 = View.pairAddress front.length)
    (hr10 : v.regs.r10 = View.pairAddress (front ++ rest).length)
    (hrest : ∀ v', View.Agrees { v with board := v'.board } v' → v'.live = v.live →
      v'.dead = v.dead → v'.regs.rdi = v.regs.rdi → View.Stores v'.board (front ++ saved) →
        code.Leads v' (n + 18) Q) : code.Leads v (n + 10) Q := by
  have height : (8 : Int32).toInt64.toInt = 8 := rfl
  induction rest generalizing v front above saved with
  | nil =>
    rcases v with ⟨⟨rax, rcx, rdx, rbx, rsp, rbp, rsi, rdi, r8, r9, r10, r11, r12, r13, r14, r15⟩,
      flags, live, dead, cells, results⟩
    dsimp only at hrdx hr9 hr10 hlive
    subst hrdx hr9 hr10 hlive
    obtain rfl := List.eq_nil_of_length_eq_zero hsaved
    have hplace := hlinked.place_eq (hat 11 _ rfl) rfl (hat 17 _ rfl)
    refine .block (hat.slice 10 1) rfl (.taken (hat 11 _ rfl) rfl ?_ hplace
      (hrest _ ?_ rfl rfl rfl hv))
    · simp [Flags.holds, Flags.ofOffsets]
    · exact ⟨⟨rfl, rfl, rfl, rfl⟩, rfl, rfl, rfl, rfl, rfl, rfl⟩
  | cons old rest ih =>
    rcases v with ⟨⟨rax, rcx, rdx, rbx, rsp, rbp, rsi, rdi, r8, r9, r10, r11, r12, r13, r14, r15⟩,
      flags, live, dead, cells, results⟩
    dsimp only at hrdx hr9 hr10 hlive
    subst hrdx hr9 hr10
    cases saved with
    | nil => simp at hsaved
    | cons pair saved =>
      have hplace := hlinked.place_eq (hat 16 _ rfl) rfl (hat 9 _ rfl)
      refine .block (hat.slice 10 1) rfl (.passed (hat 11 _ rfl) rfl ?_
        (leads_readStack (by decide) (hat 12 _ rfl) hlive rfl
          (leads_writePair pair (hat 13 _ rfl) hv
          rfl rfl (.block (hat.slice 14 2) rfl (.jmp (hat 16 _ rfl) hplace ?_)))))
      · simp [Flags.holds, Flags.ofOffsets]
      have hput : View.Stores (View.putPair cells front.length pair) (front ++ [pair] ++ rest) := by
        rw [List.append_assoc]
        exact hv.put pair
      refine ih _ (above ++ [View.pairWord pair]) hput (Nat.succ.inj hsaved) ?_
        (congrArg Word.stack ?_) (congrArg Word.board ?_) ?_ ?_
      · change live = above ++ [View.pairWord pair] ++ (saved.map View.pairWord ++ below)
        simp [hlive]
      · rw [height, List.map_cons, List.cons_append, List.length_cons]
        push_cast
        omega
      · rw [height, List.length_append, List.length_singleton]
        push_cast
        omega
      · exact congrArg View.pairAddress (by simp)
      · intro v' hagrees hlive' hdead hrdi hstores
        refine hrest v' (.trans ?_ hagrees) hlive' hdead hrdi (by simpa using hstores)
        exact ⟨⟨rfl, rfl, rfl, rfl⟩, rfl, rfl, rfl, rfl, rfl, rfl⟩

/-- The code that restores the board takes over the head and the cells of a snapshot.  No word
of the stack is changed. -/
theorem leads_leaveCode {top done : Label} {saved : Board} {below : List Word}
    (hlinked : code.Linked) (hboard : board.WellFormed) (hfits : board.nativeLength < 2 ^ 63)
    (hwidth : saved.width = board.width) (hheight : saved.height = board.height)
    (hcells : saved.cells.size = board.cells.size)
    (hat : code.At n (leaveCode top done)) (hv : v.Carries board)
    (hlive : v.live = snapshot saved ++ below)
    (hrest : ∀ v', v.Keeps v' → v'.Carries saved → v'.regs.rdi = v.regs.rdi → v'.mem = v.mem →
      below <:+ v'.live → code.Leads v' (n + 18) Q) : code.Leads v n Q := by
  have hstores := stores_cellPairs hv
  have hsize := toInt_size hboard hfits
  have hlength : (cellPairs saved.cells.toList).length = (cellPairs board.cells.toList).length := by
    rw [length_cellPairs, length_cellPairs, Array.length_toList, Array.length_toList, hcells]
  obtain ⟨hrbx, -, -, h13, h14, -⟩ := hv
  rcases v with ⟨⟨rax, rcx, rdx, rbx, rsp, rbp, rsi, rdi, r8, r9, r10, r11, r12, r13, r14, r15⟩,
    flags, live, dead, cells, results⟩
  dsimp only at hrbx h13 h14 hlive
  subst hrbx h13 h14 hlive
  refine .block (hat.slice 0 9) rfl (.bind (hat 9 _ rfl) (leads_restoreLoop [] [] below hlinked hat
    hstores hlength rfl rfl rfl ?_ ?_))
  · refine congrArg Word.board ?_
    rw [List.nil_append]
    push_cast
    exact congrArg (16 + ·) (hsize.trans (by push_cast; rfl))
  · intro v' hagrees hlive' hdead hrdi hstores'
    have hwords : v'.live = (cellPairs saved.cells.toList).map View.pairWord ++ below := hlive'
    have hleft : v'.dead = .nat saved.headX.toNat :: .nat saved.headY.toNat :: dead := hdead
    refine hrest v' ⟨hagrees.rbp, hagrees.rsi, hagrees.r15, hagrees.results⟩
      ⟨hagrees.rbx, hagrees.r11, hagrees.r12, ?_, ?_, ?_⟩ hrdi ?_ ?_
    · exact hwidth ▸ hagrees.r13
    · exact hheight ▸ hagrees.r14
    · have hrestored : View.Stores v'.board (cellPairs saved.cells.toList) := hstores'
      rcases hrestored with ⟨header, hheader, hboard'⟩
      exact ⟨header, hheader, by rw [hboard', unpaired_cellPairs]⟩
    · rw [View.mem, View.mem, hwords, hleft, snapshot]
      simp
    · rw [hwords]
      exact List.suffix_append _ _

end Native
end Gobstones
