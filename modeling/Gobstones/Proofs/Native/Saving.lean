import Gobstones.Proofs.Native.Templates
/-!
# Copies of any board

This module follows the code that clears the board, that saves it and that restores it,
from any counters in memory.  Each access to memory is one to a pair of counters, and the
code that restores the board puts back the pairs that it finds on the stack.

Main definitions:

- {lit}`SavedBoard.Lies`: words of the stack are those of a saved board.

Main results:

- Theorem {lit}`Stage.tames_clearBoard`: the code that clears the board.
- Theorem {lit}`Stage.Tends.enterCode`: what a transaction has found is noted and lies on the
  stack.
- Theorem {lit}`Stage.Tends.leaveCode`: the board that lies on the stack is restored.
-/

namespace Gobstones
namespace Native

/-- Words of the stack are those of a saved board of the size of another one, with its head on
the grid. -/
def SavedBoard.Lies (saved : SavedBoard) (board : Board) (words : List Word) : Prop :=
  ∃ (x y : UInt32) (pairs : List (UInt32 × UInt32)), x < board.width ∧ y < board.height ∧
    pairs.length = 2 * (board.width.toNat * board.height.toNat) ∧
      saved = ⟨unpaired pairs, .nat x.toNat, .nat y.toNat⟩ ∧
        words = .nat y.toNat :: .nat x.toNat :: pairs.map View.pairWord

theorem SavedBoard.Lies.length {saved : SavedBoard} {board : Board} {words : List Word}
    (h : saved.Lies board words) : 8 * words.length = saved.bytes := by
  obtain ⟨x, y, pairs, -, -, -, rfl, rfl⟩ := h
  simp only [bytes, length_unpaired, List.length_cons, List.length_map]
  omega

namespace Stage

variable {stage : Stage} {k n m : Nat} {calls : List OpenCall} {call : OpenCall} {v v' : View}
variable {front back : List (UInt32 × UInt32)} {base : Register} {top done : Label}

/-! ## Pairs of counters -/

/-- Memory holds pairs of counters, two for each cell. -/
theorem exists_stores (hspans : v.Spans stage.board) :
    ∃ pairs, View.Stores v.board pairs ∧
      pairs.length = 2 * (stage.board.width.toNat * stage.board.height.toNat) := by
  have hsize := hspans.size
  rw [← Array.length_toList] at hsize
  have hwords : (v.board.toList.drop 4).length =
      2 * (2 * (stage.board.width.toNat * stage.board.height.toNat)) := by
    rw [List.length_drop]
    omega
  obtain ⟨pairs, hlength, hpairs⟩ := exists_unpaired hwords
  refine ⟨pairs, ⟨v.board.toList.take 4, ?_, ?_⟩, hlength⟩
  · rw [List.length_take]
    omega
  · rw [hpairs, List.take_append_drop]

theorem drop_of_stores {pairs : List (UInt32 × UInt32)} (h : View.Stores v.board pairs) :
    v.board.toList.drop 4 = unpaired pairs := by
  obtain ⟨header, hlength, hboard⟩ := h
  rw [hboard, ← hlength, List.drop_left]

/-- The access to a pair of counters lies in the cells. -/
theorem guardAt_pair {instr : Instr} {pair : UInt32 × UInt32}
    (hinstr : stage.code.instrs[n]? = some instr) (hspans : v.Spans stage.board)
    (haccess : instr.access? = some (deref base, 8)) (hne : base ≠ .rbp ∧ base ≠ .r15)
    (hbase : v.reg base = View.pairAddress front.length)
    (hlength : (front ++ pair :: back).length =
      2 * (stage.board.width.toNat * stage.board.height.toNat)) : stage.GuardAt calls v n := by
  refine guardAt_of_access hinstr hspans haccess hne fun offset haddress => ?_
  rw [View.address?_deref hbase] at haddress
  obtain rfl := Word.board.inj (Option.some.inj haddress)
  rw [List.length_append, List.length_cons] at hlength
  omega

/-- A pair of counters is loaded. -/
theorem Tends.readPair {dst : Register} {pair : UInt32 × UInt32} (hdst : dst.isScratch = true)
    (hinstr : stage.code.instrs[n]? = some (.load dst (deref base)))
    (hne : base ≠ .rbp ∧ base ≠ .r15)
    (hspans : v.Spans stage.board) (hstores : View.Stores v.board (front ++ pair :: back))
    (hlength : (front ++ pair :: back).length =
      2 * (stage.board.width.toNat * stage.board.height.toNat))
    (hbase : v.reg base = View.pairAddress front.length)
    (hrest : stage.Soon k calls (v.setReg dst (View.pairWord pair)) (n + 1)) :
    stage.Tends k calls v n := by
  have hrsp : dst ≠ .rsp := by
    rintro rfl
    cases hdst
  exact .instr hinstr (View.perform_load hrsp (View.address?_deref hbase) hstores.read)
    (guardAt_pair hinstr hspans rfl hne hbase hlength) (isUnnoted_of_isQuiet hdst) hrest

/-- A pair of counters is stored. -/
theorem Tends.writePair {src : Register} {old : UInt32 × UInt32} (pair : UInt32 × UInt32)
    (hinstr : stage.code.instrs[n]? = some (.store (deref base) src))
    (hne : base ≠ .rbp ∧ base ≠ .r15)
    (hspans : v.Spans stage.board) (hstores : View.Stores v.board (front ++ old :: back))
    (hlength : (front ++ old :: back).length =
      2 * (stage.board.width.toNat * stage.board.height.toNat))
    (hbase : v.reg base = View.pairAddress front.length) (hsrc : v.reg src = View.pairWord pair)
    (hrest : ∀ board, View.Stores board (front ++ pair :: back) → board.size = v.board.size →
      stage.Soon k calls (v.adopt { v.cpu with board }) (n + 1)) : stage.Tends k calls v n := by
  have hput := hstores.put pair
  refine .instr hinstr (View.perform_store (View.address?_deref hbase) (hsrc ▸ hstores.write pair))
    (guardAt_pair hinstr hspans rfl hne hbase hlength) (decide_eq_true hne.1) (hrest _ hput ?_)
  rw [View.putPair, Array.size_setIfInBounds, Array.size_setIfInBounds]

/-- A word of the stack is loaded. -/
theorem Tends.readStack {dst : Register} {above below : List Word} {w : Word}
    (hdst : dst.isScratch = true) (hinstr : stage.code.instrs[n]? = some (.load dst (deref base)))
    (hne : base ≠ .rbp ∧ base ≠ .r15) (hspans : v.Spans stage.board)
    (hlive : v.live = above ++ w :: below)
    (hbase : v.reg base = stackAddress below.length)
    (hrest : stage.Soon k calls (v.setReg dst w) (n + 1)) : stage.Tends k calls v n := by
  have hrsp : dst ≠ .rsp := by
    rintro rfl
    cases hdst
  have haddress := View.address?_deref_stack hbase
  refine .instr hinstr (View.perform_load hrsp haddress (View.read?_live hlive))
    (guardAt_of_access hinstr hspans rfl hne fun offset haddress' => ?_)
    (isUnnoted_of_isQuiet hdst) hrest
  cases haddress.symm.trans haddress'

/-- A word of the stack is stored. -/
theorem Tends.writeStack {src : Register} {above below : List Word} {old w : Word}
    (hinstr : stage.code.instrs[n]? = some (.store (deref base) src))
    (hne : base ≠ .rbp ∧ base ≠ .r15)
    (hspans : v.Spans stage.board) (hlive : v.live = above ++ old :: below)
    (hbase : v.reg base = stackAddress below.length) (hsrc : v.reg src = w)
    (hrest : stage.Soon k calls { v with live := above ++ w :: below } (n + 1)) :
    stage.Tends k calls v n := by
  have haddress := View.address?_deref_stack hbase
  refine .instr hinstr (View.perform_store haddress (hsrc ▸ View.write?_live hlive _))
    (guardAt_of_access hinstr hspans rfl hne fun offset haddress' => ?_)
    (decide_eq_true hne.1) hrest
  cases haddress.symm.trans haddress'

/-- The memory of the board has been changed, but not its size. -/
theorem spans_board {board : Array UInt32} (hspans : v.Spans stage.board)
    (hsize : board.size = v.board.size) : (v.adopt { v.cpu with board }).Spans stage.board :=
  ⟨hspans.rbx, hspans.r11, hspans.r12, hspans.r13, hspans.r14, hsize.trans hspans.size⟩

/-- The number of bytes of all pairs of counters. -/
theorem toInt_pairs (hfits : stage.board.nativeLength < 2 ^ 63) (hboard : stage.board.WellFormed) :
    ((Int64.ofNat stage.board.width.toNat * Int64.ofNat stage.board.height.toNat).toUInt64 <<<
      (4 : UInt8).toUInt64).toInt64.toInt =
        (8 * (2 * (stage.board.width.toNat * stage.board.height.toNat)) : Nat) := by
  have hsize : stage.board.cells.size =
    stage.board.width.toNat * stage.board.height.toNat := hboard.size_cells
  rw [toInt_size hboard hfits, length_cellPairs, Array.length_toList, hsize]

/-! ## Clearing -/

/-- The loop of the code that clears the board. -/
theorem Soon.clearLoop (front : List (UInt32 × UInt32)) (hlinked : stage.code.Linked)
    (hat : stage.code.At n (clearBoardCode top done)) (hspans : v.Spans stage.board)
    (hstores : View.Stores v.board (front ++ back)) (hlength : (front ++ back).length =
      2 * (stage.board.width.toNat * stage.board.height.toNat))
    (hrdx : v.regs.rdx = View.pairAddress front.length)
    (hr10 : v.regs.r10 = View.pairAddress (front ++ back).length) (hrcx : v.regs.rcx = .int 0)
    (hrest : ∀ v', v.Keeps v' → v'.Spans stage.board → v'.live = v.live →
      stage.Soon k calls v' (n + 14)) : stage.Soon k calls v (n + 8) := by
  have height : (8 : Int32).toInt64.toInt = 8 := rfl
  induction back generalizing v front with
  | nil =>
    rcases v with ⟨⟨rax, rcx, rdx, rbx, rsp, rbp, rsi, rdi, r8, r9, r10, r11, r12, r13, r14, r15⟩,
      flags, live, dead, cells, results⟩
    dsimp only at hrdx hr10 hrcx
    subst hrdx hr10 hrcx
    have hplace := hlinked.place_eq (hat 9 _ rfl) rfl (hat 13 _ rfl)
    refine .block (hat.slice 8 1) rfl rfl hspans fun hrecomputes => ?_
    have hspans' := hrecomputes.agrees.spans hspans
    refine (Tends.taken (hat 9 _ rfl) rfl ?_ hplace (guardAt_of_isHarmless (hat 9 _ rfl) hspans' rfl)
      (hrest _ hrecomputes.agrees.toKeeps hspans' rfl)).soon
    simp [Flags.holds, Flags.ofOffsets]
  | cons pair back ih =>
    rcases v with ⟨⟨rax, rcx, rdx, rbx, rsp, rbp, rsi, rdi, r8, r9, r10, r11, r12, r13, r14, r15⟩,
      flags, live, dead, cells, results⟩
    dsimp only at hrdx hr10 hrcx
    subst hrdx hr10 hrcx
    have hplace := hlinked.place_eq (hat 12 _ rfl) rfl (hat 7 _ rfl)
    refine .block (hat.slice 8 1) rfl rfl hspans fun hrecomputes => ?_
    have hspans₁ := hrecomputes.agrees.spans hspans
    refine (Tends.passed (hat 9 _ rfl) rfl ?_ (guardAt_of_isHarmless (hat 9 _ rfl) hspans₁ rfl)
      (Tends.writePair (0, 0) (hat 10 _ rfl) (by decide) hspans₁ hstores hlength rfl rfl
        fun board hput hsize => ?_).soon).soon
    · simp [Flags.holds, Flags.ofOffsets]
    have hspans₂ := spans_board hspans₁ hsize
    refine .block (hat.slice 11 1) rfl rfl hspans₂ fun hrecomputes' => ?_
    have hspans₃ := hrecomputes'.agrees.spans hspans₂
    refine (Tends.jmp (hat 12 _ rfl) hplace (guardAt_of_isHarmless (hat 12 _ rfl) hspans₃ rfl)
      ?_).soon
    have hput : View.Stores board (front ++ [(0, 0)] ++ back) := by
      rw [List.append_assoc]
      exact hput
    refine ih (front ++ [(0, 0)]) hspans₃ hput (by simpa using hlength) (congrArg Word.board ?_)
      (congrArg View.pairAddress (by simp)) rfl ?_
    · rw [height, List.length_append, List.length_singleton]
      push_cast
      omega
    · intro v' hkeeps
      refine hrest v' (.trans ?_ hkeeps)
      exact ⟨rfl, rfl, rfl, rfl⟩

section Copies

variable (hfits : stage.board.nativeLength < 2 ^ 63) (hboard : stage.board.WellFormed)
variable (hlinked : stage.code.Linked)
include hfits hboard hlinked

theorem tames_clearBoard : stage.Tames (clearBoardCode top done) 0 0 := by
  intro k calls v n words rest hat hspans hlive hlength _ hrest
  obtain rfl := List.eq_nil_of_length_eq_zero hlength
  obtain ⟨pairs, hstores, hpairs⟩ := exists_stores hspans
  have hsize := toInt_pairs hfits hboard
  have hrbx := hspans.rbx
  have h13 := hspans.r13
  have h14 := hspans.r14
  rcases v with ⟨⟨rax, rcx, rdx, rbx, rsp, rbp, rsi, rdi, r8, r9, r10, r11, r12, r13, r14, r15⟩,
    flags, live, dead, cells, results⟩
  dsimp only at hrbx h13 h14
  subst hrbx h13 h14
  refine .block (hat.slice 0 7) rfl rfl hspans fun hrecomputes => (Tends.bind (hat 7 _ rfl)
    (guardAt_of_isHarmless (hat 7 _ rfl) (hrecomputes.agrees.spans hspans) rfl)
      (.clearLoop [] hlinked hat (hrecomputes.agrees.spans hspans) hstores hpairs rfl ?_ rfl
        fun v' hkeeps hspans' hlive' => ?_)).soon
  · refine congrArg Word.board ?_
    rw [List.nil_append, hpairs]
    push_cast
    exact congrArg (16 + ·) (hsize.trans (by push_cast; rfl))
  · exact hrest v' [] (hrecomputes.agrees.toKeeps.trans hkeeps) hspans' (hlive'.trans hlive) rfl

/-! ## Saving -/

omit hfits hboard in
/-- The loop of the code that saves the cells. -/
theorem Soon.saveLoop (front : List (UInt32 × UInt32)) {found : List Word} (below : List Word)
    (hat : stage.code.At n (enterCode top done)) (hspans : v.Spans stage.board)
    (hstores : View.Stores v.board (front ++ back)) (hlength : (front ++ back).length =
      2 * (stage.board.width.toNat * stage.board.height.toNat))
    (hfound : found.length = back.length)
    (hlive : v.live = front.map View.pairWord ++ found ++ below)
    (hrdx : v.regs.rdx = View.pairAddress front.length)
    (hr9 : v.regs.r9 = .stack (-(8 * (found ++ below).length)))
    (hr10 : v.regs.r10 = View.pairAddress (front ++ back).length)
    (hrest : ∀ v', v.Agrees v' → v'.live = (front ++ back).map View.pairWord ++ below →
      stage.Soon k calls v' (n + 17)) : stage.Soon k calls v (n + 9) := by
  have height : (8 : Int32).toInt64.toInt = 8 := rfl
  induction back generalizing v front found with
  | nil =>
    rcases v with ⟨⟨rax, rcx, rdx, rbx, rsp, rbp, rsi, rdi, r8, r9, r10, r11, r12, r13, r14, r15⟩,
      flags, live, dead, cells, results⟩
    dsimp only at hrdx hr9 hr10 hlive
    subst hrdx hr9 hr10 hlive
    obtain rfl := List.eq_nil_of_length_eq_zero hfound
    have hplace := hlinked.place_eq (hat 10 _ rfl) rfl (hat 16 _ rfl)
    refine .block (hat.slice 9 1) rfl rfl hspans fun hrecomputes => ?_
    refine (Tends.taken (hat 10 _ rfl) rfl ?_ hplace (guardAt_of_isHarmless (hat 10 _ rfl)
      (hrecomputes.agrees.spans hspans) rfl) (hrest _ hrecomputes.agrees ?_)).soon
    · simp [Flags.holds, Flags.ofOffsets]
    · simp [View.adopt]
  | cons pair back ih =>
    rcases v with ⟨⟨rax, rcx, rdx, rbx, rsp, rbp, rsi, rdi, r8, r9, r10, r11, r12, r13, r14, r15⟩,
      flags, live, dead, cells, results⟩
    dsimp only at hrdx hr9 hr10 hlive
    subst hrdx hr9 hr10
    cases found with
    | nil => simp at hfound
    | cons old found =>
      have hplace := hlinked.place_eq (hat 15 _ rfl) rfl (hat 8 _ rfl)
      have hpop : live = front.map View.pairWord ++ old :: (found ++ below) := by simp [hlive]
      refine .block (hat.slice 9 1) rfl rfl hspans fun hrecomputes => ?_
      have hspans₁ := hrecomputes.agrees.spans hspans
      refine (Tends.passed (hat 10 _ rfl) rfl ?_ (guardAt_of_isHarmless (hat 10 _ rfl) hspans₁ rfl)
        (Tends.readPair rfl (hat 11 _ rfl) (by decide) hspans₁ hstores hlength rfl
          (Tends.writeStack (hat 12 _ rfl) (by decide) ?_ hpop rfl rfl ?_).soon).soon).soon
      · simp [Flags.holds, Flags.ofOffsets]
      · exact ⟨hspans.rbx, hspans.r11, hspans.r12, hspans.r13, hspans.r14, hspans.size⟩
      refine .block (hat.slice 13 2) rfl rfl ?_ fun hrecomputes' => ?_
      · exact ⟨hspans.rbx, hspans.r11, hspans.r12, hspans.r13, hspans.r14, hspans.size⟩
      have hspans₂ := hrecomputes'.agrees.spans
        ⟨hspans.rbx, hspans.r11, hspans.r12, hspans.r13, hspans.r14, hspans.size⟩
      refine (Tends.jmp (hat 15 _ rfl) hplace (guardAt_of_isHarmless (hat 15 _ rfl) hspans₂ rfl)
        ?_).soon
      have hmoved : View.Stores cells (front ++ [pair] ++ back) := by
        rw [List.append_assoc]
        exact hstores
      refine ih (front ++ [pair]) hspans₂ hmoved (by simpa using hlength) (Nat.succ.inj hfound) ?_
        (congrArg Word.board ?_) (congrArg Word.stack ?_) (congrArg View.pairAddress (by simp)) ?_
      · change front.map View.pairWord ++ View.pairWord pair :: (found ++ below) =
          (front ++ [pair]).map View.pairWord ++ found ++ below
        simp
      · rw [height, List.length_append, List.length_singleton]
        push_cast
        omega
      · rw [height, List.cons_append, List.length_cons]
        push_cast
        omega
      · intro v' hagrees hlive'
        refine hrest v' (.trans ?_ hagrees) (by simpa using hlive')
        exact ⟨⟨rfl, rfl, rfl, rfl⟩, rfl, rfl, rfl, rfl, rfl, rfl⟩

/-- The code that saves the board notes it and leaves it on the stack. -/
theorem Tends.enterCode (hat : stage.code.At n (enterCode top done)) (hspans : v.Spans stage.board)
    (hrest : ∀ v' saved words, saved.Lies stage.board words → v.Agrees v' →
      v'.live = words ++ v.live →
        stage.Soon k ({ call with saved := some saved } :: calls) v' (n + 19)) :
    stage.Tends k (call :: calls) v n := by
  obtain ⟨pairs, hstores, hpairs⟩ := exists_stores hspans
  obtain ⟨x, hx, h11⟩ := hspans.r11
  obtain ⟨y, hy, h12⟩ := hspans.r12
  have hsize := toInt_pairs hfits hboard
  have hrbx := hspans.rbx
  have h13 := hspans.r13
  have h14 := hspans.r14
  have hlies : (SavedBoard.mk (v.board.toList.drop 4) (v.reg .r11) (v.reg .r12)).Lies stage.board
      (.nat y.toNat :: .nat x.toNat :: pairs.map View.pairWord) := by
    refine ⟨x, y, pairs, hx, hy, hpairs, ?_, rfl⟩
    rw [drop_of_stores hstores, ← h11, ← h12]
    rfl
  rcases v with ⟨⟨rax, rcx, rdx, rbx, rsp, rbp, rsi, rdi, r8, r9, r10, r11, r12, r13, r14, r15⟩,
    flags, live, dead, cells, results⟩
  dsimp only at hrbx h11 h12 h13 h14
  subst hrbx h11 h12 h13 h14
  refine .block (hat.slice 0 3) rfl rfl hspans fun hrecomputes => (Tends.reserve (hat 3 _ rfl) rfl
    hsize (guardAt_of_isHarmless (hat 3 _ rfl) (hrecomputes.agrees.spans hspans) rfl)
      fun found hfound => ?_).soon
  refine .block (hat.slice 4 4) rfl rfl ?_ fun hrecomputes' => (Tends.bind (hat 8 _ rfl)
    (guardAt_of_isHarmless (hat 8 _ rfl) (hrecomputes'.agrees.spans ?_) rfl)
    (.saveLoop hlinked [] live hat (hrecomputes'.agrees.spans ?_) hstores hpairs (hfound.trans
      hpairs.symm) rfl rfl rfl ?_ ?_)).soon
  · exact ⟨hspans.rbx, hspans.r11, hspans.r12, hspans.r13, hspans.r14, hspans.size⟩
  · exact ⟨hspans.rbx, hspans.r11, hspans.r12, hspans.r13, hspans.r14, hspans.size⟩
  · exact ⟨hspans.rbx, hspans.r11, hspans.r12, hspans.r13, hspans.r14, hspans.size⟩
  · refine congrArg Word.board ?_
    rw [List.nil_append, hpairs]
    push_cast
    exact congrArg (16 + ·) (hsize.trans (by push_cast; rfl))
  · intro v' hagrees hlive'
    have hx : v'.reg .r11 = .nat x.toNat := hagrees.r11
    have hy : v'.reg .r12 = .nat y.toNat := hagrees.r12
    have hspans' := hagrees.spans (hrecomputes'.agrees.spans
      ⟨hspans.rbx, hspans.r11, hspans.r12, hspans.r13, hspans.r14, hspans.size⟩)
    refine (Tends.instr (hat 17 _ rfl) rfl (guardAt_of_isHarmless (hat 17 _ rfl) hspans' rfl) rfl
      (Tends.instr (hat 18 _ rfl) rfl (guardAt_of_isHarmless (hat 18 _ rfl)
        ((v'.agrees_push _).spans hspans') rfl) rfl (hrest _ _ _ hlies (.trans (.trans ?_ hagrees) ?_)
          ?_)).soon).soon
    · exact ⟨⟨rfl, rfl, rfl, rfl⟩, rfl, rfl, rfl, rfl, rfl, rfl⟩
    · exact (v'.agrees_push _).trans (View.agrees_push _ _)
    · change v'.reg .r12 :: v'.reg .r11 :: v'.live = _
      rw [hx, hy, hlive']
      rfl

/-! ## Restoring -/

omit hfits hboard in
/-- The loop of the code that restores the cells. -/
theorem Soon.restoreLoop (front : List (UInt32 × UInt32)) (above : List Word)
    {saved : List (UInt32 × UInt32)} (below : List Word)
    (hat : stage.code.At n (leaveCode top done)) (hspans : v.Spans stage.board)
    (hstores : View.Stores v.board (front ++ back)) (hlength : (front ++ back).length =
      2 * (stage.board.width.toNat * stage.board.height.toNat))
    (hsaved : saved.length = back.length)
    (hlive : v.live = above ++ (saved.map View.pairWord ++ below))
    (hrdx : v.regs.rdx = .stack (-(8 * (saved.map View.pairWord ++ below).length)))
    (hr9 : v.regs.r9 = View.pairAddress front.length)
    (hr10 : v.regs.r10 = View.pairAddress (front ++ back).length)
    (hrest : ∀ v', View.Agrees { v with board := v'.board } v' → v'.live = v.live →
      v'.regs.rdi = v.regs.rdi → View.Stores v'.board (front ++ saved) →
        stage.Soon k calls v' (n + 18)) : stage.Soon k calls v (n + 10) := by
  have height : (8 : Int32).toInt64.toInt = 8 := rfl
  induction back generalizing v front above saved with
  | nil =>
    rcases v with ⟨⟨rax, rcx, rdx, rbx, rsp, rbp, rsi, rdi, r8, r9, r10, r11, r12, r13, r14, r15⟩,
      flags, live, dead, cells, results⟩
    dsimp only at hrdx hr9 hr10 hlive
    subst hrdx hr9 hr10 hlive
    obtain rfl := List.eq_nil_of_length_eq_zero hsaved
    have hplace := hlinked.place_eq (hat 11 _ rfl) rfl (hat 17 _ rfl)
    refine .block (hat.slice 10 1) rfl rfl hspans fun hrecomputes => ?_
    refine (Tends.taken (hat 11 _ rfl) rfl ?_ hplace (guardAt_of_isHarmless (hat 11 _ rfl)
      (hrecomputes.agrees.spans hspans) rfl) (hrest _ ?_ rfl rfl hstores)).soon
    · simp [Flags.holds, Flags.ofOffsets]
    · exact ⟨⟨rfl, rfl, rfl, rfl⟩, rfl, rfl, rfl, rfl, rfl, rfl⟩
  | cons old back ih =>
    rcases v with ⟨⟨rax, rcx, rdx, rbx, rsp, rbp, rsi, rdi, r8, r9, r10, r11, r12, r13, r14, r15⟩,
      flags, live, dead, cells, results⟩
    dsimp only at hrdx hr9 hr10 hlive
    subst hrdx hr9 hr10
    cases saved with
    | nil => simp at hsaved
    | cons pair saved =>
      have hplace := hlinked.place_eq (hat 16 _ rfl) rfl (hat 9 _ rfl)
      refine .block (hat.slice 10 1) rfl rfl hspans fun hrecomputes => ?_
      have hspans₁ := hrecomputes.agrees.spans hspans
      refine (Tends.passed (hat 11 _ rfl) rfl ?_ (guardAt_of_isHarmless (hat 11 _ rfl) hspans₁ rfl)
        (Tends.readStack rfl (hat 12 _ rfl) (by decide) hspans₁ hlive rfl ?_).soon).soon
      · simp [Flags.holds, Flags.ofOffsets]
      refine Tends.soon (.writePair pair (hat 13 _ rfl) (by decide) ?_ hstores hlength rfl rfl
        fun board hput hsize => ?_)
      · exact ⟨hspans.rbx, hspans.r11, hspans.r12, hspans.r13, hspans.r14, hspans.size⟩
      refine .block (hat.slice 14 2) rfl rfl ?_ fun hrecomputes' => ?_
      · exact ⟨hspans.rbx, hspans.r11, hspans.r12, hspans.r13, hspans.r14, hsize.trans hspans.size⟩
      have hspans₂ := hrecomputes'.agrees.spans
        ⟨hspans.rbx, hspans.r11, hspans.r12, hspans.r13, hspans.r14, hsize.trans hspans.size⟩
      refine (Tends.jmp (hat 16 _ rfl) hplace (guardAt_of_isHarmless (hat 16 _ rfl) hspans₂ rfl)
        ?_).soon
      have hput : View.Stores board (front ++ [pair] ++ back) := by
        rw [List.append_assoc]
        exact hput
      refine ih (front ++ [pair]) (above ++ [View.pairWord pair]) hspans₂ hput
        (by simpa using hlength) (Nat.succ.inj hsaved) ?_ (congrArg Word.stack ?_)
        (congrArg Word.board ?_) (congrArg View.pairAddress (by simp)) ?_
      · change live = above ++ [View.pairWord pair] ++ (saved.map View.pairWord ++ below)
        simp [hlive]
      · rw [height, List.map_cons, List.cons_append, List.length_cons]
        push_cast
        omega
      · rw [height, List.length_append, List.length_singleton]
        push_cast
        omega
      · intro v' hagrees hlive' hrdi hstores'
        refine hrest v' (.trans ?_ hagrees) hlive' hrdi (by simpa using hstores')
        exact ⟨⟨rfl, rfl, rfl, rfl⟩, rfl, rfl, rfl, rfl, rfl, rfl⟩

/-- The code that restores the board puts back what a transaction has found. -/
theorem Tends.leaveCode {saved : SavedBoard} {words below : List Word}
    (hat : stage.code.At n (leaveCode top done)) (hspans : v.Spans stage.board)
    (hlies : saved.Lies stage.board words) (hlive : v.live = words ++ below)
    (hrest : ∀ v', v.Keeps v' → v'.Spans stage.board → v'.board.toList.drop 4 = saved.cells →
      v'.reg .r11 = saved.x → v'.reg .r12 = saved.y → v'.regs.rdi = v.regs.rdi →
        below <:+ v'.live →
          stage.Soon k ({ call with leaving := true } :: calls) v' (n + 18)) :
    stage.Tends k (call :: calls) v n := by
  obtain ⟨pairs, hstores, hpairs⟩ := exists_stores hspans
  obtain ⟨x, y, found, hx, hy, hfound, rfl, rfl⟩ := hlies
  have hsize := toInt_pairs hfits hboard
  have hrbx := hspans.rbx
  have h13 := hspans.r13
  have h14 := hspans.r14
  rcases v with ⟨⟨rax, rcx, rdx, rbx, rsp, rbp, rsi, rdi, r8, r9, r10, r11, r12, r13, r14, r15⟩,
    flags, live, dead, cells, results⟩
  dsimp only at hrbx h13 h14 hlive
  subst hrbx h13 h14 hlive
  -- The head is taken from the stack first.
  have hspans₁ : (View.mk ⟨rax, rcx, rdx, .board 16, rsp, rbp, rsi, rdi, r8, r9, r10, r11,
      .nat y.toNat, .nat stage.board.width.toNat, .nat stage.board.height.toNat, r15⟩ flags
      (.nat x.toNat :: (found.map View.pairWord ++ below)) (.nat y.toNat :: dead) cells
      results).Spans stage.board :=
    ⟨rfl, hspans.r11, ⟨y, hy, rfl⟩, rfl, rfl, hspans.size⟩
  have hspans₂ : (View.mk ⟨rax, rcx, rdx, .board 16, rsp, rbp, rsi, rdi, r8, r9, r10,
      .nat x.toNat, .nat y.toNat, .nat stage.board.width.toNat, .nat stage.board.height.toNat,
      r15⟩ flags (found.map View.pairWord ++ below) (.nat x.toNat :: .nat y.toNat :: dead) cells
      results).Spans stage.board :=
    ⟨rfl, ⟨x, hx, rfl⟩, ⟨y, hy, rfl⟩, rfl, rfl, hspans.size⟩
  have hnote (p p' : Processor) : noteCalls p p' (.pop .r12) (call :: calls) =
      { call with leaving := true } :: calls := rfl
  refine .noted (hat 0 _ rfl) rfl (guardAt_of_isHarmless (hat 0 _ rfl) hspans rfl)
    (fun p p' _ => hnote p p') (Tends.instr (hat 1 _ rfl) rfl (guardAt_of_isHarmless (hat 1 _ rfl)
      hspans₁ rfl) rfl (.block (hat.slice 2 7) rfl rfl hspans₂ fun hrecomputes => ?_)).soon
  have hspans₃ := hrecomputes.agrees.spans hspans₂
  refine (Tends.bind (hat 9 _ rfl) (guardAt_of_isHarmless (hat 9 _ rfl) hspans₃ rfl)
    (.restoreLoop hlinked [] [] below hat hspans₃ hstores hpairs (hfound.trans hpairs.symm) rfl rfl
      rfl ?_ fun v' hagrees hlive' hrdi hstores' => ?_)).soon
  · refine congrArg Word.board ?_
    rw [List.nil_append, hpairs]
    push_cast
    exact congrArg (16 + ·) (hsize.trans (by push_cast; rfl))
  · obtain ⟨hagrees, hrbx, h11, h12, h13, h14, -⟩ := hagrees
    have hspans' : v'.Spans stage.board := by
      refine ⟨hrbx, ⟨x, hx, h11⟩, ⟨y, hy, h12⟩, h13, h14, ?_⟩
      obtain ⟨header, hheader, hboard⟩ := hstores'
      rw [← Array.length_toList, hboard, List.length_append, hheader, length_unpaired,
        List.nil_append]
      omega
    have hwords : v'.live = found.map View.pairWord ++ below := hlive'
    exact hrest v' ⟨hagrees.rbp, hagrees.rsi, hagrees.r15, hagrees.results⟩ hspans'
      (drop_of_stores hstores') h11 h12 hrdi (hwords ▸ List.suffix_append _ _)

end Copies

end Stage
end Native
end Gobstones
