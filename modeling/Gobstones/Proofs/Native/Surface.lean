import Gobstones.Proofs.Native.Computing
/-!
# Code that works on the board

This module follows the code of builtins that read or change the board.  The color or
direction on top of the stack selects a counter or an arm of a switch.

Main definitions:

- {lit}`Answers`: code replaces arguments by a result that depends on the board.
- {lit}`Changes`: code takes its arguments off the stack and changes the board.

Main results:

- Theorem {lit}`exists_arm`: a switch leads to one of its arms.
- Theorems {lit}`changes_putStone`, {lit}`changes_takeStone`, {lit}`changes_move`,
  {lit}`changes_goToBoundary`, {lit}`changes_goToOrigin` and {lit}`changes_clearBoard`.
- Theorems {lit}`answers_numStones`, {lit}`answers_existStones` and {lit}`answers_canMove`.
-/

namespace Gobstones
namespace Native

/-- Code replaces arguments on the stack by a result that depends on the board. -/
def Answers (instrs : List Instr) (board : Board) (args : List Word) (result : Word) : Prop :=
  ∀ (code : NativeCode) (v : View) (n : Nat) (rest : List Word), code.Linked →
    code.At n instrs → v.Carries board → v.live = args ++ rest →
      code.Leads v n fun v' n' =>
        n' = n + instrs.length ∧ v.Agrees v' ∧ v'.live = result :: rest

/-- Code takes its arguments off the stack and changes the board. -/
def Changes (instrs : List Instr) (board : Board) (args : List Word) (next : Board) : Prop :=
  ∀ (code : NativeCode) (v : View) (n : Nat) (rest : List Word), code.Linked →
    code.At n instrs → v.Carries board → v.live = args ++ rest →
      code.Leads v n fun v' n' =>
        n' = n + instrs.length ∧ v.Keeps v' ∧ v'.Carries next ∧ v'.live = rest

/-- Code branches to a label on a board. -/
def Breaks (instrs : List Instr) (board : Board) (args : List Word) (label : Label) : Prop :=
  ∀ (code : NativeCode) (v : View) (n : Nat) (rest : List Word), code.Linked →
    code.At n instrs → v.Carries board → v.live = args ++ rest →
      code.Leads v n fun v' n' =>
        code.place label = some n' ∧ v.Keeps v' ∧ rest <:+ v'.live

variable {code : NativeCode} {v : View} {n : Nat} {board : Board}

/-! ## Switches -/

/-- An instruction behind a piece of code. -/
theorem at_concat {instrs : List Instr} {instr : Instr} {m : Nat} (hat : code.At n instrs)
    (hinstr : code.instrs[m]? = some instr) (hm : m = n + instrs.length) :
    code.At n (instrs ++ [instr]) :=
  NativeCode.at_append_iff.2
    ⟨hat, NativeCode.at_cons_iff.2 ⟨hm ▸ hinstr, NativeCode.at_nil⟩⟩

/-- The parts of a switch: comparisons with three numbers, and four arms, each behind its label
and in front of a jump to the end. -/
theorem exists_arms {labels : SwitchLabels} {arm0 arm1 arm2 arm3 : List Instr}
    (hlinked : code.Linked) (hat : code.At n (switchCode .rcx labels arm0 arm1 arm2 arm3)) :
    code.At n [.aluImm .cmp .rcx 0, .jcc .e labels.case0, .aluImm .cmp .rcx 1,
        .jcc .e labels.case1, .aluImm .cmp .rcx 2, .jcc .e labels.case2, .jmp labels.case3] ∧
      code.place labels.done =
        some (n + (switchCode .rcx labels arm0 arm1 arm2 arm3).length) ∧
      ∀ arm label, (arm, label) ∈ [(arm0, labels.case0), (arm1, labels.case1),
          (arm2, labels.case2), (arm3, labels.case3)] →
        ∃ m, code.place label = some m ∧ code.At m (arm ++ [.jmp labels.done]) := by
  have hdone : n + (switchCode .rcx labels arm0 arm1 arm2 arm3).length =
      n + 1 + 1 + 1 + 1 + 1 + 1 + 1 + 1 + (arm0.length + (arm1.length + 1 + 1) +
        (arm2.length + 1 + 1) + (arm3.length + 1 + 1)) + 1 + 1 := by
    simp only [switchCode, List.length_append, List.length_cons, List.length_nil]
    omega
  have hhead : code.At n [.aluImm .cmp .rcx 0, .jcc .e labels.case0, .aluImm .cmp .rcx 1,
      .jcc .e labels.case1, .aluImm .cmp .rcx 2, .jcc .e labels.case2, .jmp labels.case3] := by
    simp only [switchCode, List.append_assoc] at hat
    exact (NativeCode.at_append_iff.1 hat).1
  rw [hdone]
  simp only [switchCode, NativeCode.at_append_iff, NativeCode.at_cons_iff, NativeCode.at_nil,
    List.length_append, List.length_cons, and_true, List.cons_append, List.nil_append,
    and_assoc] at hat
  obtain ⟨-, hj0, -, hj1, -, hj2, hj3, hb0, ha0, he0, hb1, ha1, he1, hb2, ha2, he2, hb3, ha3,
    he3, hend⟩ := hat
  refine ⟨hhead, hlinked.place_eq he0 rfl hend, fun arm label hmem => ?_⟩
  simp only [List.mem_cons, Prod.mk.injEq, List.not_mem_nil, or_false] at hmem
  rcases hmem with ⟨rfl, rfl⟩ | ⟨rfl, rfl⟩ | ⟨rfl, rfl⟩ | ⟨rfl, rfl⟩
  · exact ⟨_, hlinked.place_eq hj0 rfl hb0, at_concat ha0 he0 rfl⟩
  · exact ⟨_, hlinked.place_eq hj1 rfl hb1, at_concat ha1 he1 (by omega)⟩
  · exact ⟨_, hlinked.place_eq hj2 rfl hb2, at_concat ha2 he2 (by omega)⟩
  · exact ⟨_, hlinked.place_eq hj3 rfl hb3, at_concat ha3 he3 (by omega)⟩

/-- A switch leads to one of its arms, behind which a jump leads to its end. -/
theorem exists_arm {labels : SwitchLabels} {arm arm0 arm1 arm2 arm3 : List Instr} {i : Nat}
    (hlinked : code.Linked) (hat : code.At n (switchCode .rcx labels arm0 arm1 arm2 arm3))
    (harm : [arm0, arm1, arm2, arm3][i]? = some arm) :
    ∃ m, code.At m (arm ++ [.jmp labels.done]) ∧
      code.place labels.done =
        some (n + (switchCode .rcx labels arm0 arm1 arm2 arm3).length) ∧
      ∀ (v : View) (Q : View → Nat → Prop), v.regs.rcx = .nat i →
        (∀ flags, code.Leads { v with regs := v.regs.set .rsp v.top, flags } m Q) →
          code.Leads v n Q := by
  obtain ⟨hhead, hplace, harms⟩ := exists_arms hlinked hat
  rcases i with _ | _ | _ | _ | i
  · obtain rfl := Option.some.inj harm
    obtain ⟨m, hm, harm⟩ := harms arm0 labels.case0 (by simp)
    refine ⟨m, harm, hplace, ?_⟩
    rintro ⟨⟨rax, -, rdx, rbx, rsp, rbp, rsi, rdi, r8, r9, r10, r11, r12, r13, r14, r15⟩, flags,
      live, dead, cells, results⟩ Q rfl hrest
    exact .block (hhead.slice 0 1) rfl (.taken (hhead 1 _ rfl) rfl rfl hm (hrest _))
  · obtain rfl := Option.some.inj harm
    obtain ⟨m, hm, harm⟩ := harms arm1 labels.case1 (by simp)
    refine ⟨m, harm, hplace, ?_⟩
    rintro ⟨⟨rax, -, rdx, rbx, rsp, rbp, rsi, rdi, r8, r9, r10, r11, r12, r13, r14, r15⟩, flags,
      live, dead, cells, results⟩ Q rfl hrest
    exact .block (hhead.slice 0 1) rfl (.passed (hhead 1 _ rfl) rfl rfl (.block (hhead.slice 2 1)
      rfl (.taken (hhead 3 _ rfl) rfl rfl hm (hrest _))))
  · obtain rfl := Option.some.inj harm
    obtain ⟨m, hm, harm⟩ := harms arm2 labels.case2 (by simp)
    refine ⟨m, harm, hplace, ?_⟩
    rintro ⟨⟨rax, -, rdx, rbx, rsp, rbp, rsi, rdi, r8, r9, r10, r11, r12, r13, r14, r15⟩, flags,
      live, dead, cells, results⟩ Q rfl hrest
    exact .block (hhead.slice 0 1) rfl (.passed (hhead 1 _ rfl) rfl rfl (.block (hhead.slice 2 1)
      rfl (.passed (hhead 3 _ rfl) rfl rfl (.block (hhead.slice 4 1) rfl
        (.taken (hhead 5 _ rfl) rfl rfl hm (hrest _))))))
  · obtain rfl := Option.some.inj harm
    obtain ⟨m, hm, harm⟩ := harms arm3 labels.case3 (by simp)
    refine ⟨m, harm, hplace, ?_⟩
    rintro ⟨⟨rax, -, rdx, rbx, rsp, rbp, rsi, rdi, r8, r9, r10, r11, r12, r13, r14, r15⟩, flags,
      live, dead, cells, results⟩ Q rfl hrest
    exact .block (hhead.slice 0 1) rfl (.passed (hhead 1 _ rfl) rfl rfl (.block (hhead.slice 2 1)
      rfl (.passed (hhead 3 _ rfl) rfl rfl (.block (hhead.slice 4 1) rfl
        (.passed (hhead 5 _ rfl) rfl rfl (.jmp (hhead 6 _ rfl) hm (hrest _)))))))
  · simp at harm

/-! ## Counters -/

section Counters

variable (color : Color) (hboard : board.WellFormed) (hfits : board.nativeLength < 2 ^ 63)
include hboard hfits

/-- A color is taken off the stack, and the address of its counter under the head is
computed. -/
theorem leads_cellAddress {Q : View → Nat → Prop} {rest : List Word}
    (hat : code.At n (.pop .rcx :: cellAddress)) (hv : v.Carries board)
    (hlive : v.live = .nat color.index :: rest)
    (hrest : ∀ v', v.Agrees v' → v'.live = rest → v'.regs.rcx = .nat color.index →
      v'.regs.rax = .board (4 * board.counterIndex color : Nat) → code.Leads v' (n + 10) Q) :
    code.Leads v n Q := by
  have hindex := hboard.headIndex_lt
  have hcell : ((Int64.ofNat board.width.toNat * Int64.ofNat board.headY.toNat +
      Int64.ofNat board.headX.toNat).toUInt64 <<< (4 : UInt8).toUInt64).toInt64.toInt =
        (16 * board.headIndex : Nat) := by
    rw [← Int64.ofNat_mul, ← Int64.ofNat_add, Nat.mul_comm board.width.toNat]
    refine toInt_shl_four (n := board.headIndex) ?_
    simp only [Board.nativeLength, Board.headerSize, Board.cellSize] at hfits
    omega
  have hcounter : ((Int64.ofNat color.index &&& (3 : Int32).toInt64).toUInt64 <<<
      (2 : UInt8).toUInt64).toInt64.toInt = 4 * color.index := by
    cases color <;> rfl
  obtain ⟨hrbx, h11, h12, h13, h14, hcells⟩ := hv
  rcases v with ⟨⟨rax, rcx, rdx, rbx, rsp, rbp, rsi, rdi, r8, r9, r10, r11, r12, r13, r14, r15⟩,
    flags, live, dead, cells, results⟩
  dsimp only at hrbx h11 h12 h13 h14 hlive
  subst hrbx h11 h12 h13 h14 hlive
  refine .block hat rfl (hrest _ ?_ rfl rfl ?_)
  · exact ⟨⟨rfl, rfl, rfl, rfl⟩, rfl, rfl, rfl, rfl, rfl, rfl⟩
  · refine congrArg Word.board (Eq.trans (congrArg₂ (fun a b => a + 16 + b) hcell hcounter) ?_)
    rw [Board.counterIndex]
    push_cast
    omega

omit hboard hfits in
theorem carries_record (hv : v.Carries board) (change : Change) :
    v.Carries (board.record change) :=
  ⟨hv.rbx, hv.r11, hv.r12, hv.r13, hv.r14, hv.cells⟩

omit hfits in
/-- The counter of a color under the head is loaded. -/
theorem leads_loadCounter {Q : View → Nat → Prop} {dst : Register} (hdst : dst ≠ .rsp)
    (hinstr : code.instrs[n]? = some (.load32 dst (deref .rax))) (hv : v.Carries board)
    (hrax : v.regs.rax = .board (4 * board.counterIndex color : Nat))
    (hrest :
      code.Leads (v.adopt (v.cpu.setReg dst (.nat (board.numStones color).toNat))) (n + 1) Q) :
    code.Leads v n Q :=
  .instr hinstr (View.perform_load32 hdst (View.address?_deref hrax) (hv.counter hboard color))
    hrest

omit hfits in
/-- The counter of a color under the head is stored. -/
theorem leads_storeCounter {Q : View → Nat → Prop} {f : Cell → Cell} {m : Int64}
    (hinstr : code.instrs[n]? = some (.store32 (deref .rax) .rdx)) (hv : v.Carries board)
    (hrax : v.regs.rax = .board (4 * board.counterIndex color : Nat))
    (hrdx : v.regs.rdx = .int m)
    (hf : f board.here = board.here.setCount color m.toUInt64.toUInt32)
    (hrest : ∀ v', v.Keeps v' → v'.Carries (board.modifyHere f) → v'.live = v.live →
      code.Leads v' (n + 1) Q) : code.Leads v n Q := by
  obtain ⟨hlt, -⟩ := Array.getElem?_eq_some_iff.1 (hv.counter hboard color)
  refine .instr hinstr (View.perform_store32 (View.address?_deref hrax) hlt hrdx)
    (hrest _ ⟨rfl, rfl, rfl, rfl⟩ ?_ rfl)
  refine View.Agrees.carries ?_ (hv.setCount hf)
  exact ⟨⟨rfl, rfl, rfl, rfl⟩, rfl, rfl, rfl, rfl, rfl, rfl⟩

theorem changes_putStone :
    Changes putStoneCode board [.nat color.index] (board.put color 1) := by
  intro code v n rest _ hat hv hlive
  refine leads_cellAddress color hboard hfits (hat.slice 0 10) hv hlive ?_
  intro v' hagrees hlive _ hrax
  have hv' := hagrees.carries hv
  have hsum : (Int64.ofNat (board.numStones color).toNat + (1 : Int32).toInt64).toUInt64.toUInt32 =
      board.numStones color + 1 := by
    have hone : (1 : Int32).toInt64 = Int64.ofNat 1 := rfl
    rw [hone, ← Int64.ofNat_add, toUInt32_ofNat, UInt32.ofNat_add, UInt32.ofNat_toNat]
    rfl
  refine leads_loadCounter color hboard (by decide) (hat 10 _ rfl) hv' hrax
    (.block (hat.slice 11 1) rfl ?_)
  refine leads_storeCounter color hboard (f := (·.add color 1)) (hat 12 _ rfl)
    (View.Agrees.carries ?_ hv') hrax rfl ?_ ?_
  · exact ⟨⟨rfl, rfl, rfl, rfl⟩, rfl, rfl, rfl, rfl, rfl, rfl⟩
  · rw [Cell.add, hsum]
    rfl
  · intro v'' hkeeps hcarries hlive''
    refine .done ⟨rfl, .trans hagrees.toKeeps (.trans ?_ hkeeps), carries_record hcarries _, ?_⟩
    · exact ⟨rfl, rfl, rfl, rfl⟩
    · exact hlive''.trans hlive

theorem answers_numStones :
    Answers numStonesCode board [.nat color.index] (.nat (board.numStones color).toNat) := by
  intro code v n rest _ hat hv hlive
  refine leads_cellAddress color hboard hfits (hat.slice 0 10) hv hlive ?_
  intro v' hagrees hlive _ hrax
  refine leads_loadCounter color hboard (by decide) (hat 10 _ rfl) (hagrees.carries hv) hrax
    (.block (hat.slice 11 1) rfl (.done ⟨rfl, .trans hagrees ?_, congrArg (_ :: ·) hlive⟩))
  exact ⟨⟨rfl, rfl, rfl, rfl⟩, rfl, rfl, rfl, rfl, rfl, rfl⟩

omit hboard hfits in
/-- The flags of a counter tell whether there are stones. -/
theorem holds_ne_numStones (board : Board) (color : Color) :
    (Flags.ofBits (Int64.ofNat (board.numStones color).toNat &&&
      Int64.ofNat (board.numStones color).toNat)).holds .ne = board.existStones color := by
  have hself : Int64.ofNat (board.numStones color).toNat &&&
      Int64.ofNat (board.numStones color).toNat = Int64.ofNat (board.numStones color).toNat :=
    Int64.and_self
  have hlt := (board.numStones color).toNat_lt
  have hzero := ofNat_eq_zero_iff (n := (board.numStones color).toNat) (by omega)
  have hpos : (0 < board.numStones color) ↔ ¬(board.numStones color).toNat = 0 := by
    rw [UInt32.lt_iff_toNat_lt, UInt32.toNat_zero]
    omega
  simp only [Flags.holds, Flags.ofBits, hself, Board.existStones]
  rw [decide_eq_decide.2 hzero, decide_eq_decide.2 hpos, decide_not]

theorem answers_existStones :
    Answers existStonesCode board [.nat color.index]
      (.int (if board.existStones color = true then 1 else 0)) := by
  intro code v n rest _ hat hv hlive
  refine leads_cellAddress color hboard hfits (hat.slice 0 10) hv hlive ?_
  intro v' hagrees hlive _ hrax
  have hflag := holds_ne_numStones board color
  refine leads_loadCounter color hboard (by decide) (hat 10 _ rfl) (hagrees.carries hv) hrax
    (.block (hat.slice 11 4) rfl (.done ⟨rfl, .trans hagrees ?_, ?_⟩))
  · exact ⟨⟨rfl, rfl, rfl, rfl⟩, rfl, rfl, rfl, rfl, rfl, rfl⟩
  · refine congrArg₂ (fun w rest => Word.int w :: rest) ?_ hlive
    exact (flag_word (.nat (board.numStones color).toNat) _).trans (by rw [hflag])

omit hboard hfits in
theorem existStones_iff (board : Board) (color : Color) :
    board.existStones color = true ↔ ¬board.numStones color < 1 := by
  rw [Board.existStones, decide_eq_true_iff, UInt32.lt_iff_toNat_lt, UInt32.lt_iff_toNat_lt,
    UInt32.toNat_zero, UInt32.toNat_one]
  omega

section Take

variable {enough : Label} {labels : SwitchLabels} {fault0 fault1 fault2 fault3 : Label}

theorem changes_takeStone {next : Board} (hnext : board.take color 1 = .ok next) :
    Changes (takeStoneCode enough labels fault0 fault1 fault2 fault3) board [.nat color.index]
      next := by
  intro code v n rest hlinked hat hv hlive
  refine leads_cellAddress color hboard hfits (hat.slice 0 10) hv hlive ?_
  intro v' hagrees hlive _ hrax
  have hv' := hagrees.carries hv
  have hflag := holds_ne_numStones board color
  rw [Board.take_eq] at hnext
  split at hnext
  · simp at hnext
  · next hnot =>
    obtain rfl := Except.ok.inj hnext
    rw [(existStones_iff board color).2 hnot] at hflag
    have hdifference : (Int64.ofNat (board.numStones color).toNat -
        (1 : Int32).toInt64).toUInt64.toUInt32 = board.numStones color - 1 := by
      rw [UInt32.lt_iff_toNat_lt, UInt32.toNat_one] at hnot
      have hone : (1 : Int32).toInt64 = Int64.ofNat 1 := rfl
      rw [hone, ← Int64.ofNat_sub _ _ (by omega), toUInt32_ofNat]
      apply UInt32.toNat_inj.1
      rw [UInt32.toNat_sub_of_le _ _ (UInt32.le_iff_toNat_le.2 (by rw [UInt32.toNat_one]; omega)),
        UInt32.toNat_ofNat', UInt32.toNat_one]
      have hlt := (board.numStones color).toNat_lt
      omega
    have hplace := hlinked.place_eq (hat 12 _ rfl) rfl (hat 33 _ rfl)
    refine leads_loadCounter color hboard (by decide) (hat 10 _ rfl) hv' hrax
      (.block (hat.slice 11 1) rfl (.taken (hat 12 _ rfl) rfl hflag hplace
        (.block (hat.slice 34 1) rfl ?_)))
    refine leads_storeCounter color hboard (f := (·.remove color 1)) (hat 35 _ rfl)
      (View.Agrees.carries ?_ hv') hrax rfl ?_ ?_
    · exact ⟨⟨rfl, rfl, rfl, rfl⟩, rfl, rfl, rfl, rfl, rfl, rfl⟩
    · rw [Cell.remove, hdifference]
      rfl
    · intro v'' hkeeps hcarries hlive''
      refine .done ⟨rfl, .trans hagrees.toKeeps (.trans ?_ hkeeps), carries_record hcarries _, ?_⟩
      · exact ⟨rfl, rfl, rfl, rfl⟩
      · exact hlive''.trans hlive

/-- A take fails only when there are no stones at all. -/
theorem breaks_takeStone {label : Label} (hnone : board.numStones color < 1)
    (hlabel : [fault0, fault1, fault2, fault3][color.index]? = some label) :
    Breaks (takeStoneCode enough labels fault0 fault1 fault2 fault3) board [.nat color.index]
      label := by
  intro code v n rest hlinked hat hv hlive
  refine leads_cellAddress color hboard hfits (hat.slice 0 10) hv hlive ?_
  intro v' hagrees hlive hrcx hrax
  have hv' := hagrees.carries hv
  have hflag := holds_ne_numStones board color
  have hexist : board.existStones color = false := by
    rw [← Bool.not_eq_true, existStones_iff]
    exact not_not_intro hnone
  rw [hexist] at hflag
  refine leads_loadCounter color hboard (by decide) (hat 10 _ rfl) hv' hrax
    (.block (hat.slice 11 1) rfl (.passed (hat 12 _ rfl) rfl hflag ?_))
  have harm : [[Instr.jmp fault0], [.jmp fault1], [.jmp fault2], [.jmp fault3]][color.index]? =
      some [.jmp label] := by
    have hmap := congrArg (Option.map fun label => [Instr.jmp label]) hlabel
    rw [← List.getElem?_map] at hmap
    exact hmap
  obtain ⟨m, hjmp, -, hswitch⟩ := exists_arm hlinked (hat.slice 13 20) harm
  obtain ⟨j, -, hplace⟩ := hlinked.exists_place (hjmp 0 _ rfl) rfl
  refine hswitch _ _ hrcx fun flags => .jmp (hjmp 0 _ rfl) hplace (.done ⟨hplace, ?_, ?_⟩)
  · exact .trans hagrees.toKeeps ⟨rfl, rfl, rfl, rfl⟩
  · exact hlive ▸ List.suffix_refl _

end Take

end Counters

/-! ## The head -/

/-- The position one step away. -/
theorem target?_one (hboard : board.WellFormed) (direction : Direction) :
    board.target? direction 1 =
      match direction with
      | .north =>
        if board.headY.toNat + 1 < board.height.toNat then
          some (board.headX, UInt32.ofNat (board.headY.toNat + 1)) else none
      | .east =>
        if board.headX.toNat + 1 < board.width.toNat then
          some (UInt32.ofNat (board.headX.toNat + 1), board.headY) else none
      | .south =>
        if board.headY.toNat = 0 then none
        else some (board.headX, UInt32.ofNat (board.headY.toNat - 1))
      | .west =>
        if board.headX.toNat = 0 then none
        else some (UInt32.ofNat (board.headX.toNat - 1), board.headY) := by
  have hx := UInt32.lt_iff_toNat_lt.1 hboard.headX_lt
  have hy := UInt32.lt_iff_toNat_lt.1 hboard.headY_lt
  have hwidth := board.width.toNat_lt
  have hheight := board.height.toNat_lt
  cases direction with
  | north | east =>
    simp only [Board.target?, Direction.delta, UInt32.toNat_one]
    split
    · next h =>
      rw [if_pos (by omega)]
      refine congrArg some (Prod.ext ?_ ?_) <;> apply UInt32.toNat_inj.1 <;>
        simp only [UInt32.toNat_ofNat'] <;> omega
    · next h => rw [if_neg (by omega)]
  | south | west =>
    simp only [Board.target?, Direction.delta, UInt32.toNat_one]
    split
    · next h =>
      rw [if_neg (by omega)]
      refine congrArg some (Prod.ext ?_ ?_) <;> apply UInt32.toNat_inj.1 <;>
        simp only [UInt32.toNat_ofNat'] <;> omega
    · next h => rw [if_pos (by omega)]

/-- A coordinate after one step is compared with its bound. -/
theorem succ_lt_iff (c b : UInt32) :
    Int64.ofNat c.toNat + (1 : Int32).toInt64 < Int64.ofNat b.toNat ↔ c.toNat + 1 < b.toNat := by
  have hc := c.toNat_lt
  have hb := b.toNat_lt
  have hone : (1 : Int32).toInt64 = Int64.ofNat 1 := rfl
  rw [hone, ← Int64.ofNat_add, ofNat_lt_iff (by omega) (by omega)]

/-- A coordinate is compared with zero. -/
theorem and_self_eq_zero_iff (c : UInt32) :
    Int64.ofNat c.toNat &&& Int64.ofNat c.toNat = 0 ↔ c.toNat = 0 := by
  have hc := c.toNat_lt
  have hself : Int64.ofNat c.toNat &&& Int64.ofNat c.toNat = Int64.ofNat c.toNat := Int64.and_self
  rw [hself, ofNat_eq_zero_iff (by omega)]

/-- A coordinate that has been increased below its bound. -/
theorem nat_succ {c b : UInt32} (h : c.toNat + 1 < b.toNat) :
    Word.int (Int64.ofNat c.toNat + (1 : Int32).toInt64) =
      .nat (UInt32.ofNat (c.toNat + 1)).toNat := by
  have hb := b.toNat_lt
  have hone : (1 : Int32).toInt64 = Int64.ofNat 1 := rfl
  rw [UInt32.toNat_ofNat', Nat.mod_eq_of_lt (by omega), hone, ← Int64.ofNat_add]
  rfl

/-- A coordinate other than zero that has been decreased. -/
theorem nat_pred {c : UInt32} (h : c.toNat ≠ 0) :
    Word.int (Int64.ofNat c.toNat - (1 : Int32).toInt64) =
      .nat (UInt32.ofNat (c.toNat - 1)).toNat := by
  have hc := c.toNat_lt
  have hone : (1 : Int32).toInt64 = Int64.ofNat 1 := rfl
  rw [UInt32.toNat_ofNat', Nat.mod_eq_of_lt (by omega), hone, ← Int64.ofNat_sub _ _ (by omega)]
  rfl

/-- The head can move when the next coordinate lies on the grid. -/
theorem canMove_eq (hboard : board.WellFormed) (direction : Direction) :
    board.canMove direction =
      match direction with
      | .north => decide (board.headY.toNat + 1 < board.height.toNat)
      | .east => decide (board.headX.toNat + 1 < board.width.toNat)
      | .south => !decide (board.headY.toNat = 0)
      | .west => !decide (board.headX.toNat = 0) := by
  rw [Board.canMove, target?_one hboard]
  cases direction with
  | north | east | south | west =>
    dsimp only
    split <;> simp_all

theorem answers_canMove (hboard : board.WellFormed) (direction : Direction)
    {labels : SwitchLabels} :
    Answers (canMoveCode labels) board [.nat direction.index]
      (.int (if board.canMove direction = true then 1 else 0)) := by
  intro code v n rest hlinked hat hv hlive
  obtain ⟨hrbx, h11, h12, h13, h14, hcells⟩ := hv
  rcases v with ⟨⟨rax, rcx, rdx, rbx, rsp, rbp, rsi, rdi, r8, r9, r10, r11, r12, r13, r14, r15⟩,
    flags, live, dead, cells, results⟩
  dsimp only at hrbx h11 h12 h13 h14 hlive
  subst hrbx h11 h12 h13 h14 hlive
  have hat' : code.At (n + 1) (switchCode .rcx labels (belowBoundCode .r12 .r14)
    (belowBoundCode .r11 .r13) (aboveZeroCode .r12) (aboveZeroCode .r11)) := hat.slice 1 28
  refine .block (hat.slice 0 1) rfl ?_
  cases direction with
  | north =>
    obtain ⟨m, harm, hplace, hswitch⟩ := exists_arm hlinked hat' (i := 0) rfl
    refine hswitch _ _ rfl fun flags => .block (harm.slice 0 4) rfl
      (.jmp (harm 4 _ rfl) hplace (.block (hat.slice 29 2) rfl (.done ⟨rfl, ?_, ?_⟩)))
    · exact ⟨⟨rfl, rfl, rfl, rfl⟩, rfl, rfl, rfl, rfl, rfl, rfl⟩
    · refine congrArg (fun w => Word.int w :: rest) ((flag_word _ _).trans ?_)
      rw [canMove_eq hboard, ← decide_eq_decide.2 (succ_lt_iff board.headY board.height)]
      rfl
  | east =>
    obtain ⟨m, harm, hplace, hswitch⟩ := exists_arm hlinked hat' (i := 1) rfl
    refine hswitch _ _ rfl fun flags => .block (harm.slice 0 4) rfl
      (.jmp (harm 4 _ rfl) hplace (.block (hat.slice 29 2) rfl (.done ⟨rfl, ?_, ?_⟩)))
    · exact ⟨⟨rfl, rfl, rfl, rfl⟩, rfl, rfl, rfl, rfl, rfl, rfl⟩
    · refine congrArg (fun w => Word.int w :: rest) ((flag_word _ _).trans ?_)
      rw [canMove_eq hboard, ← decide_eq_decide.2 (succ_lt_iff board.headX board.width)]
      rfl
  | south =>
    obtain ⟨m, harm, hplace, hswitch⟩ := exists_arm hlinked hat' (i := 2) rfl
    refine hswitch _ _ rfl fun flags => .block (harm.slice 0 2) rfl
      (.jmp (harm 2 _ rfl) hplace (.block (hat.slice 29 2) rfl (.done ⟨rfl, ?_, ?_⟩)))
    · exact ⟨⟨rfl, rfl, rfl, rfl⟩, rfl, rfl, rfl, rfl, rfl, rfl⟩
    · refine congrArg (fun w => Word.int w :: rest) ((flag_word _ _).trans ?_)
      rw [canMove_eq hboard, ← decide_eq_decide.2 (and_self_eq_zero_iff board.headY)]
      rfl
  | west =>
    obtain ⟨m, harm, hplace, hswitch⟩ := exists_arm hlinked hat' (i := 3) rfl
    refine hswitch _ _ rfl fun flags => .block (harm.slice 0 2) rfl
      (.jmp (harm 2 _ rfl) hplace (.block (hat.slice 29 2) rfl (.done ⟨rfl, ?_, ?_⟩)))
    · exact ⟨⟨rfl, rfl, rfl, rfl⟩, rfl, rfl, rfl, rfl, rfl, rfl⟩
    · refine congrArg (fun w => Word.int w :: rest) ((flag_word _ _).trans ?_)
      rw [canMove_eq hboard, ← decide_eq_decide.2 (and_self_eq_zero_iff board.headX)]
      rfl

section Move

variable {labels : SwitchLabels} {fault0 fault1 fault2 fault3 : Label}

theorem changes_move (hboard : board.WellFormed) {direction : Direction} {next : Board}
    (hnext : board.moveHead direction 1 = .ok next) :
    Changes (moveCode labels fault0 fault1 fault2 fault3) board [.nat direction.index] next := by
  intro code v n rest hlinked hat hv hlive
  obtain ⟨hrbx, h11, h12, h13, h14, hcells⟩ := hv
  rcases v with ⟨⟨rax, rcx, rdx, rbx, rsp, rbp, rsi, rdi, r8, r9, r10, r11, r12, r13, r14, r15⟩,
    flags, live, dead, cells, results⟩
  dsimp only at hrbx h11 h12 h13 h14 hlive
  subst hrbx h11 h12 h13 h14 hlive
  have hat' : code.At (n + 1) (switchCode .rcx labels (stepUpCode .r12 .r14 fault0)
    (stepUpCode .r11 .r13 fault1) (stepDownCode .r12 fault2) (stepDownCode .r11 fault3)) :=
    hat.slice 1 32
  refine .block (hat.slice 0 1) rfl ?_
  obtain ⟨x, y, htarget, rfl⟩ := Board.moveHead_eq_ok hnext
  rw [target?_one hboard] at htarget
  cases direction with
  | north =>
    obtain ⟨hlt, hposition⟩ := Option.ite_none_right_eq_some.1 htarget
    obtain ⟨rfl, rfl⟩ := Prod.mk.inj (Option.some.inj hposition)
    obtain ⟨m, harm, hplace, hswitch⟩ := exists_arm hlinked hat' (i := 0) rfl
    refine hswitch _ _ rfl fun flags => .block (harm.slice 0 3) rfl (.passed (harm 3 _ rfl) rfl ?_
      (.block (harm.slice 4 1) rfl (.jmp (harm 5 _ rfl) hplace (.done ⟨rfl, ?_, ?_, rfl⟩))))
    · exact congrArg not (decide_eq_true ((succ_lt_iff board.headY board.height).2 hlt))
    · exact ⟨rfl, rfl, rfl, rfl⟩
    · exact ⟨rfl, rfl, nat_succ hlt, rfl, rfl, hcells⟩
  | east =>
    obtain ⟨hlt, hposition⟩ := Option.ite_none_right_eq_some.1 htarget
    obtain ⟨rfl, rfl⟩ := Prod.mk.inj (Option.some.inj hposition)
    obtain ⟨m, harm, hplace, hswitch⟩ := exists_arm hlinked hat' (i := 1) rfl
    refine hswitch _ _ rfl fun flags => .block (harm.slice 0 3) rfl (.passed (harm 3 _ rfl) rfl ?_
      (.block (harm.slice 4 1) rfl (.jmp (harm 5 _ rfl) hplace (.done ⟨rfl, ?_, ?_, rfl⟩))))
    · exact congrArg not (decide_eq_true ((succ_lt_iff board.headX board.width).2 hlt))
    · exact ⟨rfl, rfl, rfl, rfl⟩
    · exact ⟨rfl, nat_succ hlt, rfl, rfl, rfl, hcells⟩
  | south =>
    obtain ⟨hne, hposition⟩ := Option.ite_none_left_eq_some.1 htarget
    obtain ⟨rfl, rfl⟩ := Prod.mk.inj (Option.some.inj hposition)
    obtain ⟨m, harm, hplace, hswitch⟩ := exists_arm hlinked hat' (i := 2) rfl
    refine hswitch _ _ rfl fun flags => .block (harm.slice 0 1) rfl (.passed (harm 1 _ rfl) rfl ?_
      (.block (harm.slice 2 1) rfl (.jmp (harm 3 _ rfl) hplace (.done ⟨rfl, ?_, ?_, rfl⟩))))
    · exact decide_eq_false fun heq => hne ((and_self_eq_zero_iff board.headY).1 heq)
    · exact ⟨rfl, rfl, rfl, rfl⟩
    · exact ⟨rfl, rfl, nat_pred hne, rfl, rfl, hcells⟩
  | west =>
    obtain ⟨hne, hposition⟩ := Option.ite_none_left_eq_some.1 htarget
    obtain ⟨rfl, rfl⟩ := Prod.mk.inj (Option.some.inj hposition)
    obtain ⟨m, harm, hplace, hswitch⟩ := exists_arm hlinked hat' (i := 3) rfl
    refine hswitch _ _ rfl fun flags => .block (harm.slice 0 1) rfl (.passed (harm 1 _ rfl) rfl ?_
      (.block (harm.slice 2 1) rfl (.jmp (harm 3 _ rfl) hplace (.done ⟨rfl, ?_, ?_, rfl⟩))))
    · exact decide_eq_false fun heq => hne ((and_self_eq_zero_iff board.headX).1 heq)
    · exact ⟨rfl, rfl, rfl, rfl⟩
    · exact ⟨rfl, nat_pred hne, rfl, rfl, rfl, hcells⟩

/-- A move fails when the next position does not lie on the grid. -/
theorem breaks_move (hboard : board.WellFormed) {direction : Direction} {label : Label}
    (hnone : board.target? direction 1 = none)
    (hlabel : [fault0, fault1, fault2, fault3][direction.index]? = some label) :
    Breaks (moveCode labels fault0 fault1 fault2 fault3) board [.nat direction.index] label := by
  intro code v n rest hlinked hat hv hlive
  obtain ⟨hrbx, h11, h12, h13, h14, hcells⟩ := hv
  rcases v with ⟨⟨rax, rcx, rdx, rbx, rsp, rbp, rsi, rdi, r8, r9, r10, r11, r12, r13, r14, r15⟩,
    flags, live, dead, cells, results⟩
  dsimp only at hrbx h11 h12 h13 h14 hlive
  subst hrbx h11 h12 h13 h14 hlive
  have hat' : code.At (n + 1) (switchCode .rcx labels (stepUpCode .r12 .r14 fault0)
    (stepUpCode .r11 .r13 fault1) (stepDownCode .r12 fault2) (stepDownCode .r11 fault3)) :=
    hat.slice 1 32
  refine .block (hat.slice 0 1) rfl ?_
  rw [target?_one hboard] at hnone
  cases direction with
  | north =>
    obtain rfl := Option.some.inj hlabel
    have hlt : ¬board.headY.toNat + 1 < board.height.toNat := by simpa using hnone
    obtain ⟨m, harm, -, hswitch⟩ := exists_arm hlinked hat' (i := 0) rfl
    obtain ⟨j, -, hplace⟩ := hlinked.exists_place (harm 3 _ rfl) rfl
    refine hswitch _ _ rfl fun flags => .block (harm.slice 0 3) rfl
      (.taken (harm 3 _ rfl) rfl ?_ hplace
      (.done ⟨hplace, ⟨rfl, rfl, rfl, rfl⟩, List.suffix_refl _⟩))
    exact congrArg not (decide_eq_false (mt (succ_lt_iff board.headY board.height).1 hlt))
  | east =>
    obtain rfl := Option.some.inj hlabel
    have hlt : ¬board.headX.toNat + 1 < board.width.toNat := by simpa using hnone
    obtain ⟨m, harm, -, hswitch⟩ := exists_arm hlinked hat' (i := 1) rfl
    obtain ⟨j, -, hplace⟩ := hlinked.exists_place (harm 3 _ rfl) rfl
    refine hswitch _ _ rfl fun flags => .block (harm.slice 0 3) rfl
      (.taken (harm 3 _ rfl) rfl ?_ hplace
      (.done ⟨hplace, ⟨rfl, rfl, rfl, rfl⟩, List.suffix_refl _⟩))
    exact congrArg not (decide_eq_false (mt (succ_lt_iff board.headX board.width).1 hlt))
  | south =>
    obtain rfl := Option.some.inj hlabel
    have hzero : board.headY.toNat = 0 := by simpa using hnone
    obtain ⟨m, harm, -, hswitch⟩ := exists_arm hlinked hat' (i := 2) rfl
    obtain ⟨j, -, hplace⟩ := hlinked.exists_place (harm 1 _ rfl) rfl
    refine hswitch _ _ rfl fun flags => .block (harm.slice 0 1) rfl
      (.taken (harm 1 _ rfl) rfl ?_ hplace
      (.done ⟨hplace, ⟨rfl, rfl, rfl, rfl⟩, List.suffix_refl _⟩))
    exact decide_eq_true ((and_self_eq_zero_iff board.headY).2 hzero)
  | west =>
    obtain rfl := Option.some.inj hlabel
    have hzero : board.headX.toNat = 0 := by simpa using hnone
    obtain ⟨m, harm, -, hswitch⟩ := exists_arm hlinked hat' (i := 3) rfl
    obtain ⟨j, -, hplace⟩ := hlinked.exists_place (harm 1 _ rfl) rfl
    refine hswitch _ _ rfl fun flags => .block (harm.slice 0 1) rfl
      (.taken (harm 1 _ rfl) rfl ?_ hplace
      (.done ⟨hplace, ⟨rfl, rfl, rfl, rfl⟩, List.suffix_refl _⟩))
    exact decide_eq_true ((and_self_eq_zero_iff board.headX).2 hzero)

end Move

/-! ## Jumps of the head -/

theorem changes_goToOrigin : Changes goToOriginCode board [] board.goToOrigin := by
  intro code v n rest _ hat hv hlive
  rcases v with ⟨regs, flags, live, dead, cells, results⟩
  refine .block hat rfl (.done ⟨rfl, ⟨rfl, rfl, rfl, rfl⟩, ?_, hlive⟩)
  exact ⟨hv.rbx, rfl, rfl, hv.r13, hv.r14, hv.cells⟩

/-- The last coordinate of a side of the grid. -/
theorem nat_last {b : UInt32} (h : 0 < b) :
    Word.int (Int64.ofNat b.toNat - (1 : Int32).toInt64) = .nat (b - 1).toNat := by
  have hpos := UInt32.lt_iff_toNat_lt.1 h
  rw [UInt32.toNat_zero] at hpos
  have hone : (1 : Int32).toInt64 = Int64.ofNat 1 := rfl
  rw [UInt32.toNat_sub_of_le _ _ (UInt32.le_iff_toNat_le.2 (by rw [UInt32.toNat_one]; omega)),
    UInt32.toNat_one, hone, ← Int64.ofNat_sub _ _ (by omega)]
  rfl

theorem changes_goToBoundary (hboard : board.WellFormed) (direction : Direction)
    {labels : SwitchLabels} :
    Changes (goToBoundaryCode labels) board [.nat direction.index]
      (board.goToBoundary direction) := by
  intro code v n rest hlinked hat hv hlive
  obtain ⟨hrbx, h11, h12, h13, h14, hcells⟩ := hv
  rcases v with ⟨⟨rax, rcx, rdx, rbx, rsp, rbp, rsi, rdi, r8, r9, r10, r11, r12, r13, r14, r15⟩,
    flags, live, dead, cells, results⟩
  dsimp only at hrbx h11 h12 h13 h14 hlive
  subst hrbx h11 h12 h13 h14 hlive
  have hat' : code.At (n + 1) (switchCode .rcx labels [.mov .r12 .r14, .aluImm .sub .r12 1]
    [.mov .r11 .r13, .aluImm .sub .r11 1] [.alu .xor .r12 .r12] [.alu .xor .r11 .r11]) :=
    hat.slice 1 22
  refine .block (hat.slice 0 1) rfl ?_
  cases direction with
  | north =>
    obtain ⟨m, harm, hplace, hswitch⟩ := exists_arm hlinked hat' (i := 0) rfl
    refine hswitch _ _ rfl fun flags => .block (harm.slice 0 2) rfl
      (.jmp (harm 2 _ rfl) hplace (.done ⟨rfl, ⟨rfl, rfl, rfl, rfl⟩, ?_, rfl⟩))
    exact ⟨rfl, rfl, nat_last hboard.height_pos, rfl, rfl, hcells⟩
  | east =>
    obtain ⟨m, harm, hplace, hswitch⟩ := exists_arm hlinked hat' (i := 1) rfl
    refine hswitch _ _ rfl fun flags => .block (harm.slice 0 2) rfl
      (.jmp (harm 2 _ rfl) hplace (.done ⟨rfl, ⟨rfl, rfl, rfl, rfl⟩, ?_, rfl⟩))
    exact ⟨rfl, nat_last hboard.width_pos, rfl, rfl, rfl, hcells⟩
  | south =>
    obtain ⟨m, harm, hplace, hswitch⟩ := exists_arm hlinked hat' (i := 2) rfl
    refine hswitch _ _ rfl fun flags => .block (harm.slice 0 1) rfl
      (.jmp (harm 1 _ rfl) hplace (.done ⟨rfl, ⟨rfl, rfl, rfl, rfl⟩, ?_, rfl⟩))
    exact ⟨rfl, rfl, rfl, rfl, rfl, hcells⟩
  | west =>
    obtain ⟨m, harm, hplace, hswitch⟩ := exists_arm hlinked hat' (i := 3) rfl
    refine hswitch _ _ rfl fun flags => .block (harm.slice 0 1) rfl
      (.jmp (harm 1 _ rfl) hplace (.done ⟨rfl, ⟨rfl, rfl, rfl, rfl⟩, ?_, rfl⟩))
    exact ⟨rfl, rfl, rfl, rfl, rfl, hcells⟩

end Native
end Gobstones
