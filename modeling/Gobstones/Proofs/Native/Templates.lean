import Gobstones.Proofs.Native.Builtins
import Gobstones.Proofs.Native.Straight
/-!
# Builtins on any words

This module shows that the code of builtins keeps to what native code may do, whatever
the words on the stack are.  A color is taken modulo four, every word but three numbers
counts as the last direction, and a division gets a divisor other than zero and minus one.

Main definitions:

- {lit}`Stage.Faults`: runs that go on at the stub of a message.
- {lit}`Stage.Tames`: code takes words off the stack and leaves others there.

Main results:

- Theorem {lit}`Stage.Tends.addressCell`: a counter is addressed inside the cells.
- Theorem {lit}`Stage.tames_move`: the code that moves the head.
-/

namespace Gobstones
namespace Native
namespace Stage

/-- Runs from a stub of a message on keep to what native code may do. -/
def Faults (stage : Stage) (k : Nat) (calls : List OpenCall) (v : View) (rest : List Word) :
    Prop :=
  ∀ (v' : View) (message : String) (label : Label) (m : Nat), (message, label) ∈ stage.stubs →
    stage.code.place label = some m → v.Keeps v' → rest <:+ v'.live → stage.Soon k calls v' m

/-- Code takes as many words off the stack and leaves as many there, whatever they are, or it
goes to the stub of a message. -/
def Tames (stage : Stage) (instrs : List Instr) (args results : Nat) : Prop :=
  ∀ (k : Nat) (calls : List OpenCall) (v : View) (n : Nat) (words rest : List Word),
    stage.code.At n instrs → v.Spans stage.board → v.live = words ++ rest →
      words.length = args → stage.Faults k calls v rest →
        (∀ v' words', v.Keeps v' → v'.Spans stage.board → v'.live = words' ++ rest →
          words'.length = results → stage.Soon k calls v' (n + instrs.length)) →
            stage.Tends k calls v n

variable {stage : Stage} {k n m : Nat} {calls : List OpenCall} {v v' : View}
variable {words rest : List Word} {instrs : List Instr} {w : Word} {i : Nat}

theorem Faults.of_keeps (h : stage.Faults k calls v rest) (hkeeps : v.Keeps v') :
    stage.Faults k calls v' rest :=
  fun v'' message label m hstub hplace hkeeps' =>
    h v'' message label m hstub hplace (hkeeps.trans hkeeps')

/-- A branch to the stub of a message. -/
theorem Faults.exists_place (h : stage.Faults k calls v rest) (hlinked : stage.code.Linked)
    {message : String} {label : Label} (hstub : (message, label) ∈ stage.stubs) {instr : Instr}
    (hinstr : stage.code.instrs[i]? = some instr) (htarget : instr.target? = some label) :
    ∃ m, stage.code.place label = some m ∧
      ∀ v', v.Keeps v' → rest <:+ v'.live → stage.Soon k calls v' m := by
  obtain ⟨j, -, hplace⟩ := hlinked.exists_place hinstr htarget
  exact ⟨j + 1, hplace, fun v' => h v' message label _ hstub hplace⟩

theorem tames_of_heightAfter {args results : Nat} {instr : Instr}
    (hheight : heightAfter? args (instr :: instrs) = some results) :
    stage.Tames (instr :: instrs) args results := by
  intro k calls v n words rest hat hspans hlive hlength _ hrest
  subst hlength
  exact .line hat hspans hlive hheight fun v' words' hagrees hlive' hlength =>
    hrest v' words' hagrees.toKeeps (hagrees.spans hspans) hlive' hlength

/-! ## Switches -/

/-- A switch on any word goes on in one of its arms. -/
theorem Tends.switch {labels : SwitchLabels} {arm0 arm1 arm2 arm3 : List Instr}
    (hlinked : stage.code.Linked)
    (hat : stage.code.At n (switchCode .rcx labels arm0 arm1 arm2 arm3))
    (hspans : v.Spans stage.board) (hrest : ∀ arm ∈ [arm0, arm1, arm2, arm3], ∀ m v',
      stage.code.At m (arm ++ [.jmp labels.done]) → stage.code.place labels.done =
        some (n + (switchCode .rcx labels arm0 arm1 arm2 arm3).length) → v.Recomputes v' →
          stage.Soon k calls v' m) : stage.Tends k calls v n := by
  obtain ⟨hhead, hdone, harms⟩ := exists_arms hlinked hat
  have harm {v' : View} (hview : v.Recomputes v') {arm : List Instr} {label : Label}
      (hmem : (arm, label) ∈ [(arm0, labels.case0), (arm1, labels.case1), (arm2, labels.case2),
        (arm3, labels.case3)]) :
      ∃ m, stage.code.place label = some m ∧ stage.Soon k calls v' m := by
    obtain ⟨m, hplace, hat⟩ := harms arm label hmem
    have hmem : arm ∈ [arm0, arm1, arm2, arm3] := by
      simp only [List.mem_cons, Prod.mk.injEq, List.not_mem_nil, or_false] at hmem ⊢
      rcases hmem with h | h | h | h <;> simp [h.1]
    exact ⟨m, hplace, hrest arm hmem m v' hat hdone hview⟩
  -- Each comparison leads to its arm or to what follows.
  have hcompare {i : Nat} {imm : Int32} {arm : List Instr} {label : Label}
      (hcmp : stage.code.instrs[n + i]? = some (.aluImm .cmp .rcx imm))
      (hjcc : stage.code.instrs[n + i + 1]? = some (.jcc .e label))
      (hmem : (arm, label) ∈ [(arm0, labels.case0), (arm1, labels.case1), (arm2, labels.case2),
        (arm3, labels.case3)]) {v' : View} (hview : v.Recomputes v')
      (hnext : ∀ v', v.Recomputes v' → stage.Soon k calls v' (n + i + 2)) :
      stage.Tends k calls v' (n + i) := by
    refine .quiet hcmp rfl (guardAt_of_isHarmless hcmp (hview.agrees.spans hspans) rfl)
      fun v₁ hview₁ => ?_
    have hall := hview.trans hview₁
    obtain ⟨m, hplace, hsoon⟩ := harm hall hmem
    exact (Tends.branch hjcc hplace (guardAt_of_isHarmless hjcc (hall.agrees.spans hspans) rfl)
      hsoon (hnext v₁ hall)).soon
  refine hcompare (i := 0) (hhead 0 _ rfl) (hhead 1 _ rfl) (.head _) ⟨rfl, fun _ _ _ => rfl⟩
    fun v₁ hview₁ => ?_
  refine (hcompare (i := 2) (hhead 2 _ rfl) (hhead 3 _ rfl) (.tail _ (.head _)) hview₁
    fun v₂ hview₂ => ?_).soon
  refine (hcompare (i := 4) (hhead 4 _ rfl) (hhead 5 _ rfl) (.tail _ (.tail _ (.head _))) hview₂
    fun v₃ hview₃ => ?_).soon
  obtain ⟨m, hplace, hsoon⟩ := harm hview₃ (.tail _ (.tail _ (.tail _ (.head _))))
  exact (Tends.jmp (hhead 6 _ rfl) hplace (guardAt_of_isHarmless (hhead 6 _ rfl)
    (hview₃.agrees.spans hspans) rfl) hsoon).soon

/-! ## Counters -/

section Counters

variable (hfits : stage.board.nativeLength < 2 ^ 63) (hboard : stage.board.WellFormed)
include hfits hboard

/-- Any word is taken off the stack as a color, and the address of a counter of the cell under
the head is computed. -/
theorem Tends.addressCell (hat : stage.code.At n (.pop .rcx :: cellAddress))
    (hspans : v.Spans stage.board) (hlive : v.live = w :: rest)
    (hrest : ∀ v' i, v.Agrees v' → v'.live = rest → i < v'.board.size → 4 ≤ i →
      v'.regs.rax = .board (4 * i : Nat) → stage.Soon k calls v' (n + 10)) :
    stage.Tends k calls v n := by
  refine .pop rfl (hat 0 _ rfl) hspans hlive fun v₁ hagrees hlive₁ _ => ?_
  have hspans₁ := hagrees.spans hspans
  obtain ⟨x, hx, h11⟩ := hspans₁.r11
  obtain ⟨y, hy, h12⟩ := hspans₁.r12
  have hindex : stage.board.width.toNat * y.toNat + x.toNat <
      stage.board.width.toNat * stage.board.height.toNat := by
    have hx := UInt32.lt_iff_toNat_lt.1 hx
    have hy := UInt32.lt_iff_toNat_lt.1 hy
    calc stage.board.width.toNat * y.toNat + x.toNat
        < stage.board.width.toNat * (y.toNat + 1) := by rw [Nat.mul_succ]; omega
      _ ≤ _ := Nat.mul_le_mul_left _ hy
  have hlimit : 16 * (stage.board.width.toNat * y.toNat + x.toNat) < 2 ^ 63 := by
    simp only [Board.nativeLength, Board.headerSize, Board.cellSize, hboard.size_cells,
      Board.area] at hfits
    omega
  have hcell := toInt_shl_four hlimit
  rw [Int64.ofNat_add, Int64.ofNat_mul] at hcell
  have hsize := hspans₁.size
  have h13 := hspans₁.r13
  have h14 := hspans₁.r14
  have hrbx := hspans₁.rbx
  -- The offset of the cell is known, and so is the offset of the counter once it is masked.
  have hblock : ∃ v₂ : View, v₁.performAll [.mov .rax .r13, .imul .rax .r12, .alu .add .rax .r11,
      .shl .rax 4, .alu .add .rax .rbx, .mov .rdx .rcx] = some v₂ ∧
        v₂.regs.rax = .board ((16 * (stage.board.width.toNat * y.toNat + x.toNat) : Nat) + 16) := by
    rcases v₁ with ⟨⟨rax, rcx, rdx, rbx, rsp, rbp, rsi, rdi, r8, r9, r10, r11, r12, r13, r14, r15⟩,
      flags, live, dead, cells, results⟩
    dsimp only at h11 h12 h13 h14 hrbx
    subst h11 h12 h13 h14 hrbx
    exact ⟨_, rfl, congrArg (fun offset => Word.board (offset + 16)) hcell⟩
  obtain ⟨v₂, hview, hrax⟩ := hblock
  refine .block (hat.slice 1 6) hview rfl hspans₁ fun hrecomputes => (Tends.mask rfl (hat 7 _ rfl)
    (hrecomputes.agrees.spans hspans₁) fun v₃ a hmasked hrdx hregs => ?_).soon
  have hrax₃ := (hregs .rax (by decide) (by decide)).trans hrax
  obtain ⟨c, hc, hcounter⟩ := toInt_counterOffset a
  have hall := hrecomputes.trans hmasked
  rcases v₃ with ⟨⟨rax, rcx, rdx, rbx, rsp, rbp, rsi, rdi, r8, r9, r10, r11, r12, r13, r14, r15⟩,
    flags, live, dead, cells, results⟩
  dsimp only [Registers.get] at hrax₃ hrdx
  subst hrax₃ hrdx
  refine .block (hat.slice 8 2) rfl rfl (hall.agrees.spans hspans₁) fun hlast => ?_
  have hagrees' := hagrees.trans (hall.trans hlast).agrees
  refine hrest _ (4 + 4 * (stage.board.width.toNat * y.toNat + x.toNat) + c) hagrees'
    ((hall.trans hlast).live.trans hlive₁) ?_ (by omega) ?_
  · rw [(hagrees'.spans hspans).size]
    omega
  · refine congrArg Word.board (Eq.trans (congrArg _ hcounter) ?_)
    push_cast
    omega

omit hfits hboard in
/-- The access to a counter lies in the cells. -/
theorem guardAt_counter {instr : Instr} (hinstr : stage.code.instrs[n]? = some instr)
    (hspans : v.Spans stage.board) (haccess : instr.access? = some (deref .rax, 4))
    (hrax : v.regs.rax = .board (4 * i : Nat)) (hsize : i < v.board.size) (hi : 4 ≤ i) :
    stage.GuardAt calls v n := by
  have hbase : v.reg .rax = .board (4 * i : Nat) := hrax
  refine guardAt_of_access hinstr hspans haccess (by decide) fun offset haddress => ?_
  rw [View.address?_deref hbase] at haddress
  obtain rfl := Word.board.inj (Option.some.inj haddress)
  rw [hspans.size] at hsize
  omega

omit hfits hboard in
/-- A counter is loaded. -/
theorem Tends.loadCounter {dst : Register} (hdst : dst.isScratch = true)
    (hinstr : stage.code.instrs[n]? = some (.load32 dst (deref .rax)))
    (hspans : v.Spans stage.board) (hrax : v.regs.rax = .board (4 * i : Nat))
    (hsize : i < v.board.size) (hi : 4 ≤ i)
    (hrest : ∀ v' (count : UInt32), v.Agrees v' → v'.live = v.live →
      v'.regs.get dst = .nat count.toNat →
        (∀ other, other ≠ dst → other ≠ .rsp → v'.regs.get other = v.regs.get other) →
          stage.Soon k calls v' (n + 1)) : stage.Tends k calls v n := by
  have hrsp : dst ≠ .rsp := by
    rintro rfl
    cases hdst
  have hguard : stage.GuardAt calls v n := guardAt_counter hinstr hspans rfl hrax hsize hi
  have hne (other : Register) (hother : other ≠ dst) (hother' : other ≠ .rsp) :
      (v.cpu.setReg dst (.nat v.board[i].toNat)).regs.get other = v.regs.get other :=
    (Registers.get_set_of_ne _ _ hother).trans (Registers.get_set_of_ne _ _ hother')
  have hkept (other : Register) (hother : other.isScratch = false) (hother' : other ≠ .rsp) :
      (v.cpu.setReg dst (.nat v.board[i].toNat)).regs.get other = v.regs.get other := by
    refine hne other ?_ hother'
    rintro rfl
    rw [hdst] at hother
    cases hother
  refine .instr hinstr (View.perform_load32 hrsp (View.address?_deref hrax)
    (Array.getElem?_eq_getElem hsize)) hguard rfl (hrest _ v.board[i] ?_ rfl
      (Registers.get_set_self _ _ _) hne)
  exact ⟨⟨hkept .rbp rfl (by decide), hkept .rsi rfl (by decide), hkept .r15 rfl (by decide), rfl⟩,
    hkept .rbx rfl (by decide), hkept .r11 rfl (by decide), hkept .r12 rfl (by decide),
    hkept .r13 rfl (by decide), hkept .r14 rfl (by decide), rfl⟩

omit hfits hboard in
/-- A counter is stored. -/
theorem Tends.storeCounter {a : Int64}
    (hinstr : stage.code.instrs[n]? = some (.store32 (deref .rax) .rdx))
    (hspans : v.Spans stage.board) (hrax : v.regs.rax = .board (4 * i : Nat))
    (hsize : i < v.board.size) (hi : 4 ≤ i) (hrdx : v.regs.rdx = .int a)
    (hrest : ∀ v', v.Keeps v' → v'.Spans stage.board → v'.live = v.live →
      stage.Soon k calls v' (n + 1)) : stage.Tends k calls v n := by
  refine .instr hinstr (View.perform_store32 (View.address?_deref hrax) hsize hrdx)
    (guardAt_counter hinstr hspans rfl hrax hsize hi) rfl
    (hrest _ ⟨rfl, rfl, rfl, rfl⟩ ⟨hspans.rbx, hspans.r11, hspans.r12, hspans.r13, hspans.r14, ?_⟩ rfl)
  exact (Array.size_setIfInBounds).trans hspans.size

/-- The counter of any word that is taken for a color is read. -/
theorem Tends.readCounter {dst : Register} (hdst : dst.isScratch = true)
    (hat : stage.code.At n (.pop .rcx :: cellAddress))
    (hinstr : stage.code.instrs[n + 10]? = some (.load32 dst (deref .rax)))
    (hspans : v.Spans stage.board) (hlive : v.live = w :: rest)
    (hrest : ∀ v' i (count : UInt32), v.Agrees v' → v'.live = rest → i < v'.board.size → 4 ≤ i →
      v'.regs.get dst = .nat count.toNat →
        (dst ≠ .rax → v'.regs.rax = .board (4 * i : Nat)) → stage.Soon k calls v' (n + 11)) :
    stage.Tends k calls v n := by
  refine .addressCell hfits hboard hat hspans hlive fun v₁ i hagrees hlive₁ hsize hi hrax =>
    (Tends.loadCounter hdst hinstr (hagrees.spans hspans) hrax hsize hi
      fun v' count hagrees' hlive' hcount hregs => ?_).soon
  exact hrest v' i count (hagrees.trans hagrees') (hlive'.trans hlive₁) (hagrees'.board ▸ hsize) hi
    hcount fun hne => (hregs .rax hne.symm (by decide)).trans hrax

theorem tames_putStone : stage.Tames putStoneCode 1 0 := by
  intro k calls v n words rest hat hspans hlive hlength _ hrest
  obtain ⟨w, rfl⟩ := List.length_eq_one_iff.1 hlength
  refine .readCounter hfits hboard rfl (hat.slice 0 10) (hat 10 _ rfl) hspans hlive
    fun v₁ i count hagrees hlive₁ hsize hi hrdx hrax => ?_
  have hrax := hrax (by decide)
  have hspans₁ := hagrees.spans hspans
  rcases v₁ with ⟨⟨rax, rcx, rdx, rbx, rsp, rbp, rsi, rdi, r8, r9, r10, r11, r12, r13, r14, r15⟩,
    flags, live, dead, cells, results⟩
  dsimp only [Registers.get] at hrax hrdx
  subst hrax hrdx
  refine .block (hat.slice 11 1) rfl rfl hspans₁ fun hrecomputes => (Tends.storeCounter
    (hat 12 _ rfl) (hrecomputes.agrees.spans hspans₁) rfl hsize hi rfl
      fun v' hkeeps hspans' hlive' => ?_).soon
  exact hrest v' [] (hagrees.toKeeps.trans (hrecomputes.agrees.toKeeps.trans hkeeps)) hspans'
    (hlive'.trans hlive₁) rfl

/-- A counter is read and a word computed from it. -/
theorem tames_ofCounter {last : List Instr} (hheight : heightAfter? 0 last = some 1) :
    stage.Tames (.pop .rcx :: cellAddress ++ .load32 .rax (deref .rax) :: last) 1 1 := by
  intro k calls v n words rest hat hspans hlive hlength _ hrest
  obtain ⟨w, rfl⟩ := List.length_eq_one_iff.1 hlength
  obtain ⟨haddress, hat⟩ := NativeCode.at_append_iff.1 hat
  obtain ⟨hload, hat⟩ := NativeCode.at_cons_iff.1 hat
  refine .readCounter hfits hboard rfl haddress hload hspans hlive
    fun v₁ i count hagrees hlive₁ _ _ _ _ => ?_
  have hlive₁ : v₁.live = [] ++ rest := hlive₁
  refine .line hat (hagrees.spans hspans) hlive₁ hheight
    fun v' words' hagrees' hlive' hlength => ?_
  have hend : n + (.pop .rcx :: cellAddress ++ .load32 .rax (deref .rax) :: last).length =
      n + 11 + last.length := by
    simp [cellAddress]
    omega
  rw [hend] at hrest
  have hall := hagrees.trans hagrees'
  exact hrest v' words' hall.toKeeps (hall.spans hspans) hlive' hlength

theorem tames_takeStone (hlinked : stage.code.Linked) {enough : Label} {labels : SwitchLabels}
    {fault0 fault1 fault2 fault3 : Label}
    (hfault : ∀ label ∈ [fault0, fault1, fault2, fault3], ∃ message,
      (message, label) ∈ stage.stubs) :
    stage.Tames (takeStoneCode enough labels fault0 fault1 fault2 fault3) 1 0 := by
  intro k calls v n words rest hat hspans hlive hlength hfaults hrest
  obtain ⟨w, rfl⟩ := List.length_eq_one_iff.1 hlength
  refine .readCounter hfits hboard rfl (hat.slice 0 10) (hat 10 _ rfl) hspans hlive
    fun v₁ i count hagrees hlive₁ hsize hi hrdx hrax => ?_
  have hrax := hrax (by decide)
  have hspans₁ := hagrees.spans hspans
  have hjcc : stage.code.instrs[n + 12]? = some (.jcc .ne enough) := hat 12 _ rfl
  have hplace := hlinked.place_eq hjcc rfl (hat 33 _ rfl)
  rcases v₁ with ⟨⟨rax, rcx, rdx, rbx, rsp, rbp, rsi, rdi, r8, r9, r10, r11, r12, r13, r14, r15⟩,
    flags, live, dead, cells, results⟩
  dsimp only [Registers.get] at hrax hrdx
  subst hrax hrdx
  refine .block (hat.slice 11 1) rfl rfl hspans₁ fun htest => ?_
  have hspans₂ := htest.agrees.spans hspans₁
  refine (Tends.branch hjcc hplace (guardAt_of_isHarmless hjcc hspans₂ rfl) ?_ ?_).soon
  · refine .block (hat.slice 34 1) rfl rfl hspans₂ fun hrecomputes => (Tends.storeCounter
      (hat 35 _ rfl) (hrecomputes.agrees.spans hspans₂) rfl hsize hi rfl
        fun v' hkeeps hspans' hlive' => ?_).soon
    have hcomputed := htest.trans hrecomputes
    exact hrest v' [] (hagrees.toKeeps.trans (hcomputed.agrees.toKeeps.trans hkeeps)) hspans'
      (hlive'.trans hlive₁) rfl
  · have hswitch : stage.code.At (n + 13) (switchCode .rcx labels [.jmp fault0] [.jmp fault1]
        [.jmp fault2] [.jmp fault3]) := hat.slice 13 20
    refine (Tends.switch hlinked hswitch hspans₂
      fun arm harm m v' hat' _ hrecomputes => ?_).soon
    obtain ⟨label, hlabel, rfl⟩ : ∃ label ∈ [fault0, fault1, fault2, fault3],
        arm = [.jmp label] := by
      simp only [List.mem_cons, List.not_mem_nil, or_false] at harm
      rcases harm with rfl | rfl | rfl | rfl <;> exact ⟨_, by simp, rfl⟩
    obtain ⟨message, hstub⟩ := hfault label hlabel
    have hcomputed := htest.trans hrecomputes
    obtain ⟨m', hplace', hsoon⟩ := hfaults.exists_place hlinked hstub (hat' 0 _ rfl) rfl
    exact (Tends.jmp (hat' 0 _ rfl) hplace' (guardAt_of_isHarmless (hat' 0 _ rfl)
      (hcomputed.agrees.spans hspans₁) rfl) (hsoon v' (hagrees.toKeeps.trans
        hcomputed.agrees.toKeeps) ((hcomputed.live.trans hlive₁) ▸ List.suffix_refl _))).soon

end Counters

/-! ## The head -/

/-- A coordinate of the head: its register, the register of its bound, and the bound. -/
inductive Axis (stage : Stage) : Register → Register → UInt32 → Prop where
  | x : Axis stage .r11 .r13 stage.board.width
  | y : Axis stage .r12 .r14 stage.board.height

variable {coord bound : Register} {size c : UInt32} {done fault : Label} {labels : SwitchLabels}

theorem Axis.exists_coordinate (haxis : stage.Axis coord bound size)
    (hspans : v.Spans stage.board) :
    ∃ c < size, v.reg coord = .nat c.toNat ∧ v.reg bound = .nat size.toNat := by
  cases haxis with
  | x =>
    obtain ⟨c, hc, hcoord⟩ := hspans.r11
    exact ⟨c, hc, hcoord, hspans.r13⟩
  | y =>
    obtain ⟨c, hc, hcoord⟩ := hspans.r12
    exact ⟨c, hc, hcoord, hspans.r14⟩

/-- A coordinate is set to another one below the bound. -/
theorem Tends.setCoordinate {instr : Instr} {flags : Option Flags}
    (haxis : stage.Axis coord bound size) (hc : c < size)
    (hinstr : stage.code.instrs[n]? = some instr) (hspans : v.Spans stage.board)
    (hview : v.perform instr =
      some (v.adopt ((v.cpu.setReg coord (.nat c.toNat)).withFlags flags)))
    (hharmless : instr.isHarmless = true) (hunnoted : instr.isUnnoted = true)
    (hrest : ∀ v', v.Keeps v' → v'.Spans stage.board → v'.live = v.live →
      stage.Soon k calls v' (n + 1)) : stage.Tends k calls v n := by
  refine .instr hinstr hview (guardAt_of_isHarmless hinstr hspans hharmless) hunnoted
    (hrest _ ?_ ?_ rfl)
  · cases haxis <;> exact ⟨rfl, rfl, rfl, rfl⟩
  · cases haxis with
    | x => exact ⟨hspans.rbx, ⟨c, hc, rfl⟩, hspans.r12, hspans.r13, hspans.r14, hspans.size⟩
    | y => exact ⟨hspans.rbx, hspans.r11, ⟨c, hc, rfl⟩, hspans.r13, hspans.r14, hspans.size⟩

/-- A coordinate is increased if it stays below its bound. -/
theorem Soon.stepUp (haxis : stage.Axis coord bound size) (hlinked : stage.code.Linked)
    {message : String} (hstub : (message, fault) ∈ stage.stubs)
    (hat : stage.code.At n (stepUpCode coord bound fault ++ [.jmp done]))
    (hspans : v.Spans stage.board) (hfaults : stage.Faults k calls v v.live)
    (hdone : stage.code.place done = some m) (hrest : ∀ v', v.Keeps v' → v'.Spans stage.board →
      v'.live = v.live → stage.Soon k calls v' m) : stage.Soon k calls v n := by
  obtain ⟨m', hfault, hsoon⟩ := hfaults.exists_place hlinked hstub (hat 3 _ rfl) rfl
  obtain ⟨c, hc, hcoord, hbound⟩ := haxis.exists_coordinate hspans
  have hblock : ∃ v', v.performAll [.mov .rax coord, .aluImm .add .rax 1, .alu .cmp .rax bound] =
      some v' ∧ v'.regs.rax = .int (Int64.ofNat c.toNat + (1 : Int32).toInt64) ∧
        v'.flags = some (.ofDifference (Int64.ofNat c.toNat + (1 : Int32).toInt64)
          (Int64.ofNat size.toNat)) := by
    rcases v with ⟨⟨rax, rcx, rdx, rbx, rsp, rbp, rsi, rdi, r8, r9, r10, r11, r12, r13, r14, r15⟩,
      flags, live, dead, cells, results⟩
    cases haxis with
    | x =>
      obtain rfl : r11 = _ := hcoord
      obtain rfl : r13 = _ := hbound
      exact ⟨_, rfl, rfl, rfl⟩
    | y =>
      obtain rfl : r12 = _ := hcoord
      obtain rfl : r14 = _ := hbound
      exact ⟨_, rfl, rfl, rfl⟩
  obtain ⟨v₁, hview, hrax, hflags⟩ := hblock
  have hquiet : [Instr.mov .rax coord, .aluImm .add .rax 1, .alu .cmp .rax bound].all
      (fun instr => instr.isQuiet && instr.isHarmless) = true := rfl
  refine .block (hat.slice 0 3) hview hquiet hspans fun hrecomputes => ?_
  have hspans₁ := hrecomputes.agrees.spans hspans
  have hguard : stage.GuardAt calls v₁ (n + 3) :=
    guardAt_of_isHarmless (hat 3 _ rfl) hspans₁ rfl
  by_cases hlt : c.toNat + 1 < size.toNat
  · have hnext : UInt32.ofNat (c.toNat + 1) < size := by
      have hsize := size.toNat_lt
      rw [UInt32.lt_iff_toNat_lt, UInt32.toNat_ofNat', Nat.mod_eq_of_lt (by omega)]
      exact hlt
    rw [nat_succ hlt] at hrax
    have hset : v₁.perform (.mov coord .rax) = some (v₁.adopt ((v₁.cpu.setReg coord
        (.nat (UInt32.ofNat (c.toNat + 1)).toNat)).withFlags v₁.flags)) := by
      rw [← hrax]
      cases haxis <;> rfl
    refine (Tends.passed (hat 3 _ rfl) hflags ?_ hguard (Tends.setCoordinate haxis hnext
      (hat 4 _ rfl) hspans₁ hset ?_ ?_ fun v' hkeeps hspans' hlive => ?_).soon).soon
    · exact congrArg not (decide_eq_true ((succ_lt_iff c size).2 hlt))
    · cases haxis <;> rfl
    · cases haxis <;> rfl
    · exact (Tends.jmp (hat 5 _ rfl) hdone (guardAt_of_isHarmless (hat 5 _ rfl) hspans' rfl)
        (hrest v' (hrecomputes.agrees.toKeeps.trans hkeeps) hspans'
          (hlive.trans hrecomputes.live))).soon
  · refine (Tends.taken (hat 3 _ rfl) hflags ?_ hfault hguard
      (hsoon v₁ hrecomputes.agrees.toKeeps (hrecomputes.live ▸ List.suffix_refl _))).soon
    exact congrArg not (decide_eq_false (mt (succ_lt_iff c size).1 hlt))

/-- A coordinate is decreased if it is not zero. -/
theorem Soon.stepDown (haxis : stage.Axis coord bound size) (hlinked : stage.code.Linked)
    {message : String} (hstub : (message, fault) ∈ stage.stubs)
    (hat : stage.code.At n (stepDownCode coord fault ++ [.jmp done]))
    (hspans : v.Spans stage.board) (hfaults : stage.Faults k calls v v.live)
    (hdone : stage.code.place done = some m) (hrest : ∀ v', v.Keeps v' → v'.Spans stage.board →
      v'.live = v.live → stage.Soon k calls v' m) : stage.Soon k calls v n := by
  obtain ⟨m', hfault, hsoon⟩ := hfaults.exists_place hlinked hstub (hat 1 _ rfl) rfl
  obtain ⟨c, hc, hcoord, -⟩ := haxis.exists_coordinate hspans
  have hblock : ∃ v', v.performAll [.test coord coord] = some v' ∧
      v'.reg coord = .nat c.toNat ∧
        v'.flags = some (.ofBits (Int64.ofNat c.toNat &&& Int64.ofNat c.toNat)) := by
    rcases v with ⟨⟨rax, rcx, rdx, rbx, rsp, rbp, rsi, rdi, r8, r9, r10, r11, r12, r13, r14, r15⟩,
      flags, live, dead, cells, results⟩
    cases haxis with
    | x =>
      obtain rfl : r11 = _ := hcoord
      exact ⟨_, rfl, rfl, rfl⟩
    | y =>
      obtain rfl : r12 = _ := hcoord
      exact ⟨_, rfl, rfl, rfl⟩
  obtain ⟨v₁, hview, hcoord₁, hflags⟩ := hblock
  refine .block (hat.slice 0 1) hview rfl hspans fun hrecomputes => ?_
  have hspans₁ := hrecomputes.agrees.spans hspans
  have hguard : stage.GuardAt calls v₁ (n + 1) :=
    guardAt_of_isHarmless (hat 1 _ rfl) hspans₁ rfl
  by_cases hzero : c.toNat = 0
  · refine (Tends.taken (hat 1 _ rfl) hflags ?_ hfault hguard
      (hsoon v₁ hrecomputes.agrees.toKeeps (hrecomputes.live ▸ List.suffix_refl _))).soon
    exact decide_eq_true ((and_self_eq_zero_iff c).2 hzero)
  · have hnext : UInt32.ofNat (c.toNat - 1) < size := by
      have hc := UInt32.lt_iff_toNat_lt.1 hc
      have hsize := size.toNat_lt
      rw [UInt32.lt_iff_toNat_lt, UInt32.toNat_ofNat', Nat.mod_eq_of_lt (by omega)]
      omega
    have hset : v₁.perform (.aluImm .sub coord 1) = some (v₁.adopt ((v₁.cpu.setReg coord
        (.nat (UInt32.ofNat (c.toNat - 1)).toNat)).withFlags
          (some (.ofDifference (Int64.ofNat c.toNat) (1 : Int32).toInt64)))) := by
      have hcpu : v₁.cpu.reg coord = .int (Int64.ofNat c.toNat) := hcoord₁
      rw [← nat_pred hzero]
      cases haxis <;>
        simp only [View.perform, Instr.setsStackPointer, Processor.perform, Processor.alu, hcpu] <;>
        rfl
    refine (Tends.passed (hat 1 _ rfl) hflags ?_ hguard (Tends.setCoordinate haxis hnext
      (hat 2 _ rfl) hspans₁ hset rfl ?_ fun v' hkeeps hspans' hlive => ?_).soon).soon
    · exact decide_eq_false fun heq => hzero ((and_self_eq_zero_iff c).1 heq)
    · cases haxis <;> rfl
    · exact (Tends.jmp (hat 3 _ rfl) hdone (guardAt_of_isHarmless (hat 3 _ rfl) hspans' rfl)
        (hrest v' (hrecomputes.agrees.toKeeps.trans hkeeps) hspans'
          (hlive.trans hrecomputes.live))).soon

theorem tames_move (hlinked : stage.code.Linked) {fault0 fault1 fault2 fault3 : Label}
    (hfault : ∀ label ∈ [fault0, fault1, fault2, fault3], ∃ message,
      (message, label) ∈ stage.stubs) :
    stage.Tames (moveCode labels fault0 fault1 fault2 fault3) 1 0 := by
  intro k calls v n words rest hat hspans hlive hlength hfaults hrest
  obtain ⟨w, rfl⟩ := List.length_eq_one_iff.1 hlength
  have hswitch : stage.code.At (n + 1) (switchCode .rcx labels (stepUpCode .r12 .r14 fault0)
    (stepUpCode .r11 .r13 fault1) (stepDownCode .r12 fault2) (stepDownCode .r11 fault3)) :=
    hat.slice 1 32
  refine .pop rfl (hat 0 _ rfl) hspans hlive fun v₁ hagrees hlive₁ _ =>
    (Tends.switch hlinked hswitch (hagrees.spans hspans)
      fun arm harm m v₂ hat' hdone hrecomputes => ?_).soon
  have hagrees₂ := hagrees.trans hrecomputes.agrees
  have hspans₂ := hagrees₂.spans hspans
  have hlive₂ : v₂.live = rest := hrecomputes.live.trans hlive₁
  have hfaults₂ : stage.Faults k calls v₂ v₂.live := hlive₂ ▸ hfaults.of_keeps hagrees₂.toKeeps
  have hend (v' : View) (hkeeps : v₂.Keeps v') (hspans' : v'.Spans stage.board)
      (hlive' : v'.live = v₂.live) : stage.Soon k calls v' (n + 1 + (switchCode .rcx labels
        (stepUpCode .r12 .r14 fault0) (stepUpCode .r11 .r13 fault1) (stepDownCode .r12 fault2)
        (stepDownCode .r11 fault3)).length) :=
    hrest v' [] (hagrees₂.toKeeps.trans hkeeps) hspans' (hlive'.trans hlive₂) rfl
  simp only [List.mem_cons, List.not_mem_nil, or_false] at harm
  rcases harm with rfl | rfl | rfl | rfl
  · obtain ⟨message, hstub⟩ := hfault fault0 (by simp)
    exact .stepUp .y hlinked hstub hat' hspans₂ hfaults₂ hdone hend
  · obtain ⟨message, hstub⟩ := hfault fault1 (by simp)
    exact .stepUp .x hlinked hstub hat' hspans₂ hfaults₂ hdone hend
  · obtain ⟨message, hstub⟩ := hfault fault2 (by simp)
    exact .stepDown .y hlinked hstub hat' hspans₂ hfaults₂ hdone hend
  · obtain ⟨message, hstub⟩ := hfault fault3 (by simp)
    exact .stepDown .x hlinked hstub hat' hspans₂ hfaults₂ hdone hend

/-- A coordinate is set to the last one below its bound.  For a moment it is the bound itself. -/
theorem Soon.toBoundary (haxis : stage.Axis coord bound size) (hpos : 0 < size)
    (hat : stage.code.At n ([.mov coord bound, .aluImm .sub coord 1] ++ [.jmp done]))
    (hspans : v.Spans stage.board) (hdone : stage.code.place done = some m)
    (hrest : ∀ v', v.Keeps v' → v'.Spans stage.board → v'.live = v.live →
      stage.Soon k calls v' m) : stage.Soon k calls v n := by
  have hcode : stage.code.At n [.mov coord bound, .aluImm .sub coord 1] :=
    (NativeCode.at_append_iff.1 hat).1
  have hlast : size - 1 < size := by
    have hpos := UInt32.lt_iff_toNat_lt.1 hpos
    rw [UInt32.toNat_zero] at hpos
    rw [UInt32.lt_iff_toNat_lt, UInt32.toNat_sub_of_le _ _
      (UInt32.le_iff_toNat_le.2 (by rw [UInt32.toNat_one]; omega)), UInt32.toNat_one]
    omega
  obtain ⟨c, -, -, hbound⟩ := haxis.exists_coordinate hspans
  have hmov : v.perform (.mov coord bound) =
      some (v.adopt (v.cpu.setReg coord (.nat size.toNat))) := by
    rw [← hbound]
    cases haxis <;> rfl
  refine (Tends.instr (hat 0 _ rfl) hmov (guardAt_of_isHarmless (hat 0 _ rfl) hspans
    (by cases haxis <;> rfl)) (by cases haxis <;> rfl) ?_).soon
  have hsub : (v.adopt (v.cpu.setReg coord (.nat size.toNat))).perform (.aluImm .sub coord 1) =
      some (v.adopt ((v.cpu.setReg coord (.nat (size - 1).toNat)).withFlags
        (some (.ofDifference (Int64.ofNat size.toNat) (1 : Int32).toInt64)))) := by
    rw [← nat_last hpos]
    cases haxis <;> rfl
  have hguard : stage.GuardAt calls (v.adopt (v.cpu.setReg coord (.nat size.toNat))) (n + 1) := by
    refine guardAt_of_isHarmless_heads (hat 1 _ rfl) (fun p hp hposition => ?_) rfl
    cases haxis with
    | x =>
      obtain ⟨y, hy, h12⟩ := hspans.r12
      exact ⟨⟨_, hp.reg .r11, .inr ⟨rfl, n, hposition, hcode⟩⟩,
        ⟨y.toNat, (hp.reg .r12).trans h12, .inl (UInt32.lt_iff_toNat_lt.1 hy)⟩⟩
    | y =>
      obtain ⟨x, hx, h11⟩ := hspans.r11
      exact ⟨⟨x.toNat, (hp.reg .r11).trans h11, .inl (UInt32.lt_iff_toNat_lt.1 hx)⟩,
        ⟨_, hp.reg .r12, .inr ⟨rfl, n, hposition, hcode⟩⟩⟩
  refine (Tends.instr (hat 1 _ rfl) hsub hguard (by cases haxis <;> rfl) ?_).soon
  have hspans' : (v.adopt ((v.cpu.setReg coord (.nat (size - 1).toNat)).withFlags
      (some (.ofDifference (Int64.ofNat size.toNat) (1 : Int32).toInt64)))).Spans stage.board := by
    cases haxis with
    | x => exact ⟨hspans.rbx, ⟨_, hlast, rfl⟩, hspans.r12, hspans.r13, hspans.r14, hspans.size⟩
    | y => exact ⟨hspans.rbx, hspans.r11, ⟨_, hlast, rfl⟩, hspans.r13, hspans.r14, hspans.size⟩
  refine (Tends.jmp (hat 2 _ rfl) hdone (guardAt_of_isHarmless (hat 2 _ rfl) hspans' rfl)
    (hrest _ ?_ hspans' rfl)).soon
  cases haxis <;> exact ⟨rfl, rfl, rfl, rfl⟩

/-- A coordinate is set to zero. -/
theorem Tends.toZero (haxis : stage.Axis coord bound size) (hpos : 0 < size)
    (hinstr : stage.code.instrs[n]? = some (.alu .xor coord coord)) (hspans : v.Spans stage.board)
    (hrest : ∀ v', v.Keeps v' → v'.Spans stage.board → v'.live = v.live →
      stage.Soon k calls v' (n + 1)) : stage.Tends k calls v n :=
  have hset : v.perform (.alu .xor coord coord) = some (v.adopt
      ((v.cpu.setReg coord (.nat (0 : UInt32).toNat)).withFlags (some (.ofBits 0)))) := by
    cases haxis <;> rfl
  .setCoordinate haxis hpos hinstr hspans hset rfl (by cases haxis <;> rfl) hrest

section Boundaries

variable (hboard : stage.board.WellFormed)
include hboard

theorem tames_goToBoundary (hlinked : stage.code.Linked) :
    stage.Tames (goToBoundaryCode labels) 1 0 := by
  intro k calls v n words rest hat hspans hlive hlength _ hrest
  obtain ⟨w, rfl⟩ := List.length_eq_one_iff.1 hlength
  have hswitch : stage.code.At (n + 1) (switchCode .rcx labels [.mov .r12 .r14, .aluImm .sub .r12 1]
    [.mov .r11 .r13, .aluImm .sub .r11 1] [.alu .xor .r12 .r12] [.alu .xor .r11 .r11]) :=
    hat.slice 1 22
  refine .pop rfl (hat 0 _ rfl) hspans hlive fun v₁ hagrees hlive₁ _ =>
    (Tends.switch hlinked hswitch (hagrees.spans hspans)
      fun arm harm m v₂ hat' hdone hrecomputes => ?_).soon
  have hagrees₂ := hagrees.trans hrecomputes.agrees
  have hspans₂ := hagrees₂.spans hspans
  have hlive₂ : v₂.live = rest := hrecomputes.live.trans hlive₁
  have hend (v' : View) (hkeeps : v₂.Keeps v') (hspans' : v'.Spans stage.board)
      (hlive' : v'.live = v₂.live) : stage.Soon k calls v' (n + 1 + (switchCode .rcx labels
        [.mov .r12 .r14, .aluImm .sub .r12 1] [.mov .r11 .r13, .aluImm .sub .r11 1]
        [.alu .xor .r12 .r12] [.alu .xor .r11 .r11]).length) :=
    hrest v' [] (hagrees₂.toKeeps.trans hkeeps) hspans' (hlive'.trans hlive₂) rfl
  have hzero {coord bound : Register} {size : UInt32} (haxis : stage.Axis coord bound size)
      (hpos : 0 < size) (hat' : stage.code.At m ([.alu .xor coord coord] ++ [.jmp labels.done])) :
      stage.Soon k calls v₂ m :=
    (Tends.toZero haxis hpos (hat' 0 _ rfl) hspans₂ fun v' hkeeps hspans' hlive' =>
      (Tends.jmp (hat' 1 _ rfl) hdone (guardAt_of_isHarmless (hat' 1 _ rfl) hspans' rfl)
        (hend v' hkeeps hspans' hlive')).soon).soon
  simp only [List.mem_cons, List.not_mem_nil, or_false] at harm
  rcases harm with rfl | rfl | rfl | rfl
  · exact .toBoundary .y hboard.height_pos hat' hspans₂ hdone hend
  · exact .toBoundary .x hboard.width_pos hat' hspans₂ hdone hend
  · exact hzero .y hboard.height_pos hat'
  · exact hzero .x hboard.width_pos hat'

theorem tames_goToOrigin : stage.Tames goToOriginCode 0 0 := by
  intro k calls v n words rest hat hspans hlive hlength _ hrest
  obtain rfl := List.eq_nil_of_length_eq_zero hlength
  refine .toZero .x hboard.width_pos (hat 0 _ rfl) hspans fun v₁ hkeeps hspans₁ hlive₁ =>
    (Tends.toZero .y hboard.height_pos (hat 1 _ rfl) hspans₁
      fun v' hkeeps' hspans' hlive' => ?_).soon
  exact hrest v' [] (hkeeps.trans hkeeps') hspans' (hlive'.trans (hlive₁.trans hlive)) rfl

end Boundaries

theorem tames_canMove (hlinked : stage.code.Linked) : stage.Tames (canMoveCode labels) 1 1 := by
  intro k calls v n words rest hat hspans hlive hlength _ hrest
  obtain ⟨w, rfl⟩ := List.length_eq_one_iff.1 hlength
  have hswitch : stage.code.At (n + 1) (switchCode .rcx labels (belowBoundCode .r12 .r14)
    (belowBoundCode .r11 .r13) (aboveZeroCode .r12) (aboveZeroCode .r11)) := hat.slice 1 28
  refine .pop rfl (hat 0 _ rfl) hspans hlive fun v₁ hagrees hlive₁ _ =>
    (Tends.switch hlinked hswitch (hagrees.spans hspans)
      fun arm harm m v₂ hat' hdone hrecomputes => ?_).soon
  have hagrees₂ := hagrees.trans hrecomputes.agrees
  have hlive₂ : v₂.live = [] ++ rest := hrecomputes.live.trans hlive₁
  have hheight : heightAfter? 0 arm = some 0 := by
    simp only [List.mem_cons, List.not_mem_nil, or_false] at harm
    rcases harm with rfl | rfl | rfl | rfl <;> rfl
  obtain ⟨harm, hjmp⟩ := NativeCode.at_append_iff.1 hat'
  refine .line harm (hagrees₂.spans hspans) hlive₂ hheight
    fun v₃ words₃ hagrees₃ hlive₃ hlength₃ => ?_
  have hagrees₃ := hagrees₂.trans hagrees₃
  have hspans₃ := hagrees₃.spans hspans
  obtain rfl := List.eq_nil_of_length_eq_zero hlength₃
  refine (Tends.jmp (hjmp 0 _ rfl) hdone (guardAt_of_isHarmless (hjmp 0 _ rfl) hspans₃ rfl)
    (.line (hat.slice 29 2) hspans₃ hlive₃ rfl
      fun v' words' hagrees' hlive' hlength => ?_)).soon
  have hall := hagrees₃.trans hagrees'
  exact hrest v' words' hall.toKeeps (hall.spans hspans) hlive' hlength

end Stage
end Native
end Gobstones
