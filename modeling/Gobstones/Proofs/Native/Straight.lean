import Gobstones.Proofs.Native.Guards
/-!
# Straight-line code on any words

This module follows code that computes with words of which nothing is known.  What matters
is how many words it leaves on the stack, and that it leaves the board alone.

Main definitions:

- {lit}`View.Spans`: registers and memory hold a board of the size of another one.
- {lit}`heightAfter?`: the number of words that code leaves on the stack.

Main results:

- Theorem {lit}`Stage.Soon.line`: code that only computes.
- Theorem {lit}`Stage.Soon.block`: code with a known effect.
- Theorems {lit}`Stage.guardAt_of_isHarmless` and {lit}`Stage.guardAt_outside`: what is the
  case of most instructions.
-/

namespace Gobstones
namespace Native

/-! ## Stacks of some height -/

/-- The number of words on the stack after an instruction that only computes, given their number
before.  There is none for other instructions, and none for a word that is missing. -/
def Instr.heightAfter? (instr : Instr) (height : Nat) : Option Nat :=
  match instr, height with
  | .push _, height | .pushImm _, height => some (height + 1)
  | .pop r, height + 1 => if r.isScratch then some height else none
  | instr, height => if instr.isQuiet && instr.isHarmless then some height else none

/-- The number of words on the stack after code that only computes. -/
def heightAfter? (height : Nat) : List Instr → Option Nat
  | [] => some height
  | instr :: rest => (instr.heightAfter? height).bind (heightAfter? · rest)

/-! ## Boards of some size -/

/-- Registers and memory hold a board of the size of another one, with the head on the grid. -/
structure View.Spans (v : View) (board : Board) : Prop where
  rbx : v.regs.rbx = .board 16
  r11 : ∃ x < board.width, v.regs.r11 = .nat x.toNat
  r12 : ∃ y < board.height, v.regs.r12 = .nat y.toNat
  r13 : v.regs.r13 = .nat board.width.toNat
  r14 : v.regs.r14 = .nat board.height.toNat
  size : v.board.size = 4 + 4 * (board.width.toNat * board.height.toNat)

theorem View.Agrees.spans {v v' : View} {board : Board} (h : v.Agrees v') (hv : v.Spans board) :
    v'.Spans board where
  rbx := h.rbx.trans hv.rbx
  r11 := h.r11 ▸ hv.r11
  r12 := h.r12 ▸ hv.r12
  r13 := h.r13.trans hv.r13
  r14 := h.r14.trans hv.r14
  size := h.board ▸ hv.size

/-- The head lies on the grid. -/
theorem View.Spans.heads_of_reg {code : NativeCode} {v : View} {p : Processor} {board : Board}
    (hspans : v.Spans board) (h11 : p.reg .r11 = v.regs.r11) (h12 : p.reg .r12 = v.regs.r12) :
    code.HoldsCoordinate p .r11 .r13 board.width.toNat ∧
      code.HoldsCoordinate p .r12 .r14 board.height.toNat := by
  obtain ⟨x, hx, hr11⟩ := hspans.r11
  obtain ⟨y, hy, hr12⟩ := hspans.r12
  exact ⟨⟨x.toNat, h11.trans hr11, .inl (UInt32.lt_iff_toNat_lt.1 hx)⟩,
    ⟨y.toNat, h12.trans hr12, .inl (UInt32.lt_iff_toNat_lt.1 hy)⟩⟩

theorem View.Spans.heads {code : NativeCode} {v : View} {p : Processor} {board : Board}
    (hspans : v.Spans board) (hp : p.Shows v) :
    code.HoldsCoordinate p .r11 .r13 board.width.toNat ∧
      code.HoldsCoordinate p .r12 .r14 board.height.toNat :=
  hspans.heads_of_reg (hp.reg .r11) (hp.reg .r12)

theorem View.agrees_push (v : View) (w : Word) : v.Agrees (v.push w) :=
  ⟨⟨rfl, rfl, rfl, rfl⟩, rfl, rfl, rfl, rfl, rfl, rfl⟩

/-- A quiet instruction that accesses no memory recomputes something. -/
theorem View.recomputes_of_perform {v v' : View} {instr : Instr} (hquiet : instr.isQuiet = true)
    (hharmless : instr.isHarmless = true) (h : v.perform instr = some v') : v.Recomputes v' := by
  have hadopt (hview : (v.cpu.perform (fun _ => none) instr).map v.adopt = some v') :
      v.Recomputes v' := by
    obtain ⟨q, hq, rfl⟩ := Option.map_eq_some_iff.1 hview
    have hrecomputes := Native.recomputes_of_perform hquiet hq
    refine ⟨?_, fun r hr hrsp => ?_⟩
    · rw [hrecomputes.rest]
      rfl
    · exact (hrecomputes.regs r hr).trans (Registers.get_set_of_ne _ _ hrsp)
  unfold View.perform at h
  split at h
  · cases h
  · split at h <;> first | exact hadopt h | cases hquiet | cases hharmless

namespace Stage

variable {stage : Stage} {k n m : Nat} {calls : List OpenCall} {v v' : View} {p : Processor}
variable {words rest : List Word} {instrs : List Instr} {w : Word}

/-! ## What is the case in most states -/

/-- While routines run, the state of a view keeps to what native code may do if the head does and
the next instruction does. -/
theorem guardAt_of_heads {instr : Instr} (hinstr : stage.code.instrs[n]? = some instr)
    (hheads : ∀ p : Processor, p.Shows v → p.position = n →
      stage.code.HoldsCoordinate p .r11 .r13 stage.board.width.toNat ∧
        stage.code.HoldsCoordinate p .r12 .r14 stage.board.height.toNat)
    (hinside : ∀ mem size offset, instr.access? = some (mem, size) →
      v.cpu.address? mem = some (.board offset) → 16 ≤ offset ∧ offset + size ≤
        16 + 16 * (stage.board.width.toNat * stage.board.height.toNat : Nat))
    (h : ∀ p : Processor, p.Shows v → p.position = n →
      (∀ divisor, instr = .idiv divisor → ∃ n, p.reg divisor = .int n ∧ n ≠ 0 ∧ n ≠ -1 ∧
        ∃ next, p.step stage.code.instrs stage.code.place = .running next) ∧
      (instr = .ret → ∀ call callers, calls = call :: callers → call.leaving = true →
        call.saved = some ⟨p.cells, p.reg .r11, p.reg .r12⟩) ∧
      stage.code.KeepsVariables stage.program stage.entry stage.routines stage.board ⟨p, calls⟩)
    (hinner : instr.isHostly = false) : stage.GuardAt calls v n := by
  intro p hp hposition
  obtain ⟨hdivides, hrestores, hvariables⟩ := h p hp hposition
  obtain ⟨headX, headY⟩ := hheads p hp hposition
  subst hposition
  have hnext {other : Instr} (hother : stage.code.instrs[p.position]? = some other) :
      instr = other := Option.some.inj (hinstr.symm.trans hother)
  refine ⟨fun _ _ => ⟨?_, hvariables⟩, fun hended => ?_, fun other hother hhostly => ?_⟩
  · exact
      { headX
        headY
        inside := fun other mem size offset hother haccess haddress => by
          obtain rfl := hnext hother
          exact hinside mem size offset haccess ((hp.address? mem).symm.trans haddress)
        divides := fun divisor hother => hdivides divisor (hnext hother)
        restores := fun hother => hrestores (hnext hother) }
  · have hlt := (Array.getElem?_eq_some_iff.1 hinstr).1
    exact absurd hended (Nat.not_le.2 hlt)
  · obtain rfl := hnext hother
    rw [hinner] at hhostly
    cases hhostly

/-- Nothing is accessed from the frame pointer. -/
theorem keepsVariables_of_access {instr : Instr}
    (hinstr : stage.code.instrs[p.position]? = some instr)
    (hbase : ∀ mem size, instr.access? = some (mem, size) → mem.base ≠ .rbp) :
    stage.code.KeepsVariables stage.program stage.entry stage.routines stage.board ⟨p, calls⟩ where
  own other mem size hother haccess hrbp := by
    obtain rfl : instr = other := Option.some.inj (hinstr.symm.trans hother)
    exact (hbase mem size haccess hrbp).elim
  faults dst mem _ _ hother hrbp := by
    obtain rfl : instr = .load dst mem := Option.some.inj (hinstr.symm.trans hother)
    exact (hbase mem 8 rfl hrbp).elim

theorem isHostly_of_isHarmless {instr : Instr} (h : instr.isHarmless = true) :
    instr.isHostly = false := by
  unfold Instr.isHostly
  split <;> first | rfl | cases h

/-- Nothing but the head matters to an instruction that accesses no memory, does not divide and
does not return. -/
theorem guarded_of_isHarmless {instr : Instr} (hinstr : stage.code.instrs[p.position]? = some instr)
    (headX : stage.code.HoldsCoordinate p .r11 .r13 stage.board.width.toNat)
    (headY : stage.code.HoldsCoordinate p .r12 .r14 stage.board.height.toNat)
    (hharmless : instr.isHarmless = true) : stage.Guarded ⟨p, calls⟩ := by
  have haccess : instr.access? = none := by
    cases instr <;> first | rfl | cases hharmless
  have hnext {other : Instr} (hother : stage.code.instrs[p.position]? = some other) :
      instr = other := Option.some.inj (hinstr.symm.trans hother)
  refine ⟨fun _ _ => ⟨⟨headX, headY, fun other mem size offset hother hmem => ?_,
    fun divisor hother => ?_, fun hother => ?_⟩,
      keepsVariables_of_access hinstr fun mem size hmem => ?_⟩, fun hended => ?_,
        fun other hother hhostly => ?_⟩
  · obtain rfl := hnext hother
    simp [haccess] at hmem
  · obtain rfl := hnext hother
    cases hharmless
  · obtain rfl := hnext hother
    cases hharmless
  · simp [haccess] at hmem
  · have hlt := (Array.getElem?_eq_some_iff.1 hinstr).1
    exact absurd hended (Nat.not_le.2 hlt)
  · obtain rfl := hnext hother
    rw [isHostly_of_isHarmless hharmless] at hhostly
    cases hhostly

theorem guardAt_of_isHarmless_heads {instr : Instr} (hinstr : stage.code.instrs[n]? = some instr)
    (hheads : ∀ p : Processor, p.Shows v → p.position = n →
      stage.code.HoldsCoordinate p .r11 .r13 stage.board.width.toNat ∧
        stage.code.HoldsCoordinate p .r12 .r14 stage.board.height.toNat)
    (hharmless : instr.isHarmless = true) : stage.GuardAt calls v n :=
  fun p hp hposition => guarded_of_isHarmless (hposition ▸ hinstr) (hheads p hp hposition).1
    (hheads p hp hposition).2 hharmless

theorem guardAt_of_isHarmless {instr : Instr} (hinstr : stage.code.instrs[n]? = some instr)
    (hspans : v.Spans stage.board) (hharmless : instr.isHarmless = true) :
    stage.GuardAt calls v n :=
  guardAt_of_isHarmless_heads hinstr (fun _ hp _ => hspans.heads hp) hharmless

/-- An access to memory that is addressed neither from the frame pointer nor from the result buffer
has to lie in the cells if it is one to the board. -/
theorem guardAt_of_access {instr : Instr} {mem : Memory} {size : Nat}
    (hinstr : stage.code.instrs[n]? = some instr) (hspans : v.Spans stage.board)
    (haccess : instr.access? = some (mem, size)) (hbase : mem.base ≠ .rbp ∧ mem.base ≠ .r15)
    (hinside : ∀ offset, v.cpu.address? mem = some (.board offset) → 16 ≤ offset ∧
      offset + size ≤ 16 + 16 * (stage.board.width.toNat * stage.board.height.toNat : Nat)) :
    stage.GuardAt calls v n := by
  refine guardAt_of_heads hinstr (fun _ hp _ => hspans.heads hp)
    (fun mem' size' offset hmem haddress => ?_) (fun p _ hposition =>
      ⟨?_, ?_, keepsVariables_of_access (hposition ▸ hinstr) fun mem' size' hmem hrbp => ?_⟩) ?_
  · obtain ⟨rfl, rfl⟩ := Prod.mk.inj (Option.some.inj (haccess.symm.trans hmem))
    exact hinside offset haddress
  · rintro divisor rfl
    cases haccess
  · rintro rfl
    cases haccess
  · obtain ⟨rfl, -⟩ := Prod.mk.inj (Option.some.inj (haccess.symm.trans hmem))
    exact hbase.1 hrbp
  · unfold Instr.isHostly
    split
    · obtain ⟨rfl, -⟩ := Prod.mk.inj (Option.some.inj haccess)
      exact (hbase.2 rfl).elim
    · cases haccess
    · rfl

/-- Outside the code of routines only the way back to the host matters. -/
theorem guardAt_outside {instr : Instr} (hinstr : stage.code.instrs[n]? = some instr)
    (hout : n < stage.first ∨ stage.last ≤ n)
    (hrecovers : instr.isHostly = true → ∀ p : Processor, p.Shows v →
      stage.code.Recovers stage.host p) : stage.GuardAt calls v n := by
  rintro p hp rfl
  refine ⟨fun hfirst hlast => ?_, fun hended => ?_, fun other hother hhostly => ?_⟩
  · have hfirst : stage.first ≤ p.position := hfirst
    have hlast : p.position < stage.last := hlast
    omega
  · have hlt := (Array.getElem?_eq_some_iff.1 hinstr).1
    exact absurd hended (Nat.not_le.2 hlt)
  · obtain rfl := Option.some.inj (hinstr.symm.trans hother)
    exact hrecovers hhostly p hp

/-! ## Known effects -/

/-- An instruction that computes something known. -/
theorem Tends.computed {instr : Instr} (hinstr : stage.code.instrs[n]? = some instr)
    (hview : v.perform instr = some v') (hquiet : (instr.isQuiet && instr.isHarmless) = true)
    (hspans : v.Spans stage.board) (hrest : v.Recomputes v' → stage.Soon k calls v' (n + 1)) :
    stage.Tends k calls v n := by
  obtain ⟨hquiet, hharmless⟩ := Bool.and_eq_true_iff.1 hquiet
  exact .instr hinstr hview (guardAt_of_isHarmless hinstr hspans hharmless)
    (isUnnoted_of_isQuiet hquiet) (hrest (View.recomputes_of_perform hquiet hharmless hview))

/-- Code with a known effect, of which nothing is noted. -/
theorem Soon.block (hat : stage.code.At n instrs) (hview : v.performAll instrs = some v')
    (hquiet : instrs.all (fun instr => instr.isQuiet && instr.isHarmless) = true)
    (hspans : v.Spans stage.board) (hrest : v.Recomputes v' →
      stage.Soon k calls v' (n + instrs.length)) : stage.Soon k calls v n := by
  induction instrs generalizing v n with
  | nil =>
    obtain rfl := Option.some.inj hview
    exact hrest ⟨rfl, fun _ _ _ => rfl⟩
  | cons instr instrs ih =>
    obtain ⟨hinstr, hat⟩ := NativeCode.at_cons_iff.1 hat
    obtain ⟨v₁, hv₁, hview⟩ := Option.bind_eq_some_iff.1 hview
    obtain ⟨hfirst, hquiet⟩ := Bool.and_eq_true_iff.1 (List.all_cons ▸ hquiet)
    refine (Tends.computed hinstr hv₁ hfirst hspans fun hrecomputes => ?_).soon
    refine ih hat hview hquiet (hrecomputes.agrees.spans hspans) fun hrest' => ?_
    rw [Nat.add_assoc, Nat.add_comm 1]
    exact hrest (hrecomputes.trans hrest')

/-- Code with a known effect and what follows. -/
theorem Tends.block {instr : Instr} (hat : stage.code.At n (instr :: instrs))
    (hview : v.performAll (instr :: instrs) = some v')
    (hquiet : (instr :: instrs).all (fun instr => instr.isQuiet && instr.isHarmless) = true)
    (hspans : v.Spans stage.board) (hrest : v.Recomputes v' →
      stage.Soon k calls v' (n + (instr :: instrs).length)) : stage.Tends k calls v n := by
  obtain ⟨hinstr, hat⟩ := NativeCode.at_cons_iff.1 hat
  obtain ⟨v₁, hv₁, hview⟩ := Option.bind_eq_some_iff.1 hview
  obtain ⟨hfirst, hquiet⟩ := Bool.and_eq_true_iff.1 (List.all_cons ▸ hquiet)
  refine .computed hinstr hv₁ hfirst hspans fun hrecomputes => ?_
  refine .block hat hview hquiet (hrecomputes.agrees.spans hspans) fun hrest' => ?_
  rw [Nat.add_assoc, Nat.add_comm 1]
  exact hrest (hrecomputes.trans hrest')

/-! ## Unknown effects -/

/-- Code that computes something in registers, whatever it computes. -/
theorem Soon.quiet (hat : stage.code.At n instrs)
    (hquiet : instrs.all (fun instr => instr.isQuiet && instr.isHarmless) = true)
    (hspans : v.Spans stage.board) (hrest : ∀ v', v.Recomputes v' →
      stage.Soon k calls v' (n + instrs.length)) : stage.Soon k calls v n := by
  induction instrs generalizing v n with
  | nil => exact hrest v ⟨rfl, fun _ _ _ => rfl⟩
  | cons instr instrs ih =>
    obtain ⟨hinstr, hat⟩ := NativeCode.at_cons_iff.1 hat
    obtain ⟨hfirst, hquiet⟩ := Bool.and_eq_true_iff.1 (List.all_cons ▸ hquiet)
    obtain ⟨hfirst, hharmless⟩ := Bool.and_eq_true_iff.1 hfirst
    refine (Tends.quiet hinstr hfirst (guardAt_of_isHarmless hinstr hspans hharmless)
      fun v₁ hrecomputes => ?_).soon
    refine ih hat hquiet (hrecomputes.agrees.spans hspans) fun v' hrest' => ?_
    rw [Nat.add_assoc, Nat.add_comm 1]
    exact hrest v' (hrecomputes.trans hrest')

/-- The word on top of the stack is popped. -/
theorem Tends.pop {r : Register} (hr : r.isScratch = true)
    (hinstr : stage.code.instrs[n]? = some (.pop r)) (hspans : v.Spans stage.board)
    (hlive : v.live = w :: rest) (hrest : ∀ v', v.Agrees v' → v'.live = rest →
      v'.regs.get r = w → stage.Soon k calls v' (n + 1)) : stage.Tends k calls v n := by
  have hset : (Instr.pop r).setsStackPointer = false ∧ (Instr.pop r).isUnnoted = true := by
    cases r <;> first | exact ⟨rfl, rfl⟩ | cases hr
  have hview : v.perform (.pop r) =
      some ({ v with live := rest, dead := w :: v.dead }.setReg r w) := by
    simp only [View.perform, hset.1, View.pop?, hlive]
    rfl
  have hne (other : Register) (hother : other.isScratch = false) :
      (v.regs.set r w).get other = v.regs.get other := by
    refine Registers.get_set_of_ne _ _ ?_
    rintro rfl
    rw [hr] at hother
    cases hother
  refine .instr hinstr hview (guardAt_of_isHarmless hinstr hspans rfl) hset.2
    (hrest _ ?_ rfl (Registers.get_set_self _ _ _))
  exact ⟨⟨hne .rbp rfl, hne .rsi rfl, hne .r15 rfl, rfl⟩, hne .rbx rfl, hne .r11 rfl,
    hne .r12 rfl, hne .r13 rfl, hne .r14 rfl, rfl⟩

/-- An instruction that only computes. -/
theorem Tends.single {instr : Instr} {height : Nat}
    (hinstr : stage.code.instrs[n]? = some instr) (hspans : v.Spans stage.board)
    (hlive : v.live = words ++ rest) (hheight : instr.heightAfter? words.length = some height)
    (hrest : ∀ v' words', v.Agrees v' → v'.live = words' ++ rest → words'.length = height →
      stage.Soon k calls v' (n + 1)) : stage.Tends k calls v n := by
  unfold Instr.heightAfter? at hheight
  split at hheight
  · next src =>
    exact .instr hinstr rfl (guardAt_of_isHarmless hinstr hspans rfl) rfl
      (hrest _ (v.reg src :: words) (v.agrees_push _) (congrArg (_ :: ·) hlive)
        (Option.some.inj hheight))
  · next imm =>
    exact .instr hinstr rfl (guardAt_of_isHarmless hinstr hspans rfl) rfl
      (hrest _ (.int imm.toInt64 :: words) (v.agrees_push _) (congrArg (_ :: ·) hlive)
        (Option.some.inj hheight))
  · next r height' hlength =>
    obtain ⟨hr, hheight⟩ := Option.ite_none_right_eq_some.1 hheight
    cases words with
    | nil => cases hlength
    | cons w words =>
      exact .pop hr hinstr hspans hlive fun v' hagrees hlive' _ => hrest v' words hagrees hlive'
        ((Nat.succ.inj hlength).trans (Option.some.inj hheight))
  · obtain ⟨hquiet, hheight⟩ := Option.ite_none_right_eq_some.1 hheight
    obtain ⟨hquiet, hharmless⟩ := Bool.and_eq_true_iff.1 hquiet
    exact .quiet hinstr hquiet (guardAt_of_isHarmless hinstr hspans hharmless) fun v' hv' =>
      hrest v' words hv'.agrees (hv'.live.trans hlive) (Option.some.inj hheight)

/-- Code that only computes. -/
theorem Soon.line {height : Nat} (hat : stage.code.At n instrs) (hspans : v.Spans stage.board)
    (hlive : v.live = words ++ rest) (hheight : heightAfter? words.length instrs = some height)
    (hrest : ∀ v' words', v.Agrees v' → v'.live = words' ++ rest → words'.length = height →
      stage.Soon k calls v' (n + instrs.length)) : stage.Soon k calls v n := by
  induction instrs generalizing v n words with
  | nil => exact hrest v words (.refl v) hlive (Option.some.inj hheight)
  | cons instr instrs ih =>
    obtain ⟨hinstr, hat⟩ := NativeCode.at_cons_iff.1 hat
    obtain ⟨height₁, hfirst, hheight⟩ := Option.bind_eq_some_iff.1 hheight
    refine (Tends.single hinstr hspans hlive hfirst fun v₁ words₁ hagrees hlive₁ hlength₁ => ?_).soon
    subst hlength₁
    refine ih hat (hagrees.spans hspans) hlive₁ hheight fun v' words' hagrees' hlive' hlength => ?_
    rw [Nat.add_assoc, Nat.add_comm 1]
    exact hrest v' words' (hagrees.trans hagrees') hlive' hlength

/-- Code that computes and goes on. -/
theorem Tends.line {instr : Instr} {height : Nat} (hat : stage.code.At n (instr :: instrs))
    (hspans : v.Spans stage.board) (hlive : v.live = words ++ rest)
    (hheight : heightAfter? words.length (instr :: instrs) = some height)
    (hrest : ∀ v' words', v.Agrees v' → v'.live = words' ++ rest → words'.length = height →
      stage.Soon k calls v' (n + (instr :: instrs).length)) : stage.Tends k calls v n := by
  obtain ⟨hinstr, hat⟩ := NativeCode.at_cons_iff.1 hat
  obtain ⟨height₁, hfirst, hheight⟩ := Option.bind_eq_some_iff.1 hheight
  refine .single hinstr hspans hlive hfirst fun v₁ words₁ hagrees hlive₁ hlength₁ => ?_
  subst hlength₁
  refine .line hat (hagrees.spans hspans) hlive₁ hheight fun v' words' hagrees' hlive' hlength => ?_
  rw [Nat.add_assoc, Nat.add_comm 1]
  exact hrest v' words' (hagrees.trans hagrees') hlive' hlength

/-- A word of a register is tested against itself, which shows whether it is zero. -/
theorem Tends.test {r : Register} (hr : r ≠ .rsp)
    (hinstr : stage.code.instrs[n]? = some (.test r r)) (hspans : v.Spans stage.board)
    (hrest : ∀ v' a, v.Recomputes v' → v'.regs.get r = .int a → v'.flags = some (.ofBits (a &&& a)) →
      stage.Soon k calls v' (n + 1)) : stage.Tends k calls v n := by
  refine .blurred hinstr rfl (guardAt_of_isHarmless hinstr hspans rfl)
    fun q p' v' _ hperform hv' hshows => ?_
  obtain ⟨a, ha, hperform⟩ := Option.bind_eq_some_iff.1 hperform
  rw [ha] at hperform
  obtain rfl := Option.some.inj hperform
  refine hrest v' a hv' ?_ hshows.flags.symm
  exact (Registers.get_set_of_ne _ _ hr).symm.trans
    ((hshows.reg r).symm.trans (Processor.reg_of_int? ha))

/-- The bits of an unknown word are masked. -/
theorem Tends.mask {r : Register} {imm : Int32} (hr : r.isScratch = true)
    (hinstr : stage.code.instrs[n]? = some (.aluImm .and r imm)) (hspans : v.Spans stage.board)
    (hrest : ∀ v' a, v.Recomputes v' → v'.regs.get r = .int (a &&& imm.toInt64) →
      (∀ other, other ≠ r → other ≠ .rsp → v'.regs.get other = v.regs.get other) →
        stage.Soon k calls v' (n + 1)) : stage.Tends k calls v n := by
  refine .blurred hinstr hr (guardAt_of_isHarmless hinstr hspans rfl)
    fun q p' v' hoperands hperform hv' hshows => ?_
  have hperform : q.bitwise (· &&& ·) r (q.reg r) (.int imm.toInt64) = some p' := hperform
  unfold Processor.bitwise at hperform
  have hreg (other : Register) (hother : other ≠ .rsp) : v'.regs.get other = p'.reg other :=
    (Registers.get_set_of_ne _ _ hother).symm.trans (hshows.reg other).symm
  have hrsp : r ≠ .rsp := by
    rintro rfl
    cases hr
  split at hperform
  · next a b ha hb =>
    obtain rfl := Word.int.inj hb
    obtain rfl := Option.some.inj hperform
    refine hrest v' a hv' ((hreg r hrsp).trans (Registers.get_set_self _ _ _)) fun other hne hother => ?_
    rw [hreg other hother]
    refine (Registers.get_set_of_ne _ _ hne).trans ?_
    rcases hoperands other with hsame | ⟨hmem, -⟩
    · exact hsame.trans (Registers.get_set_of_ne _ _ hother)
    · exact (hne (List.mem_singleton.1 hmem)).elim
  · cases hperform

end Stage
end Native
end Gobstones
