import Gobstones.Proofs.Native.Saving
/-!
# All builtins on any words

This module follows the code of exponentiations and divisions, and puts together what the
code of all builtins keeps to, whatever the words on the stack are.  A division gets a
divisor other than zero and minus one and a dividend whose sign has been extended, so that
it always has a result.

Main results:

- Theorem {lit}`Stage.tames_power`: the code of an exponentiation.
- Theorem {lit}`Stage.tames_division`: the code of a division.
- Theorem {lit}`Stage.tames_of_standard`: the code of every builtin.
-/

namespace Gobstones
namespace Native
namespace Stage

variable {stage : Stage} {k n m : Nat} {calls : List OpenCall} {v v' : View}
variable {words rest : List Word} {instrs : List Instr} {w : Word}

/-- A conditional jump in code that computes in registers. -/
theorem Tends.split {label : Label} {cond : Condition}
    (hinstr : stage.code.instrs[n]? = some (.jcc cond label))
    (hplace : stage.code.place label = some m) (hspans : v.Spans stage.board)
    (htaken : stage.Soon k calls v m) (hpassed : stage.Soon k calls v (n + 1)) :
    stage.Tends k calls v n :=
  .branch hinstr hplace (guardAt_of_isHarmless hinstr hspans rfl) htaken hpassed

/-! ## Exponentiation -/

section Power

variable {negative top skip done : Label}

/-- The loop of an exponentiation goes on until there are no bits left, if there is an end. -/
theorem Tends.powerLoop (hlinked : stage.code.Linked)
    (hat : stage.code.At n (powerCode negative top skip done)) (hspans : v.Spans stage.board)
    (hrest : ∀ v', v.Recomputes v' → stage.Soon k calls v' (n + 17)) :
    stage.Tends k calls v (n + 6) := by
  induction k using Nat.strongRecOn generalizing v with
  | ind k ih =>
    have hdone := hlinked.place_eq (hat 7 _ rfl) rfl (hat 16 _ rfl)
    have hskip := hlinked.place_eq (hat 10 _ rfl) rfl (hat 12 _ rfl)
    have htop := hlinked.place_eq (hat 15 _ rfl) rfl (hat 5 _ rfl)
    -- The two paths through the body join where the base is squared.
    have hjoin (v₃ : View) (hv₃ : v.Recomputes v₃) : stage.Soon k calls v₃ (n + 13) := by
      refine .quiet (hat.slice 13 2) rfl (hv₃.agrees.spans hspans) fun v' hv' => ?_
      have hall := hv₃.trans hv'
      refine (Tends.jmp (hat 15 _ rfl) htop (guardAt_of_isHarmless (hat 15 _ rfl)
        (hall.agrees.spans hspans) rfl) fun j hj => ?_).soon
      exact ih j hj (hall.agrees.spans hspans) fun v'' hv'' =>
        (hrest v'' (hall.trans hv'')).mono (Nat.le_of_lt hj)
    refine .quiet (hat 6 _ rfl) rfl (guardAt_of_isHarmless (hat 6 _ rfl) hspans rfl)
      fun v₁ hv₁ => ?_
    refine (Tends.split (hat 7 _ rfl) hdone (hv₁.agrees.spans hspans) (hrest v₁ hv₁)
      (.quiet (hat.slice 8 2) rfl (hv₁.agrees.spans hspans) fun v₂ hv₂ => ?_)).soon
    have hv₂ := hv₁.trans hv₂
    have hspans₂ := hv₂.agrees.spans hspans
    refine (Tends.split (hat 10 _ rfl) hskip hspans₂ (hjoin v₂ hv₂)
      (.quiet (hat.slice 11 2) rfl hspans₂ fun v₃ hv₃ => ?_)).soon
    exact hjoin v₃ (hv₂.trans hv₃)

theorem tames_power (hlinked : stage.code.Linked) {message : String}
    (hstub : (message, negative) ∈ stage.stubs) :
    stage.Tames (powerCode negative top skip done) 2 1 := by
  intro k calls v n words rest hat hspans hlive hlength hfaults hrest
  obtain ⟨a, b, rfl⟩ := List.length_eq_two.1 hlength
  obtain ⟨m, hplace, hsoon⟩ := hfaults.exists_place hlinked hstub (hat 3 _ rfl) rfl
  refine .pop rfl (hat 0 _ rfl) hspans hlive fun v₁ hv₁ hlive₁ _ => (Tends.pop rfl (hat 1 _ rfl)
    (hv₁.spans hspans) hlive₁ fun v₂ hv₂ hlive₂ _ => ?_).soon
  have hv₂ := hv₁.trans hv₂
  refine .quiet (hat.slice 2 1) rfl (hv₂.spans hspans) fun v₃ hv₃ => ?_
  have hlive₃ := hv₃.live.trans hlive₂
  have hv₃ := hv₂.trans hv₃.agrees
  refine (Tends.split (hat 3 _ rfl) hplace (hv₃.spans hspans) (hsoon v₃ hv₃.toKeeps (hlive₃ ▸
    List.suffix_refl _)) (.quiet (hat.slice 4 2) rfl (hv₃.spans hspans) fun v₄ hv₄ => ?_)).soon
  have hlive₄ := hv₄.live.trans hlive₃
  have hv₄ := hv₃.trans hv₄.agrees
  refine (Tends.powerLoop hlinked hat (hv₄.spans hspans) fun v₅ hv₅ => ?_).soon
  have hlive₅ := hv₅.live.trans hlive₄
  have hv₅ := hv₄.trans hv₅.agrees
  refine (Tends.instr (hat 17 _ rfl) rfl (guardAt_of_isHarmless (hat 17 _ rfl) (hv₅.spans hspans)
    rfl) rfl (hrest _ [v₅.reg .rax] (hv₅.trans (v₅.agrees_push _)).toKeeps
      ((hv₅.trans (v₅.agrees_push _)).spans hspans) (congrArg (_ :: ·) hlive₅) rfl)).soon

end Power

/-! ## Division -/

section Division

variable {byZero normal exact done : Label} {result : DivisionResult}

/-- The sign of the dividend is extended. -/
theorem Tends.cqo (hinstr : stage.code.instrs[n]? = some .cqo) (hspans : v.Spans stage.board)
    (hrest : ∀ v' a, v.Recomputes v' → v'.regs.rax = .int a →
      v'.regs.rdx = .int (if a < 0 then -1 else 0) → v'.regs.rcx = v.regs.rcx →
        stage.Soon k calls v' (n + 1)) : stage.Tends k calls v n := by
  refine .blurred hinstr rfl (guardAt_of_isHarmless hinstr hspans rfl)
    fun q p' v' hoperands hperform hv' hshows => ?_
  obtain ⟨a, ha, hperform⟩ := Option.bind_eq_some_iff.1 hperform
  obtain rfl := Option.some.inj hperform
  have hreg (r : Register) (hr : r ≠ .rsp) : v'.regs.get r =
      (q.setReg .rdx (.int (if a < 0 then -1 else 0))).reg r :=
    (Registers.get_set_of_ne _ _ hr).symm.trans (hshows.reg r).symm
  refine hrest v' a hv' ?_ (hreg .rdx (by decide)) ?_
  · exact (hreg .rax (by decide)).trans (Processor.reg_of_int? ha)
  · refine (hreg .rcx (by decide)).trans ?_
    rcases hoperands .rcx with hsame | ⟨hmem, -⟩
    · exact hsame
    · cases List.mem_singleton.1 hmem

/-- A division by a number other than zero and minus one has a result. -/
theorem Tends.idiv {a b : Int64} (hinstr : stage.code.instrs[n]? = some (.idiv .rcx))
    (hspans : v.Spans stage.board) (hrax : v.regs.rax = .int a)
    (hrdx : v.regs.rdx = .int (if a < 0 then -1 else 0)) (hrcx : v.regs.rcx = .int b)
    (hzero : b ≠ 0) (hminus : b ≠ -1)
    (hrest : ∀ v', v.Recomputes v' → stage.Soon k calls v' (n + 1)) : stage.Tends k calls v n := by
  have hview := View.perform_idiv hrax hrdx hrcx hzero hminus
  refine .instr hinstr hview ?_ rfl (hrest _ ⟨rfl, fun r hr hrsp => ?_⟩)
  · refine guardAt_of_heads hinstr (fun _ hp _ => hspans.heads hp) (fun _ _ _ haccess => nomatch haccess)
      (fun p hp hposition => ⟨?_, nofun, keepsVariables_of_access (hposition ▸ hinstr) ?_⟩) rfl
    · rintro _ ⟨rfl⟩
      subst hposition
      have hgo : (p.goTo (p.position + 1)).Shows v :=
        ⟨hp.regs, hp.flags, hp.board, hp.results, hp.words⟩
      obtain ⟨p', hperform, -, -⟩ := @Processor.Shows.perform _ _ _ stage.code.place hgo _ hview
      refine ⟨b, (hp.reg .rcx).trans hrcx, hzero, hminus, p', ?_⟩
      simp only [Processor.step, hinstr, hperform]
    · intro mem size haccess
      cases haccess
  · have hrax : r ≠ .rax := by
      rintro rfl
      cases hr
    have hrdx : r ≠ .rdx := by
      rintro rfl
      cases hr
    exact (Registers.get_set_of_ne _ _ hrdx).trans
      ((Registers.get_set_of_ne _ _ hrax).trans (Registers.get_set_of_ne _ _ hrsp))

/-- The division instruction and the correction of its result. -/
theorem Tends.roundingCode {b : Int64} (hlinked : stage.code.Linked)
    (hat : stage.code.At n (result.roundingCode exact)) (hspans : v.Spans stage.board)
    (hrcx : v.regs.rcx = .int b) (hzero : b ≠ 0) (hminus : b ≠ -1)
    (hrest : ∀ v' w, v.Agrees v' → v'.live = w :: v.live → stage.Soon k calls v' (n + 11)) :
    stage.Tends k calls v n := by
  have hplace := hlinked.place_eq (hat 3 _ rfl) rfl (hat 9 _ rfl)
  -- All paths end with a push of the result.
  have hpush (v' : View) (hv' : v.Recomputes v') : stage.Soon k calls v' (n + 10) :=
    (Tends.instr (hat 10 _ rfl) rfl (guardAt_of_isHarmless (hat 10 _ rfl)
      (hv'.agrees.spans hspans) rfl) rfl (hrest _ _ (hv'.agrees.trans (v'.agrees_push _))
        (congrArg (_ :: ·) hv'.live))).soon
  refine .cqo (hat 0 _ rfl) hspans fun v₁ a hv₁ hrax hrdx hrcx₁ => (Tends.idiv (hat 1 _ rfl)
    (hv₁.agrees.spans hspans) hrax hrdx (hrcx₁.trans hrcx) hzero hminus fun v₂ hv₂ => ?_).soon
  have hv₂ := hv₁.trans hv₂
  refine .quiet (hat.slice 2 1) rfl (hv₂.agrees.spans hspans) fun v₃ hv₃ => ?_
  have hv₃ := hv₂.trans hv₃
  refine (Tends.split (hat 3 _ rfl) hplace (hv₃.agrees.spans hspans) (hpush v₃ hv₃)
    (.quiet (hat.slice 4 3) rfl (hv₃.agrees.spans hspans) fun v₄ hv₄ => ?_)).soon
  have hv₄ := hv₃.trans hv₄
  have hquiet : [result.correctionCode, .bind exact].all
      (fun instr => instr.isQuiet && instr.isHarmless) = true := by
    cases result <;> rfl
  refine (Tends.split (hat 7 _ rfl) hplace (hv₄.agrees.spans hspans) (hpush v₄ hv₄)
    (.quiet (hat.slice 8 2) hquiet (hv₄.agrees.spans hspans) fun v₅ hv₅ => ?_)).soon
  exact hpush v₅ (hv₄.trans hv₅)

theorem tames_division (hlinked : stage.code.Linked) {message : String}
    (hstub : (message, byZero) ∈ stage.stubs) :
    stage.Tames (divisionCode result byZero normal exact done) 2 1 := by
  intro k calls v n words rest hat hspans hlive hlength hfaults hrest
  obtain ⟨a, b, rfl⟩ := List.length_eq_two.1 hlength
  obtain ⟨m, hplace, hsoon⟩ := hfaults.exists_place hlinked hstub (hat 3 _ rfl) rfl
  refine .pop rfl (hat 0 _ rfl) hspans hlive fun v₁ hv₁ hlive₁ _ => (Tends.pop rfl (hat 1 _ rfl)
    (hv₁.spans hspans) hlive₁ fun v₂ hv₂ hlive₂ _ => ?_).soon
  have hv₂ := hv₁.trans hv₂
  refine (Tends.test (by decide) (hat 2 _ rfl) (hv₂.spans hspans)
    fun v₃ b hv₃ hrcx hflags => ?_).soon
  have hlive₃ := hv₃.live.trans hlive₂
  have hv₃ := hv₂.trans hv₃.agrees
  have hself : b &&& b = b := Int64.and_self
  have himm : (-1 : Int32).toInt64 = -1 := rfl
  have hguard : stage.GuardAt calls v₃ (n + 3) :=
    guardAt_of_isHarmless (hat 3 _ rfl) (hv₃.spans hspans) rfl
  by_cases hzero : b = 0
  · refine (Tends.taken (hat 3 _ rfl) hflags ?_ hplace hguard
      (hsoon v₃ hv₃.toKeeps (hlive₃ ▸ List.suffix_refl _))).soon
    simp [Flags.holds, Flags.ofBits, hzero]
  refine (Tends.passed (hat 3 _ rfl) hflags ?_ hguard ?_).soon
  · simpa [Flags.holds, Flags.ofBits, hself] using hzero
  rcases v₃ with ⟨⟨rax, rcx, rdx, rbx, rsp, rbp, rsi, rdi, r8, r9, r10, r11, r12, r13, r14, r15⟩,
    flags, live, dead, cells, results⟩
  obtain rfl : rcx = .int b := hrcx
  refine .block (hat.slice 4 1) rfl rfl (hv₃.spans hspans) fun hv₄ => ?_
  have hlive₄ := hv₄.live.trans hlive₃
  have hlive₄' : _ = [] ++ rest := hlive₄
  have hv₄ := hv₃.trans hv₄.agrees
  have hspans₄ := hv₄.spans hspans
  have hguard : stage.GuardAt calls _ (n + 5) :=
    guardAt_of_isHarmless (hat 5 _ rfl) hspans₄ rfl
  by_cases hminus : b = -1
  · subst hminus
    refine (Tends.passed (hat 5 _ rfl) rfl rfl hguard ?_).soon
    cases result with
    | quotient =>
      have hplace := hlinked.place_eq (hat 8 _ rfl) rfl (hat 21 _ rfl)
      refine .line (hat.slice 6 2) hspans₄ hlive₄' rfl fun v₅ words hv₅ hlive₅ hlength => ?_
      have hv₅ := hv₄.trans hv₅
      exact (Tends.jmp (hat 8 _ rfl) hplace (guardAt_of_isHarmless (hat 8 _ rfl) (hv₅.spans hspans)
        rfl) (hrest v₅ words hv₅.toKeeps (hv₅.spans hspans) hlive₅ hlength)).soon
    | remainder =>
      have hplace := hlinked.place_eq (hat 7 _ rfl) rfl (hat 20 _ rfl)
      refine .line (hat.slice 6 1) hspans₄ hlive₄' rfl fun v₅ words hv₅ hlive₅ hlength => ?_
      have hv₅ := hv₄.trans hv₅
      exact (Tends.jmp (hat 7 _ rfl) hplace (guardAt_of_isHarmless (hat 7 _ rfl) (hv₅.spans hspans)
        rfl) (hrest v₅ words hv₅.toKeeps (hv₅.spans hspans) hlive₅ hlength)).soon
  · have htaken : (!decide (b = (-1 : Int32).toInt64)) = true := by
      rw [himm, decide_eq_false hminus]
      rfl
    cases result with
    | quotient =>
      have hplace := hlinked.place_eq (hat 5 _ rfl) rfl (hat 9 _ rfl)
      refine Tends.soon (.taken (hat 5 _ rfl) rfl htaken hplace hguard (Tends.roundingCode hlinked
        (hat.slice 10 11) hspans₄ rfl hzero hminus fun v₅ w hv₅ hlive₅ => ?_).soon)
      have hv₅ := hv₄.trans hv₅
      exact (Tends.bind (hat 21 _ rfl) (guardAt_of_isHarmless (hat 21 _ rfl) (hv₅.spans hspans) rfl)
        (hrest v₅ [w] hv₅.toKeeps (hv₅.spans hspans) (hlive₅.trans (congrArg (w :: ·) hlive₄))
          rfl)).soon
    | remainder =>
      have hplace := hlinked.place_eq (hat 5 _ rfl) rfl (hat 8 _ rfl)
      refine Tends.soon (.taken (hat 5 _ rfl) rfl htaken hplace hguard (Tends.roundingCode hlinked
        (hat.slice 9 11) hspans₄ rfl hzero hminus fun v₅ w hv₅ hlive₅ => ?_).soon)
      have hv₅ := hv₄.trans hv₅
      exact (Tends.bind (hat 20 _ rfl) (guardAt_of_isHarmless (hat 20 _ rfl) (hv₅.spans hspans) rfl)
        (hrest v₅ [w] hv₅.toKeeps (hv₅.spans hspans) (hlive₅.trans (congrArg (w :: ·) hlive₄))
          rfl)).soon

end Division

/-! ## All builtins -/

/-- A failure that depends on a color or a direction has a stub for each of them. -/
theorem exists_stub {T : Type} {index : T → Nat} {message : T → String} {labels : List Label}
    (all : List T) (hall : all.map index = List.range labels.length)
    (h : ∀ t, ∃ label, labels[index t]? = some label ∧ (message t, label) ∈ stage.stubs) :
    ∀ label ∈ labels, ∃ message, (message, label) ∈ stage.stubs := by
  intro label hlabel
  obtain ⟨i, hi⟩ := List.mem_iff_getElem?.1 hlabel
  obtain ⟨hlt, -⟩ := List.getElem?_eq_some_iff.1 hi
  obtain ⟨t, -, rfl⟩ := List.mem_map.1 (hall ▸ List.mem_range.2 hlt)
  obtain ⟨other, hother, hmem⟩ := h t
  obtain rfl := Option.some.inj (hi.symm.trans hother)
  exact ⟨message t, hmem⟩

section Builtins

variable (hlinked : stage.code.Linked) (hfits : stage.board.nativeLength < 2 ^ 63)
variable (hboard : stage.board.WellFormed)
include hlinked hfits hboard

theorem tames_of_untyped {builtin : Builtin} (hmem : builtin ∈ Builtin.untyped)
    (hcode : BuiltinCode stage.stubs builtin.name instrs) :
    stage.Tames instrs builtin.arity (if builtin.kind = .function then 1 else 0) := by
  simp only [Builtin.untyped, List.mem_cons, List.not_mem_nil, or_false] at hmem
  rcases hmem with rfl | rfl | rfl | rfl | rfl | rfl | rfl | rfl | rfl | rfl | rfl | rfl | rfl |
    rfl | rfl | rfl | rfl | rfl | rfl | rfl | rfl | rfl | rfl | rfl | rfl | rfl | rfl | rfl | rfl |
    rfl | rfl | rfl | rfl | rfl
  · obtain rfl := Option.some.inj hcode
    exact tames_putStone hfits hboard
  · obtain ⟨enough, labels, fault0, fault1, fault2, fault3, hfault, rfl⟩ := hcode
    exact tames_takeStone hfits hboard hlinked
      (exists_stub [.blue, .black, .red, .green] rfl hfault)
  · obtain ⟨labels, fault0, fault1, fault2, fault3, hfault, rfl⟩ := hcode
    exact tames_move hlinked
      (exists_stub [.north, .east, .south, .west] rfl hfault)
  · obtain ⟨labels, rfl⟩ := hcode
    exact tames_goToBoundary hboard hlinked
  · obtain rfl := Option.some.inj hcode
    exact tames_goToOrigin hboard
  · obtain ⟨top, done, rfl⟩ := hcode
    exact tames_clearBoard hfits hboard hlinked
  · obtain rfl := Option.some.inj hcode
    exact tames_ofCounter hfits hboard rfl
  · obtain rfl := Option.some.inj hcode
    exact tames_ofCounter hfits hboard rfl
  · obtain ⟨labels, rfl⟩ := hcode
    exact tames_canMove hlinked
  -- Most builtins compute on the stack, and those with typed instances have no code under their
  -- untyped names.
  iterate 6
    obtain rfl := Option.some.inj hcode
    exact tames_of_heightAfter rfl
  iterate 4 cases hcode
  iterate 12
    obtain rfl := Option.some.inj hcode
    exact tames_of_heightAfter rfl
  · obtain ⟨negative, top, skip, done, hstub, rfl⟩ := hcode
    exact tames_power hlinked hstub
  · obtain ⟨byZero, normal, exact, done, hstub, rfl⟩ := hcode
    exact tames_division hlinked hstub
  · obtain ⟨byZero, normal, exact, done, hstub, rfl⟩ := hcode
    exact tames_division hlinked hstub

omit hlinked hfits hboard in
theorem tames_of_typed {builtin : Builtin} (hmem : builtin ∈ Builtin.typed)
    (hcode : BuiltinCode stage.stubs builtin.name instrs) :
    stage.Tames instrs builtin.arity (if builtin.kind = .function then 1 else 0) := by
  simp only [Builtin.typed, Builtin.typedInstances, List.mem_append, List.mem_cons,
    List.not_mem_nil, or_false, List.flatMap_cons, List.flatMap_nil, List.map_cons, List.map_nil,
    ValueType.name] at hmem
  rcases hmem with (rfl | rfl | rfl | rfl) | (rfl | rfl | rfl | rfl) | (rfl | rfl | rfl) |
    (rfl | rfl)
  all_goals
    obtain rfl := Option.some.inj hcode
    exact tames_of_heightAfter rfl

/-- The code of a builtin takes its arguments off the stack and leaves its result there. -/
theorem tames_of_standard {builtin : Builtin} (hmem : builtin ∈ BuiltinTable.standard.entries)
    (hcode : BuiltinCode stage.stubs builtin.name instrs) :
    stage.Tames instrs builtin.arity (if builtin.kind = .function then 1 else 0) :=
  (List.mem_append.1 hmem).elim (tames_of_untyped hlinked hfits hboard · hcode)
    (tames_of_typed · hcode)

end Builtins

end Stage
end Native
end Gobstones
