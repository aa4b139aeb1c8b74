import Gobstones.Proofs.Native.View
/-!
# Following native code

This module follows linked code from view to view.  A piece of code is followed with
what is to be shown at its end, so that the rules for single instructions can be put
together from the last one to the first.

Main definitions:

- {lit}`NativeCode.Leads`: what code comes to from a view at a position.

Main results:

- Theorem {lit}`NativeCode.Leads.trans`: pieces of code that follow each other.
- Theorem {lit}`NativeCode.Leads.block`: a piece of code without branches.
- Theorems {lit}`NativeCode.Leads.jmp`, {lit}`NativeCode.Leads.taken`,
  {lit}`NativeCode.Leads.call` and {lit}`NativeCode.Leads.ret`: branches.
-/

namespace Gobstones
namespace Native

/-! ## Runs of the processor -/

theorem Processor.run_add {instrs : Array Instr} {place : Label → Option Nat} {k l : Nat}
    {p p' : Processor} (h : p.run k instrs place = .running p') :
    p.run (k + l) instrs place = p'.run l instrs place := by
  induction k generalizing p with
  | zero =>
    obtain rfl := Processor.Progress.running.inj h
    rw [Nat.zero_add]
  | succ k ih =>
    rw [Nat.add_right_comm]
    simp only [Processor.run] at h ⊢
    split at h
    · next next hnext =>
      exact ih h
    · next hended => exact (hended p' h).elim

namespace NativeCode

/-- From a view at a position the code comes to a view and a position with a property. -/
def Leads (code : NativeCode) (v : View) (n : Nat) (Q : View → Nat → Prop) : Prop :=
  ∀ p : Processor, p.Shows v → p.position = n →
    ∃ k p' v' n', p.run k code.instrs code.place = .running p' ∧ p'.Shows v' ∧
      p'.position = n' ∧ Q v' n'

variable {code : NativeCode} {v v' : View} {n m : Nat} {Q R : View → Nat → Prop}

/-- Nothing is left to do. -/
theorem Leads.done (h : Q v n) : code.Leads v n Q := by
  intro p hp hposition
  exact ⟨0, p, v, n, rfl, hp, hposition, h⟩

/-- Pieces of code that follow each other. -/
theorem Leads.trans (h : code.Leads v n Q) (hrest : ∀ v' n', Q v' n' → code.Leads v' n' R) :
    code.Leads v n R := by
  intro p hp hposition
  obtain ⟨k, p₁, v₁, n₁, hrun, hp₁, hposition₁, hQ⟩ := h p hp hposition
  obtain ⟨l, p₂, v₂, n₂, hrun₂, hp₂, hposition₂, hR⟩ := hrest v₁ n₁ hQ p₁ hp₁ hposition₁
  refine ⟨k + l, p₂, v₂, n₂, ?_, hp₂, hposition₂, hR⟩
  rw [Processor.run_add hrun, hrun₂]

/-- Code that comes to something comes to what follows from it. -/
theorem Leads.mono (h : code.Leads v n Q) (himp : ∀ v' n', Q v' n' → R v' n') :
    code.Leads v n R :=
  h.trans fun v' n' hQ => .done (himp v' n' hQ)

/-! ## Single instructions -/

/-- One step of the processor, given by what the processor does at its next position. -/
theorem Leads.step {instr : Instr} (hinstr : code.instrs[n]? = some instr)
    (h : ∀ p : Processor, p.Shows v → p.position = n + 1 →
      ∃ p' v', p.perform code.place instr = some p' ∧ p'.Shows v' ∧
        code.Leads v' p'.position Q) : code.Leads v n Q := by
  intro p hp hposition
  have hgo : (p.goTo (p.position + 1)).Shows v :=
    ⟨hp.regs, hp.flags, hp.board, hp.results, hp.words⟩
  obtain ⟨p₁, v₁, hperform, hp₁, hrest⟩ := h _ hgo (by rw [← hposition]; rfl)
  obtain ⟨k, p₂, v₂, n₂, hrun, hp₂, hposition₂, hQ⟩ := hrest p₁ hp₁ rfl
  refine ⟨k + 1, p₂, v₂, n₂, ?_, hp₂, hposition₂, hQ⟩
  have hstep : p.step code.instrs code.place = .running p₁ := by
    simp only [Processor.step, hposition, hinstr]
    rw [← hposition, hperform]
  simp only [Processor.run, hstep, hrun]

/-- An instruction that does not branch. -/
theorem Leads.instr {instr : Instr} (hinstr : code.instrs[n]? = some instr)
    (hview : v.perform instr = some v') (hrest : code.Leads v' (n + 1) Q) : code.Leads v n Q := by
  refine .step hinstr fun p hp hposition => ?_
  obtain ⟨p', hperform, hp', hposition'⟩ := hp.perform hview
  refine ⟨p', v', hperform, hp', ?_⟩
  rw [hposition', hposition]
  exact hrest

/-- A piece of code without branches. -/
theorem Leads.block {instrs : List Instr} (hat : code.At n instrs)
    (hview : v.performAll instrs = some v') (hrest : code.Leads v' (n + instrs.length) Q) :
    code.Leads v n Q := by
  induction instrs generalizing v n with
  | nil =>
    obtain rfl := Option.some.inj hview
    exact hrest
  | cons instr instrs ih =>
    obtain ⟨hinstr, hat⟩ := at_cons_iff.1 hat
    obtain ⟨v₁, hv₁, hview⟩ := Option.bind_eq_some_iff.1 hview
    refine .instr hinstr hv₁ (ih hat hview ?_)
    rw [Nat.add_assoc, Nat.add_comm 1]
    exact hrest

/-! ## Branches -/

/-- A jump. -/
theorem Leads.jmp {label : Label} (hinstr : code.instrs[n]? = some (.jmp label))
    (hplace : code.place label = some m) (hrest : code.Leads v m Q) : code.Leads v n Q := by
  refine .step hinstr fun p hp _ => ⟨p.goTo m, v, ?_, ?_, hrest⟩
  · simp [Processor.perform, hplace]
  · exact ⟨hp.regs, hp.flags, hp.board, hp.results, hp.words⟩

/-- A conditional jump that is taken. -/
theorem Leads.taken {label : Label} {cond : Condition} {flags : Flags}
    (hinstr : code.instrs[n]? = some (.jcc cond label)) (hflags : v.flags = some flags)
    (hcond : flags.holds cond = true) (hplace : code.place label = some m)
    (hrest : code.Leads v m Q) : code.Leads v n Q := by
  refine .step hinstr fun p hp _ => ⟨p.goTo m, v, ?_, ?_, hrest⟩
  · simp [Processor.perform, hp.flags, hflags, hcond, hplace]
  · exact ⟨hp.regs, hp.flags, hp.board, hp.results, hp.words⟩

/-- A conditional jump that is not taken. -/
theorem Leads.passed {label : Label} {cond : Condition} {flags : Flags}
    (hinstr : code.instrs[n]? = some (.jcc cond label)) (hflags : v.flags = some flags)
    (hcond : flags.holds cond = false) (hrest : code.Leads v (n + 1) Q) : code.Leads v n Q := by
  refine .step hinstr fun p hp hposition => ⟨p, v, ?_, hp, hposition ▸ hrest⟩
  simp [Processor.perform, hp.flags, hflags, hcond]

/-- The place of a label. -/
theorem Leads.bind {label : Label} (hinstr : code.instrs[n]? = some (.bind label))
    (hrest : code.Leads v (n + 1) Q) : code.Leads v n Q :=
  .step hinstr fun p hp hposition => ⟨p, v, rfl, hp, hposition ▸ hrest⟩

/-- A call pushes the place behind it. -/
theorem Leads.call {label : Label} (hinstr : code.instrs[n]? = some (.call label))
    (hplace : code.place label = some m) (hrest : code.Leads (v.push (.code (n + 1))) m Q) :
    code.Leads v n Q := by
  refine .step hinstr fun p hp hposition => ?_
  obtain ⟨p', hpush, hp', -⟩ := hp.pushWord (.code (n + 1))
  refine ⟨p'.goTo m, _, ?_, ?_, hrest⟩
  · simp [Processor.perform, hplace, hposition, hpush]
  · exact ⟨hp'.regs, hp'.flags, hp'.board, hp'.results, hp'.words⟩

/-- A return goes on at the place on top of the stack. -/
theorem Leads.ret (hinstr : code.instrs[n]? = some .ret) (hpop : v.pop? = some (.code m, v'))
    (hrest : code.Leads v' m Q) : code.Leads v n Q := by
  refine .step hinstr fun p hp _ => ?_
  obtain ⟨p', hp', hshows, -⟩ := hp.popWord hpop
  refine ⟨p'.goTo m, v', ?_, ?_, hrest⟩
  · simp [Processor.perform, hp']
  · exact ⟨hshows.regs, hshows.flags, hshows.board, hshows.results, hshows.words⟩

/-! ## The stack pointer -/

/-- The view after the stack pointer has been moved back over words, which are left behind. -/
theorem shows_release {p : Processor} (hp : p.Shows v) {above below : List Word}
    (hlive : v.live = above ++ below) (flags : Option Flags) :
    ((p.setReg .rsp (.stack (-(8 * below.length)))).withFlags flags).Shows
      { v with live := below, dead := above.reverse ++ v.dead, flags } := by
  refine ⟨?_, rfl, hp.board, hp.results, fun a w hw => hp.words a w ?_⟩
  · change p.regs.set .rsp _ = v.regs.set .rsp _
    rw [hp.regs]
    rfl
  · rw [View.mem, hlive, List.reverse_append, List.append_assoc]
    exact hw

/-- The stack pointer is set to the address of an earlier word. -/
theorem Leads.setStackPointer {src : Register} {above below : List Word}
    (hinstr : code.instrs[n]? = some (.mov .rsp src)) (hlive : v.live = above ++ below)
    (hsrc : v.reg src = .stack (-(8 * below.length)))
    (hrest : code.Leads { v with live := below, dead := above.reverse ++ v.dead } (n + 1) Q) :
    code.Leads v n Q := by
  refine .step hinstr fun p hp hposition => ?_
  refine ⟨p.setReg .rsp (.stack (-(8 * below.length))), _, ?_, ?_, hposition ▸ hrest⟩
  · rw [Processor.perform, hp.reg, hsrc]
  · have hshows := shows_release hp hlive v.flags
    exact ⟨hshows.regs, hp.flags, hp.board, hp.results, hshows.words⟩

/-- Words are dropped by moving the stack pointer. -/
theorem exists_release {p : Processor} (hp : p.Shows v) {imm : Int32} {above below : List Word}
    (hlive : v.live = above ++ below) (himm : imm.toInt64.toInt = 8 * above.length)
    (place : Label → Option Nat) :
    ∃ p', p.perform place (.aluImm .add .rsp imm) = some p' ∧ p'.position = p.position ∧
      p'.Shows { v with live := below, dead := above.reverse ++ v.dead, flags := none } := by
  have hrsp : p.reg .rsp = .stack (-(8 * v.live.length)) := by
    rw [Processor.reg, hp.regs, Registers.get_set_self, View.top]
  refine ⟨(p.setReg .rsp (.stack (-(8 * below.length)))).withFlags none, ?_, rfl,
    shows_release hp hlive none⟩
  simp only [Processor.perform, Processor.alu]
  rw [hrsp, Word.add, himm, hlive, List.length_append]
  simp only [Option.map_some, Option.some.injEq, Processor.integerFlags]
  congr 3
  push_cast
  omega

/-- Words are dropped by moving the stack pointer. -/
theorem Leads.release {imm : Int32} {above below : List Word}
    (hinstr : code.instrs[n]? = some (.aluImm .add .rsp imm)) (hlive : v.live = above ++ below)
    (himm : imm.toInt64.toInt = 8 * above.length)
    (hrest : code.Leads { v with live := below, dead := above.reverse ++ v.dead, flags := none }
      (n + 1) Q) : code.Leads v n Q := by
  refine .step hinstr fun p hp hposition => ?_
  obtain ⟨p', hperform, hposition', hp'⟩ := exists_release hp hlive himm code.place
  exact ⟨p', _, hperform, hp', (hposition'.trans hposition) ▸ hrest⟩

/-- Room for words is made by moving the stack pointer.  Nothing is known of what is found
there. -/
theorem exists_reserve {p : Processor} (hp : p.Shows v) {src : Register} {size : Int64}
    {words : Nat} (hsrc : v.reg src = .int size) (hsize : size.toInt = 8 * words)
    (place : Label → Option Nat) :
    ∃ (p' : Processor) (found : List Word), p.perform place (.alu .sub .rsp src) = some p' ∧
      p'.position = p.position ∧ found.length = words ∧
      p'.Shows { v with live := found ++ v.live, dead := [], flags := none } := by
  let found := (List.range words).reverse.map fun i => p.word (v.live.length + i)
  have hfound : found.length = words := by simp [found]
  have hrsp : p.reg .rsp = .stack (-(8 * v.live.length)) := by
    rw [Processor.reg, hp.regs, Registers.get_set_self, View.top]
  refine ⟨(p.setReg .rsp (.stack (-(8 * (found ++ v.live).length)))).withFlags none, found, ?_,
    rfl, hfound, ?_⟩
  · simp only [Processor.perform, Processor.alu, reduceCtorEq, false_and, if_false]
    rw [hp.reg src, hsrc, hrsp, Word.sub, hsize, List.length_append, hfound]
    simp only [Option.map_some, Option.some.injEq, Processor.integerFlags]
    congr 3
    push_cast
    omega
  · refine ⟨?_, rfl, hp.board, hp.results, fun a w hw => ?_⟩
    · change p.regs.set .rsp _ = v.regs.set .rsp _
      rw [hp.regs]
      rfl
    · simp only [View.mem, List.reverse_append, List.append_nil] at hw
      by_cases ha : a < v.live.length
      · rw [List.getElem?_append_left (by simpa using ha)] at hw
        refine hp.words a w ?_
        rw [View.mem, List.getElem?_append_left (by simpa using ha)]
        exact hw
      · rw [List.getElem?_append_right (by simpa using ha)] at hw
        simp only [found, ← List.map_reverse, List.reverse_reverse, List.getElem?_map,
          List.length_reverse, Option.map_eq_some_iff] at hw
        obtain ⟨i, hi, rfl⟩ := hw
        obtain ⟨-, rfl⟩ := List.getElem?_eq_some_iff.1 hi
        simp only [List.getElem_range]
        change p.word a = _
        congr 1
        omega

/-- Room for words is made by moving the stack pointer.  Nothing is known of what is found
there. -/
theorem Leads.reserve {src : Register} {size : Int64} {words : Nat}
    (hinstr : code.instrs[n]? = some (.alu .sub .rsp src)) (hsrc : v.reg src = .int size)
    (hsize : size.toInt = 8 * words)
    (hrest : ∀ found : List Word, found.length = words →
      code.Leads { v with live := found ++ v.live, dead := [], flags := none } (n + 1) Q) :
    code.Leads v n Q := by
  refine .step hinstr fun p hp hposition => ?_
  obtain ⟨p', found, hperform, hposition', hfound, hp'⟩ := exists_reserve hp hsrc hsize code.place
  exact ⟨p', _, hperform, hp', (hposition'.trans hposition) ▸ hrest found hfound⟩

end NativeCode
end Native
end Gobstones
