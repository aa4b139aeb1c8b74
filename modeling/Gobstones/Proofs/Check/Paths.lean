import Gobstones.Proofs.Machine.Safety
import Mathlib.Logic.Relation
/-!
# Paths and balanced routines

This module says which routines the walk of the stack depths accepts, without mentioning
the walk.  The paths of a routine start at its first instruction with an empty stack and
follow the instructions one by one.  They may go round in loops for ever, whereas the walk
reaches each instruction once.

Main definitions:

- {lit}`Program.PathStep`: one step of a path, with the depths before and after it.
- {lit}`Program.PathTo`: some path leads to a position with a depth.
- {lit}`Program.PathsBalanced`: what should hold of all paths of a routine.

Main results:

- Theorem {lit}`Program.pathStep_iff`: the walk goes on where paths do.
- Theorem {lit}`Program.depthProblemsOf_eq_nil_iff`: the walk finds no problem in exactly
  the balanced routines.
-/

namespace Gobstones

/-! ## Paths -/

/-- How many values an instruction takes from the stack. -/
def Instruction.operandCount : Instruction → Nat
  | .popTo _ | .jumpIfFalse _ | .jumpIfNotIn .. => 1
  | .call _ argc => argc
  | .ret n => n
  | _ => 0

namespace Program

/-- One step of a path through a routine, from a position and the depth there to the next
position and its depth.  A conditional jump goes both ways.  There is no step from a return,
from an error, and from a call of an unknown name or with the wrong number of arguments. -/
inductive PathStep (program : Program) (routine : Routine) : Nat × Nat → Nat × Nat → Prop where
  | pushConst {p d : Nat} {value : Value} (h : routine.code[p]? = some (.pushConst value)) :
    PathStep program routine (p, d) (p + 1, d + 1)
  | pushFrom {p d : Nat} {name : String} (h : routine.code[p]? = some (.pushFrom name)) :
    PathStep program routine (p, d) (p + 1, d + 1)
  | popTo {p d : Nat} {name : String} (h : routine.code[p]? = some (.popTo name)) :
    PathStep program routine (p, d + 1) (p + 1, d)
  | jump {p q d : Nat} {label : String} (h : routine.code[p]? = some (.jump label))
    (htarget : routine.target? p = some q) : PathStep program routine (p, d) (q, d)
  | jumpIfFalse {p q d : Nat} {label : String}
    (h : routine.code[p]? = some (.jumpIfFalse label))
    (hnext : routine.target? p = some q ∨ q = p + 1) :
    PathStep program routine (p, d + 1) (q, d)
  | jumpIfNotIn {p q d : Nat} {values : List Value} {label : String}
    (h : routine.code[p]? = some (.jumpIfNotIn values label))
    (hnext : routine.target? p = some q ∨ q = p + 1) :
    PathStep program routine (p, d + 1) (q, d)
  | call {p d argc : Nat} {name : String} {target : CallTarget}
    (h : routine.code[p]? = some (.call name argc))
    (hresolve : program.resolve? name = some target) (harity : target.arity = argc) :
    PathStep program routine (p, d + argc) (p + 1, d + target.resultCount)
  | label {p d : Nat} {name : String} (h : routine.code[p]? = some (.label name)) :
    PathStep program routine (p, d) (p + 1, d)
  | enter {p d : Nat} (h : routine.code[p]? = some .enter) :
    PathStep program routine (p, d) (p + 1, d)
  | leave {p d : Nat} (h : routine.code[p]? = some .leave) :
    PathStep program routine (p, d) (p + 1, d)
  | delVar {p d : Nat} {name : String} (h : routine.code[p]? = some (.delVar name)) :
    PathStep program routine (p, d) (p + 1, d)
  | setImmutable {p d : Nat} {name : String}
    (h : routine.code[p]? = some (.setImmutable name)) :
    PathStep program routine (p, d) (p + 1, d)
  | unsetImmutable {p d : Nat} {name : String}
    (h : routine.code[p]? = some (.unsetImmutable name)) :
    PathStep program routine (p, d) (p + 1, d)

/-- Some path, of any length, leads to a position with a depth. -/
def PathTo (program : Program) (routine : Routine) (p d : Nat) : Prop :=
  Relation.ReflTransGen (program.PathStep routine) (0, 0) (p, d)

/-- What should hold of the paths of a routine: they find the values that they pop, they meet
with the same depth, they return all values that they have left, as many as the first return
of a function, and none runs past the last instruction. -/
structure PathsBalanced (program : Program) (routine : Routine) : Prop where
  operands : ∀ p d instruction, program.PathTo routine p d →
    routine.code[p]? = some instruction → instruction.operandCount ≤ d
  meet : ∀ p d e, program.PathTo routine p d → program.PathTo routine p e → d = e
  ret : ∀ p d n, program.PathTo routine p d → routine.code[p]? = some (.ret n) → d = n
  count : ∀ p d n, program.PathTo routine p d → routine.code[p]? = some (.ret n) →
    routine.kind = .function → routine.firstReturn? = some n
  inside : ∀ p d, program.PathTo routine p d → p < routine.code.size

variable {program : Program} {routine : Routine}

theorem PathTo.start : program.PathTo routine 0 0 := .refl

theorem PathTo.step {p q d e : Nat} (h : program.PathTo routine p d)
    (hstep : program.PathStep routine (p, d) (q, e)) : program.PathTo routine q e :=
  h.tail hstep

/-- Steps lead on from instructions. -/
theorem PathStep.exists_getElem? {p d : Nat} {after : Nat × Nat}
    (h : program.PathStep routine (p, d) after) :
    ∃ instruction, routine.code[p]? = some instruction := by
  cases h <;> exact ⟨_, by assumption⟩

/-! ## Steps of paths and of the walk -/

@[simp] theorem effect_fst (program : Program) (instruction : Instruction) :
    (program.effect instruction).1 = instruction.operandCount := by
  cases instruction <;> rfl

/-- The walk goes on from an instruction where paths do, with the same depths. -/
theorem pathStep_iff {p q d e : Nat} {instruction : Instruction}
    (h : routine.code[p]? = some instruction) :
    program.PathStep routine (p, d) (q, e) ↔ instruction.operandCount ≤ d ∧
      q ∈ program.successors routine p instruction ∧ e = program.depthAfter instruction d := by
  constructor
  · intro hstep
    cases hstep with
    | call hcode hresolve harity =>
      obtain rfl := Option.some.inj (h.symm.trans hcode)
      refine ⟨by simp [Instruction.operandCount], ?_, ?_⟩
      · simp [successors, alwaysFails, hresolve, harity]
      · simp [depthAfter, effect, hresolve]
    | jump hcode htarget =>
      obtain rfl := Option.some.inj (h.symm.trans hcode)
      simp [Instruction.operandCount, successors, alwaysFails, depthAfter, effect, htarget]
    | jumpIfFalse hcode hnext | jumpIfNotIn hcode hnext =>
      obtain rfl := Option.some.inj (h.symm.trans hcode)
      simp [Instruction.operandCount, successors, alwaysFails, depthAfter, effect, hnext]
    | _ hcode =>
      obtain rfl := Option.some.inj (h.symm.trans hcode)
      simp [Instruction.operandCount, successors, alwaysFails, depthAfter, effect]
  · rintro ⟨hle, hq, rfl⟩
    cases instruction with
    | call name argc =>
      obtain ⟨target, hresolve, harity⟩ : ∃ target, program.resolve? name = some target ∧
          target.arity = argc := by
        cases hresolve : program.resolve? name with
        | none => simp [successors, alwaysFails, hresolve] at hq
        | some target =>
          refine ⟨target, rfl, by_contra fun hne => ?_⟩
          simp [successors, alwaysFails, hresolve, hne] at hq
      obtain rfl : q = p + 1 := by
        simpa [successors, alwaysFails, hresolve, harity] using hq
      obtain ⟨k, rfl⟩ := Nat.exists_eq_add_of_le' hle
      simpa [depthAfter, effect, hresolve, Instruction.operandCount] using
        PathStep.call h hresolve harity
    | jump label =>
      exact .jump h (by simpa [successors, alwaysFails] using hq)
    | jumpIfFalse label =>
      obtain ⟨k, rfl⟩ := Nat.exists_eq_add_of_le' hle
      exact .jumpIfFalse h (by simpa [successors, alwaysFails] using hq)
    | jumpIfNotIn values label =>
      obtain ⟨k, rfl⟩ := Nat.exists_eq_add_of_le' hle
      exact .jumpIfNotIn h (by simpa [successors, alwaysFails] using hq)
    | ret | returnVars | raise => simp [successors, alwaysFails] at hq
    | popTo name =>
      obtain rfl : q = p + 1 := by simpa [successors, alwaysFails] using hq
      obtain ⟨k, rfl⟩ := Nat.exists_eq_add_of_le' hle
      exact .popTo h
    | pushConst value =>
      obtain rfl : q = p + 1 := by simpa [successors, alwaysFails] using hq
      exact .pushConst h
    | pushFrom name =>
      obtain rfl : q = p + 1 := by simpa [successors, alwaysFails] using hq
      exact .pushFrom h
    | label name =>
      obtain rfl : q = p + 1 := by simpa [successors, alwaysFails] using hq
      exact .label h
    | enter =>
      obtain rfl : q = p + 1 := by simpa [successors, alwaysFails] using hq
      exact .enter h
    | leave =>
      obtain rfl : q = p + 1 := by simpa [successors, alwaysFails] using hq
      exact .leave h
    | delVar name =>
      obtain rfl : q = p + 1 := by simpa [successors, alwaysFails] using hq
      exact .delVar h
    | setImmutable name =>
      obtain rfl : q = p + 1 := by simpa [successors, alwaysFails] using hq
      exact .setImmutable h
    | unsetImmutable name =>
      obtain rfl : q = p + 1 := by simpa [successors, alwaysFails] using hq
      exact .unsetImmutable h

/-! ## Returns -/

theorem Routine.exists_firstReturn? {p n : Nat} (h : routine.code[p]? = some (.ret n)) :
    ∃ first, routine.firstReturn? = some first := by
  rw [← Option.isSome_iff_exists, Routine.firstReturn?, List.findSome?_isSome_iff]
  exact ⟨.ret n, by simpa using Array.mem_of_getElem? h, rfl⟩

/-- A return has no problem when it leaves nothing behind and, in a function, returns as many
values as the first return. -/
theorem Routine.returnProblems_eq_nil_iff {p n d : Nat} (h : routine.code[p]? = some (.ret n)) :
    routine.returnProblems p n d = [] ↔
      d = n ∧ (routine.kind = .function → routine.firstReturn? = some n) := by
  obtain ⟨first, hfirst⟩ := Routine.exists_firstReturn? h
  unfold Routine.returnProblems
  rw [List.append_eq_nil_iff, and_comm, hfirst]
  refine and_congr (by simp) ?_
  cases routine.kind <;> simp

/-! ## From the walk to the paths -/

/-- Every path leads to a recorded depth. -/
theorem PathTo.depthAt? {p d : Nat} {depth? : Nat → Option Nat}
    (hfit : program.DepthsFit routine depth?) (h : program.PathTo routine p d) :
    depth? p = some d := by
  suffices ∀ place, Relation.ReflTransGen (program.PathStep routine) (0, 0) place →
      depth? place.1 = some place.2 from this _ h
  intro place hpath
  induction hpath with
  | refl => exact hfit.start
  | @tail before after _ hstep ih =>
    obtain ⟨instruction, hinstruction, hfits⟩ := hfit.closed _ _ ih
    obtain ⟨-, hq, he⟩ := (pathStep_iff hinstruction).1 hstep
    rw [he]
    exact hfits.next _ hq

/-- A routine in which the walk finds no problem is balanced. -/
theorem pathsBalanced_of_depthProblems (h : program.depthProblemsOf routine = []) :
    program.PathsBalanced routine := by
  have hfit := depthsFit_of_depthProblems h
  -- What the walk has found at an instruction that a path leads to.
  have hfits : ∀ {p d : Nat} {instruction : Instruction}, program.PathTo routine p d →
      routine.code[p]? = some instruction →
      program.DepthFits routine (fun q e => program.depthAt? routine q = some e) p d
        instruction := by
    intro p d instruction hpath hinstruction
    obtain ⟨other, hother, hfits⟩ := hfit.closed p d (hpath.depthAt? hfit)
    obtain rfl := Option.some.inj (hinstruction.symm.trans hother)
    exact hfits
  have hret : ∀ {p d n : Nat}, program.PathTo routine p d →
      routine.code[p]? = some (.ret n) →
      d = n ∧ (routine.kind = .function → routine.firstReturn? = some n) :=
    fun hpath hcode =>
      (Routine.returnProblems_eq_nil_iff hcode).1 ((hfits hpath hcode).ret_ok _ rfl)
  refine ⟨fun p d instruction hpath hcode => ?_, fun p d e hd he => ?_,
    fun p d n hpath hcode => (hret hpath hcode).1,
    fun p d n hpath hcode => (hret hpath hcode).2, fun p d hpath => ?_⟩
  · simpa using (hfits hpath hcode).pops_le
  · exact Option.some.inj ((hd.depthAt? hfit).symm.trans (he.depthAt? hfit))
  · obtain ⟨instruction, hcode, -⟩ := hfit.closed p d (hpath.depthAt? hfit)
    exact (Array.getElem?_eq_some_iff.1 hcode).1

/-! ## From the paths to the walk -/

/-- What a walk through a balanced routine has found: no problem, and only depths with which
paths arrive, as they do at the places of {lit}`places`. -/
structure WalkOnPaths (program : Program) (routine : Routine) (walk : DepthWalk)
    (places : List (Nat × Nat)) : Prop where
  problems : walk.problems = []
  fallsOff : walk.fallsOff = false
  size : walk.depths.size = routine.code.size
  recorded : ∀ p d, walk.depthAt? p = some d → program.PathTo routine p d
  ahead : ∀ p d, (p, d) ∈ places → program.PathTo routine p d

namespace PathsBalanced

variable {walk : DepthWalk} {p d : Nat} {places : List (Nat × Nat)}

/-- A visit records the depth of a path and finds nothing else. -/
theorem visit_eq (hbalanced : program.PathsBalanced routine) {instruction : Instruction}
    (hpath : program.PathTo routine p d) (hcode : routine.code[p]? = some instruction) :
    walk.visit program routine p d instruction =
      ({ walk with depths := walk.depths.setIfInBounds p (some d) },
        (program.successors routine p instruction).map
          (·, program.depthAfter instruction d)) := by
  have hle : ¬ d < (program.effect instruction).1 := by
    simpa using hbalanced.operands p d instruction hpath hcode
  unfold DepthWalk.visit
  simp only [hle, if_false]
  cases instruction with
  | ret n =>
    have hnone : routine.returnProblems p n d = [] :=
      (Routine.returnProblems_eq_nil_iff hcode).2
        ⟨hbalanced.ret p d n hpath hcode, hbalanced.count p d n hpath hcode⟩
    simp only [hnone, List.reverse_nil, List.nil_append]
    rfl
  | _ => rfl

/-- A walk on paths stays on paths when it visits an instruction. -/
theorem walkOnPaths_visit (hbalanced : program.PathsBalanced routine) {instruction : Instruction}
    (h : program.WalkOnPaths routine walk ((p, d) :: places))
    (hcode : routine.code[p]? = some instruction) :
    program.WalkOnPaths routine (walk.visit program routine p d instruction).1
      ((walk.visit program routine p d instruction).2 ++ places) := by
  have hpath := h.ahead p d List.mem_cons_self
  have hlt : p < walk.depths.size := h.size ▸ hbalanced.inside p d hpath
  refine ⟨?_, ?_, ?_, fun q e hq => ?_, fun q e hq => ?_⟩
  · rw [hbalanced.visit_eq hpath hcode, h.problems]
  · rw [fallsOff_visit, h.fallsOff]
  · rw [DepthWalk.depths_visit, Array.size_setIfInBounds, h.size]
  · rw [depthAt?_visit hlt] at hq
    split at hq
    · next heq =>
      obtain rfl := Option.some.inj hq
      exact heq ▸ hpath
    · exact h.recorded q e hq
  · rw [hbalanced.visit_eq hpath hcode] at hq
    rcases List.mem_append.1 hq with hq | hq
    · obtain ⟨next, hnext, heq⟩ := List.mem_map.1 hq
      obtain ⟨rfl, rfl⟩ := Prod.mk.inj heq
      have hle := hbalanced.operands p d instruction hpath hcode
      exact hpath.step ((pathStep_iff hcode).2 ⟨hle, hnext, rfl⟩)
    · exact h.ahead q e (List.mem_cons_of_mem _ hq)

/-- A walk on the paths of a balanced routine stays on them to its end.  Only places that are
reached again are left out, and paths meet there with the same depth. -/
theorem walkOnPaths_followPaths (hbalanced : program.PathsBalanced routine)
    (h : program.WalkOnPaths routine walk places) :
    program.WalkOnPaths routine (program.followPaths routine walk places) [] := by
  fun_induction Program.followPaths program routine walk places with
  | case1 walk => exact h
  | case2 walk p d places _ seen hseen _ ih =>
    have hmeet : seen = d :=
      hbalanced.meet p seen d (h.recorded p seen (DepthWalk.depthAt?_eq_some_iff.2 hseen))
        (h.ahead p d List.mem_cons_self)
    have hwalk : walk.revisit routine.name p seen d = walk := if_pos (.inl hmeet)
    rw [hwalk] at ih ⊢
    exact ih { h with ahead := fun q e hq => h.ahead q e (List.mem_cons_of_mem _ hq) }
  | case3 walk p d places instruction _ hcode next ih =>
    exact ih (hbalanced.walkOnPaths_visit h hcode)
  | case4 walk p d places hseen hunseen ih =>
    -- Paths lead to instructions only, so this place is not past the last one.
    have hlt := hbalanced.inside p d (h.ahead p d List.mem_cons_self)
    obtain ⟨instruction, hcode⟩ : ∃ instruction, routine.code[p]? = some instruction :=
      ⟨_, Array.getElem?_eq_getElem hlt⟩
    obtain ⟨depth?, hdepth⟩ : ∃ depth?, walk.depths[p]? = some depth? := by
      rw [← h.size] at hlt
      exact ⟨_, Array.getElem?_eq_getElem hlt⟩
    cases depth? with
    | none => exact (hunseen instruction hcode hdepth).elim
    | some seen => exact (hseen instruction seen hcode hdepth).elim

/-- The walk finds no problem in a balanced routine. -/
theorem depthProblemsOf_eq_nil (h : program.PathsBalanced routine) :
    program.depthProblemsOf routine = [] := by
  have hstart : program.WalkOnPaths routine (DepthWalk.start routine.code.size) [(0, 0)] := by
    refine ⟨rfl, rfl, by simp [DepthWalk.start], fun p d hp => ?_, fun p d hp => ?_⟩
    · simp only [DepthWalk.depthAt?, DepthWalk.start, Array.getElem?_replicate] at hp
      split at hp <;> simp at hp
    · obtain ⟨rfl, rfl⟩ := Prod.mk.inj (List.mem_singleton.1 hp)
      exact .start
  have hfinal : program.WalkOnPaths routine (program.walkDepths routine) [] :=
    h.walkOnPaths_followPaths hstart
  simp [depthProblemsOf, hfinal.problems, hfinal.fallsOff]

end PathsBalanced

/-! ## Balanced routines -/

/-- The walk ends, and it finds no problem in exactly the routines whose paths are all
balanced. -/
theorem depthProblemsOf_eq_nil_iff (program : Program) (routine : Routine) :
    program.depthProblemsOf routine = [] ↔ program.PathsBalanced routine :=
  ⟨pathsBalanced_of_depthProblems, PathsBalanced.depthProblemsOf_eq_nil⟩

end Program
end Gobstones
