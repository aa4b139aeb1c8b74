import Gobstones.Check.Depth
import Gobstones.Proofs.Program.Labels
/-!
# Consistent stack depths

This module says what the walk through a routine establishes.  When the walk ends
without a problem, the depths that it recorded are closed under the steps of the
routine: no recorded instruction pops more than there is, and wherever its paths go
on, the depth that it leaves is recorded too.

Main definitions:

- {lit}`Program.DepthsFit`: depths that are closed under the steps of a routine.

Main results:

- Theorem {lit}`Program.depthsFit_of_depthProblems`: the walk of a routine without
  problems finds such depths.
-/

namespace Gobstones

/-! ## Recorded depths -/

namespace DepthWalk

/-- The depth that was recorded at a position. -/
def depthAt? (walk : DepthWalk) (position : Nat) : Option Nat :=
  walk.depths[position]?.join

theorem depthAt?_eq_some_iff {walk : DepthWalk} {position depth : Nat} :
    walk.depthAt? position = some depth ↔ walk.depths[position]? = some (some depth) := by
  rw [depthAt?, Option.join_eq_some_iff]

end DepthWalk

namespace Program

/-- The depth that an instruction leaves, given the depth at which it is reached. -/
def depthAfter (program : Program) (instruction : Instruction) (depth : Nat) : Nat :=
  depth - (program.effect instruction).1 + (program.effect instruction).2

/-- A recorded depth is right for an instruction: the instruction finds what it pops, a return
leaves what it should, and every place where paths go on is {lit}`reached` with the depth that
the instruction leaves. -/
structure DepthFits (program : Program) (routine : Routine) (reached : Nat → Nat → Prop)
    (position depth : Nat) (instruction : Instruction) : Prop where
  pops_le : (program.effect instruction).1 ≤ depth
  ret_ok : ∀ n, instruction = .ret n → routine.returnProblems position n depth = []
  next : ∀ q ∈ program.successors routine position instruction,
    reached q (program.depthAfter instruction depth)

theorem DepthFits.mono {program : Program} {routine : Routine} {reached reached' : Nat → Nat → Prop}
    {position depth : Nat} {instruction : Instruction}
    (h : program.DepthFits routine reached position depth instruction)
    (himp : ∀ q d, reached q d → reached' q d) :
    program.DepthFits routine reached' position depth instruction :=
  ⟨h.pops_le, h.ret_ok, fun q hq => himp q _ (h.next q hq)⟩

/-- Depths that are closed under the steps of a routine, which starts with an empty stack. -/
structure DepthsFit (program : Program) (routine : Routine) (depth? : Nat → Option Nat) :
    Prop where
  start : depth? 0 = some 0
  closed : ∀ position depth, depth? position = some depth →
    ∃ instruction, routine.code[position]? = some instruction ∧
      program.DepthFits routine (fun q d => depth? q = some d) position depth instruction

/-! ## The walk -/

/-- A first visit that finds no problem: the instruction fits the depth, and its paths are
listed with the depth that it leaves. -/
theorem visit_of_problems_eq_nil {program : Program} {routine : Routine} {walk : DepthWalk}
    {position depth : Nat} {instruction : Instruction}
    (h : (walk.visit program routine position depth instruction).1.problems = []) :
    walk.problems = [] ∧ (program.effect instruction).1 ≤ depth ∧
      (∀ n, instruction = .ret n → routine.returnProblems position n depth = []) ∧
      (walk.visit program routine position depth instruction).2 =
        (program.successors routine position instruction).map
          (·, program.depthAfter instruction depth) := by
  unfold DepthWalk.visit at h ⊢
  simp only at h ⊢
  split at h
  · simp [DepthWalk.note] at h
  · next hpops =>
    rw [if_neg hpops]
    refine ⟨?_, by omega, ?_, rfl⟩
    · split at h
      · exact (List.append_eq_nil_iff.1 h).2
      · exact h
    · rintro n rfl
      simpa using (List.append_eq_nil_iff.1 h).1

theorem fallsOff_visit (walk : DepthWalk) (program : Program) (routine : Routine)
    (position depth : Nat) (instruction : Instruction) :
    (walk.visit program routine position depth instruction).1.fallsOff = walk.fallsOff := by
  unfold DepthWalk.visit
  simp only
  split
  · rfl
  · split <;> rfl

theorem reported_visit (walk : DepthWalk) (program : Program) (routine : Routine)
    (position depth : Nat) (instruction : Instruction) :
    (walk.visit program routine position depth instruction).1.reported = walk.reported := by
  unfold DepthWalk.visit
  simp only
  split
  · rfl
  · split <;> rfl

theorem depthAt?_visit {walk : DepthWalk} {program : Program} {routine : Routine}
    {position depth : Nat} {instruction : Instruction} (h : position < walk.depths.size)
    (q : Nat) :
    (walk.visit program routine position depth instruction).1.depthAt? q =
      if q = position then some depth else walk.depthAt? q := by
  unfold DepthWalk.depthAt?
  rw [DepthWalk.depths_visit, Array.getElem?_setIfInBounds]
  by_cases hq : q = position
  · simp [hq, h]
  · simp [hq, Ne.symm hq]

/-- Reaching an instruction again without a problem means reaching it with the depth that is
recorded. -/
theorem revisit_of_problems_eq_nil {walk : DepthWalk} {routine : String}
    {position seen depth : Nat} (hreported : walk.reported = [])
    (h : (walk.revisit routine position seen depth).problems = []) :
    seen = depth ∧ walk.revisit routine position seen depth = walk := by
  unfold DepthWalk.revisit at h ⊢
  split at h
  · next hcase =>
    rw [if_pos hcase]
    exact ⟨by simpa [hreported] using hcase, rfl⟩
  · simp at h

/-- A walk keeps its problems. -/
theorem problems_of_followPaths {program : Program} {routine : Routine} {walk : DepthWalk}
    {paths : List (Nat × Nat)}
    (h : (program.followPaths routine walk paths).problems = []) : walk.problems = [] := by
  fun_induction Program.followPaths program routine walk paths with
  | case1 => exact h
  | case2 walk position depth paths seen _ _ _ ih =>
    have hwalk := ih h
    unfold DepthWalk.revisit at hwalk
    split at hwalk
    · exact hwalk
    · simp at hwalk
  | case3 walk position depth paths instruction _ _ _ ih =>
    exact (visit_of_problems_eq_nil (ih h)).1
  | case4 walk position depth paths _ _ ih => exact ih h

/-- A walk that has run past the last instruction has done so for good. -/
theorem fallsOff_of_followPaths {program : Program} {routine : Routine} {walk : DepthWalk}
    {paths : List (Nat × Nat)}
    (h : (program.followPaths routine walk paths).fallsOff = false) : walk.fallsOff = false := by
  fun_induction Program.followPaths program routine walk paths with
  | case1 => exact h
  | case2 walk position depth paths seen _ _ _ ih =>
    have hwalk := ih h
    unfold DepthWalk.revisit at hwalk
    split at hwalk <;> exact hwalk
  | case3 walk position depth paths instruction _ _ _ ih =>
    rw [← fallsOff_visit]
    exact ih h
  | case4 walk position depth paths _ _ ih => simpa using ih h

/-- What holds of a walk that finds no problems: everything that it recorded is right, where
the places of {lit}`paths` count as reached. -/
structure WalkFits (program : Program) (routine : Routine) (walk : DepthWalk)
    (paths : List (Nat × Nat)) : Prop where
  reported : walk.reported = []
  size : walk.depths.size = routine.code.size
  closed : ∀ position depth, walk.depthAt? position = some depth →
    ∃ instruction, routine.code[position]? = some instruction ∧
      program.DepthFits routine (fun q d => walk.depthAt? q = some d ∨ (q, d) ∈ paths)
        position depth instruction

/-- A place that is recorded needs not to count among the paths. -/
theorem reached_of_skip {walk : DepthWalk} {position depth : Nat} {paths : List (Nat × Nat)}
    (hseen : walk.depthAt? position = some depth) {q d : Nat}
    (h : walk.depthAt? q = some d ∨ (q, d) ∈ (position, depth) :: paths) :
    walk.depthAt? q = some d ∨ (q, d) ∈ paths := by
  rcases h with hq | hq
  · exact .inl hq
  · rcases List.mem_cons.1 hq with heq | hq
    · obtain ⟨rfl, rfl⟩ := Prod.mk.inj heq
      exact .inl hseen
    · exact .inr hq

/-- What was recorded or listed before a first visit is so after it. -/
theorem reached_of_visit {program : Program} {routine : Routine} {walk : DepthWalk}
    {position depth : Nat} {paths : List (Nat × Nat)} {instruction : Instruction}
    (hlt : position < walk.depths.size) (hunseen : walk.depthAt? position = none) {q d : Nat}
    (h : walk.depthAt? q = some d ∨ (q, d) ∈ (position, depth) :: paths) :
    (walk.visit program routine position depth instruction).1.depthAt? q = some d ∨
      (q, d) ∈ paths := by
  rw [depthAt?_visit hlt]
  rcases h with hq | hq
  · left
    rw [if_neg, hq]
    rintro rfl
    simp [hunseen] at hq
  · rcases List.mem_cons.1 hq with heq | hq
    · obtain ⟨rfl, rfl⟩ := Prod.mk.inj heq
      exact .inl (if_pos rfl)
    · exact .inr hq

/-- A place that is reached again needs not to be followed again. -/
theorem WalkFits.skip {program : Program} {routine : Routine} {walk : DepthWalk}
    {position depth : Nat} {paths : List (Nat × Nat)}
    (h : program.WalkFits routine walk ((position, depth) :: paths))
    (hseen : walk.depthAt? position = some depth) : program.WalkFits routine walk paths where
  reported := h.reported
  size := h.size
  closed := by
    intro p d hp
    obtain ⟨instruction, hinstruction, hfits⟩ := h.closed p d hp
    exact ⟨instruction, hinstruction, hfits.mono fun q e => reached_of_skip hseen⟩

/-- A place that is reached for the first time leads to where its paths go on. -/
theorem WalkFits.visit {program : Program} {routine : Routine} {walk : DepthWalk}
    {position depth : Nat} {paths : List (Nat × Nat)} {instruction : Instruction}
    (h : program.WalkFits routine walk ((position, depth) :: paths))
    (hcode : routine.code[position]? = some instruction)
    (hunseen : walk.depthAt? position = none)
    (hproblems : (walk.visit program routine position depth instruction).1.problems = []) :
    program.WalkFits routine (walk.visit program routine position depth instruction).1
      ((walk.visit program routine position depth instruction).2 ++ paths) := by
  obtain ⟨-, hpops, hret, hpaths⟩ := visit_of_problems_eq_nil hproblems
  have hlt : position < walk.depths.size := by
    rw [h.size]
    exact (Array.getElem?_eq_some_iff.1 hcode).1
  refine ⟨?_, ?_, fun p d hp => ?_⟩
  · rw [reported_visit, h.reported]
  · rw [DepthWalk.depths_visit, Array.size_setIfInBounds, h.size]
  · rw [depthAt?_visit hlt] at hp
    simp only [hpaths, List.mem_append, List.mem_map, Prod.mk.injEq]
    split at hp
    · next heq =>
      obtain rfl := Option.some.inj hp
      subst heq
      exact ⟨instruction, hcode, hpops, hret, fun q hq => .inr (.inl ⟨q, hq, rfl, rfl⟩)⟩
    · obtain ⟨other, hother, hfits⟩ := h.closed p d hp
      exact ⟨other, hother, hfits.mono fun q e hq =>
        (reached_of_visit hlt hunseen hq).imp_right .inr⟩

/-- A walk that ends without a problem keeps what it recorded, reaches every path that it was
to follow, and ends with depths that are closed under the steps of the routine. -/
theorem WalkFits.followPaths {program : Program} {routine : Routine} {walk : DepthWalk}
    {paths : List (Nat × Nat)} (h : program.WalkFits routine walk paths)
    (hproblems : (program.followPaths routine walk paths).problems = [])
    (hfalls : (program.followPaths routine walk paths).fallsOff = false) :
    program.WalkFits routine (program.followPaths routine walk paths) [] ∧
      (∀ q d, walk.depthAt? q = some d ∨ (q, d) ∈ paths →
        (program.followPaths routine walk paths).depthAt? q = some d) := by
  fun_induction Program.followPaths program routine walk paths with
  | case1 walk => exact ⟨h, fun q d hq => by simpa using hq⟩
  | case2 walk position depth paths seen hcode hseen _ ih =>
    obtain ⟨rfl, hwalk⟩ :=
      revisit_of_problems_eq_nil h.reported (problems_of_followPaths hproblems)
    rw [hwalk] at ih hproblems hfalls ⊢
    have hseen := DepthWalk.depthAt?_eq_some_iff.2 hseen
    obtain ⟨hfinal, hreached⟩ := ih (h.skip hseen) hproblems hfalls
    exact ⟨hfinal, fun q d hq => hreached q d (reached_of_skip hseen hq)⟩
  | case3 walk position depth paths instruction hunseen hcode next ih =>
    have hunseen : walk.depthAt? position = none := by simp [DepthWalk.depthAt?, hunseen]
    have hlt : position < walk.depths.size := by
      rw [h.size]
      exact (Array.getElem?_eq_some_iff.1 hcode).1
    have hvisit := h.visit hcode hunseen (problems_of_followPaths hproblems)
    obtain ⟨hfinal, hreached⟩ := ih hvisit hproblems hfalls
    exact ⟨hfinal, fun q d hq => hreached q d
      ((reached_of_visit hlt hunseen hq).imp_right (List.mem_append_right _))⟩
  | case4 walk position depth paths _ _ ih =>
    simpa using fallsOff_of_followPaths hfalls

/-! ## Routines without problems -/

/-- The depth at which the walk reached a position of a routine. -/
def depthAt? (program : Program) (routine : Routine) (position : Nat) : Option Nat :=
  (program.walkDepths routine).depthAt? position

/-- The walk of a routine without problems finds depths that are closed under its steps. -/
theorem depthsFit_of_depthProblems {program : Program} {routine : Routine}
    (h : program.depthProblemsOf routine = []) :
    program.DepthsFit routine (program.depthAt? routine) := by
  unfold depthProblemsOf at h
  obtain ⟨hproblems, hfalls⟩ := List.append_eq_nil_iff.1 h
  have hproblems := List.reverse_eq_nil_iff.1 hproblems
  have hfalls : (program.walkDepths routine).fallsOff = false := by simpa using hfalls
  have hstart : program.WalkFits routine (DepthWalk.start routine.code.size) [(0, 0)] := by
    refine ⟨rfl, by simp [DepthWalk.start], fun p d hp => ?_⟩
    simp only [DepthWalk.depthAt?, DepthWalk.start, Array.getElem?_replicate] at hp
    split at hp <;> simp at hp
  obtain ⟨hfinal, hreached⟩ := hstart.followPaths hproblems hfalls
  refine ⟨hreached 0 0 (.inr List.mem_cons_self), fun p d hp => ?_⟩
  obtain ⟨instruction, hcode, hfits⟩ := hfinal.closed p d hp
  exact ⟨instruction, hcode, hfits.mono fun q e hq => hq.resolve_right (by simp)⟩

theorem DepthsFit.of_mem {program : Program} (h : program.depthProblems = []) {routine : Routine}
    (hroutine : routine ∈ program.routines) :
    program.DepthsFit routine (program.depthAt? routine) :=
  depthsFit_of_depthProblems (List.flatMap_eq_nil_iff.1 h routine hroutine)

end Program
end Gobstones
