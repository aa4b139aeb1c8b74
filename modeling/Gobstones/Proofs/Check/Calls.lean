import Gobstones.Check.Calls
import Gobstones.Proofs.Program.Reach
/-!
# Sound calls

This module says what the check of calls means: every call names something that takes
as many arguments as it passes, and variables are returned only by the entrypoint, as
many as it says.

Main definitions:

- {lit}`Program.CallSound`: an instruction passes the check of calls.

Main results:

- Theorem {lit}`Program.callProblems_eq_nil_iff`: the check accepts exactly the programs
  all of whose instructions are sound in this sense.
-/

namespace Gobstones
namespace Program

/-- A call names something that takes its arguments, and a return of variables lies in the
entrypoint and names as many variables as it says. -/
def CallSound (program : Program) (routine : String) : Instruction → Prop
  | .call name argc => ∃ target, program.resolve? name = some target ∧ target.arity = argc
  | .returnVars n names =>
    (∃ entry, program.entrypoint? = some entry ∧ entry.name = routine) ∧ names.length = n
  | _ => True

theorem callProblemsAt_eq_nil_iff {program : Program} {routine name : String}
    {position argc : Nat} :
    program.callProblemsAt routine position name argc = [] ↔
      program.CallSound routine (.call name argc) := by
  unfold callProblemsAt CallSound
  cases hresolve : program.resolve? name with
  | none => simp [hresolve]
  | some target => by_cases h : target.arity = argc <;> simp [hresolve, h]

theorem returnVarsProblemsAt_eq_nil_iff {program : Program} {routine : String}
    {position n : Nat} {names : List String} :
    program.returnVarsProblemsAt routine position n names = [] ↔
      program.CallSound routine (.returnVars n names) := by
  unfold returnVarsProblemsAt CallSound
  rw [List.append_eq_nil_iff]
  refine and_congr ?_ ?_
  · cases program.entrypoint? with
    | none => simp
    | some entry => by_cases h : entry.name = routine <;> simp [h]
  · by_cases h : names.length = n <;> simp [h]

theorem callProblemsFrom_eq_nil_iff {program : Program} {routine : String} {position : Nat}
    {code : List Instruction} :
    program.callProblemsFrom routine position code = [] ↔
      ∀ instruction ∈ code, program.CallSound routine instruction := by
  induction code generalizing position with
  | nil => simp [callProblemsFrom]
  | cons first rest ih =>
    rw [List.forall_mem_cons, ← @ih (position + 1)]
    cases first with
    | call name argc =>
      rw [callProblemsFrom, List.append_eq_nil_iff, callProblemsAt_eq_nil_iff]
    | returnVars n names =>
      rw [callProblemsFrom, List.append_eq_nil_iff, returnVarsProblemsAt_eq_nil_iff]
    | _ => exact (and_iff_right trivial).symm

/-- The check accepts exactly the programs all of whose calls and returns of variables are
sound. -/
theorem callProblems_eq_nil_iff {program : Program} :
    program.callProblems = [] ↔ ∀ routine ∈ program.routines,
      ∀ instruction ∈ routine.code, program.CallSound routine.name instruction := by
  unfold callProblems
  simp only [List.flatMap_eq_nil_iff, callProblemsFrom_eq_nil_iff, Array.mem_toList_iff]

/-- An accepted program has an entrypoint. -/
theorem isSome_entrypoint? {program : Program} (h : program.entryProblems = []) :
    ∃ entry, program.entrypoint? = some entry := by
  unfold entryProblems at h
  split at h
  · split at h
    · simp at h
    · next hsome => exact Option.ne_none_iff_exists'.1 (by simpa using hsome)
  · next name hname =>
    obtain ⟨routine, hfilter, -⟩ := List.map_eq_singleton_iff.1 hname
    have hmem : routine ∈ program.routines.filter (·.kind = .entrypoint) := by simp [hfilter]
    obtain ⟨hmem, hkind⟩ := List.mem_filter.1 hmem
    obtain ⟨entry, hentry, -⟩ := exists_entrypoint?_of_kind hmem (by simpa using hkind)
    exact ⟨entry, hentry⟩
  · simp at h

end Program
end Gobstones
