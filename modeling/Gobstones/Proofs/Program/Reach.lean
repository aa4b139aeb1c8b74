import Gobstones.Program.Basic
import Gobstones.Proofs.Builtin
/-!
# Modules behind a program

This module says which modules a program can call into, and which routine a call
enters.

Main definitions:

- {lit}`Program.Reaches`: a program and the modules behind its links.
- {lit}`Program.NamesModules`: modules behind a program that share a name are the same.
- {lit}`Program.callee?`: the routine that a called name enters, with its module.
- {lit}`Program.Owns`: the routines of a program and of the modules behind it.

Main results:

- Theorem {lit}`Program.Owns.callee`: calls stay among the modules behind a program.
-/

namespace Gobstones
namespace Program

/-- A program reaches itself and what the modules that it links to reach. -/
inductive Reaches : Program → Program → Prop where
  | refl {program : Program} : Reaches program program
  | link {program other : Program} {link : Link Program} (hlink : link ∈ program.links)
    (h : Reaches link.target other) : Reaches program other

theorem Reaches.trans {first second third : Program} (h : first.Reaches second)
    (hthird : second.Reaches third) : first.Reaches third := by
  induction h with
  | refl => exact hthird
  | link hlink _ ih => exact .link hlink (ih hthird)

/-- A program without links reaches only itself. -/
theorem Reaches.eq_of_links {program other : Program} (h : program.Reaches other)
    (hlinks : program.links = []) : other = program := by
  cases h with
  | refl => rfl
  | link hlink _ => simp [hlinks] at hlink

/-- Modules behind a program that share a name are the same. -/
def NamesModules (program : Program) : Prop :=
  ∀ first second, program.Reaches first → program.Reaches second →
    first.moduleName = second.moduleName → first = second

/-- A program without links is the only module behind it. -/
theorem NamesModules.of_links {program : Program} (hlinks : program.links = []) :
    program.NamesModules := by
  intro first second hfirst hsecond _
  rw [hfirst.eq_of_links hlinks, hsecond.eq_of_links hlinks]

/-- The routine that a called name enters, with the module in which it resolves its own
calls. -/
def callee? (program : Program) (name : String) : Option (Program × Routine) :=
  match program.resolve? name with
  | some (.own routine) => some (program, routine)
  | some (.external other routine) => some (other, routine)
  | _ => none

theorem mem_of_routine? {program : Program} {name : String} {routine : Routine}
    (h : program.routine? name = some routine) :
    routine ∈ program.routines ∧ routine.name = name := by
  unfold routine? at h
  exact ⟨List.mem_of_find?_eq_some h, by simpa using List.find?_some h⟩

/-- The routines of a module have distinct names, so a routine is found under its name. -/
theorem routine?_of_mem {program : Program} {routine : Routine}
    (h : routine ∈ program.routines) : program.routine? routine.name = some routine := by
  have hsome : (program.routine? routine.name).isSome := by
    rw [routine?, List.find?_isSome]
    exact ⟨routine, h, by simp⟩
  obtain ⟨other, hother⟩ := Option.isSome_iff_exists.1 hsome
  obtain ⟨hmem, hname⟩ := mem_of_routine? hother
  rw [hother, List.inj_on_of_nodup_map program.distinct hmem h hname]

theorem mem_of_link? {program : Program} {name : String} {link : Link Program}
    (h : program.link? name = some link) : link ∈ program.links :=
  List.mem_of_find?_eq_some h

/-- What a name stands for when it stands for a routine of the module. -/
theorem resolve?_own {program : Program} {name : String} {routine : Routine}
    (h : program.resolve? name = some (.own routine)) : program.routine? name = some routine := by
  unfold resolve? at h
  split at h
  · simp at h
  · split at h
    · next hroutine =>
      obtain rfl : _ = routine := by simpa using h
      exact hroutine
    · simp only [bind, Option.bind_eq_some_iff] at h
      obtain ⟨_, _, _, _, h⟩ := h
      simp [pure] at h

/-- What a name stands for when it stands for a linked routine. -/
theorem resolve?_external {program other : Program} {name : String} {routine : Routine}
    (h : program.resolve? name = some (.external other routine)) :
    ∃ link, program.link? name = some link ∧ link.target = other ∧
      other.routine? link.routine = some routine := by
  unfold resolve? at h
  split at h
  · simp at h
  · split at h
    · simp at h
    · simp only [bind, Option.bind_eq_some_iff] at h
      obtain ⟨link, hlink, found, hfound, h⟩ := h
      obtain ⟨rfl, rfl⟩ : link.target = other ∧ found = routine := by simpa [pure] using h
      exact ⟨link, hlink, rfl, hfound⟩

/-- A linked routine is called only under a name that no routine of the module has. -/
theorem routine?_eq_none_of_external {program other : Program} {name : String} {routine : Routine}
    (h : program.resolve? name = some (.external other routine)) :
    program.routine? name = none := by
  unfold resolve? at h
  split at h
  · simp at h
  · split at h
    · simp at h
    · assumption

theorem resolve?_builtin {program : Program} {name : String} {builtin : Builtin} :
    program.resolve? name = some (.builtin builtin) ↔
      program.builtins.get? name = some builtin := by
  unfold resolve?
  cases hbuiltin : program.builtins.get? name with
  | some other => simp
  | none =>
    cases hroutine : program.routine? name with
    | some routine => simp
    | none =>
      cases hlink : program.link? name with
      | none => simp
      | some link => cases hcallee : link.target.routine? link.routine <;> simp [hcallee]

/-- What enters a routine is not the name of a builtin. -/
theorem not_contains_of_callee? {program : Program} {name : String} {target : Program × Routine}
    (h : program.callee? name = some target) : ¬program.builtins.contains name := by
  intro hcontains
  obtain ⟨builtin, hbuiltin⟩ := Option.isSome_iff_exists.1 hcontains
  simp [callee?, resolve?_builtin.2 hbuiltin] at h

theorem mem_of_resolve?_builtin {program : Program} {name : String} {builtin : Builtin}
    (h : program.resolve? name = some (.builtin builtin)) : builtin ∈ program.builtins.entries :=
  (BuiltinTable.get?_eq_some_iff.1 (resolve?_builtin.1 h)).1

/-- A routine of the module is called by its name unless that is the name of a builtin. -/
theorem resolve?_of_mem {program : Program} {routine : Routine} (h : routine ∈ program.routines)
    (hbuiltin : ¬program.builtins.contains routine.name) :
    program.resolve? routine.name = some (.own routine) := by
  have hnone : program.builtins.get? routine.name = none := by
    simpa [BuiltinTable.contains] using hbuiltin
  rw [resolve?, hnone, routine?_of_mem h]

/-- A routine lies in a module that a program reaches. -/
structure Owns (program home : Program) (routine : Routine) : Prop where
  reaches : program.Reaches home
  mem : routine ∈ home.routines

theorem mem_of_entrypoint? {program : Program} {routine : Routine}
    (h : program.entrypoint? = some routine) : routine ∈ program.routines := by
  unfold entrypoint? at h
  split at h
  · next found hfound =>
    obtain rfl := Option.some.inj h
    exact List.mem_of_find?_eq_some hfound
  · obtain ⟨name, -, hname⟩ := List.exists_of_findSome?_eq_some h
    exact (mem_of_routine? hname).1

/-- A program with a marked routine starts at a marked one. -/
theorem exists_entrypoint?_of_kind {program : Program} {routine : Routine}
    (hmem : routine ∈ program.routines) (hkind : routine.kind = .entrypoint) :
    ∃ entry, program.entrypoint? = some entry ∧ entry.kind = .entrypoint := by
  have hsome : (program.routines.find? (·.kind = .entrypoint)).isSome := by
    rw [List.find?_isSome]
    exact ⟨routine, hmem, by simpa using hkind⟩
  obtain ⟨entry, hentry⟩ := Option.isSome_iff_exists.1 hsome
  exact ⟨entry, by rw [entrypoint?, hentry], by simpa using List.find?_some hentry⟩

/-- The module and the routine that a call enters lie behind the calling module. -/
theorem owns_of_callee? {program home : Program} {name : String} {routine : Routine}
    (h : program.callee? name = some (home, routine)) : program.Owns home routine := by
  unfold callee? at h
  split at h
  · next found hresolve =>
    obtain ⟨rfl, rfl⟩ := Prod.mk.inj (Option.some.inj h)
    exact ⟨.refl, (mem_of_routine? (resolve?_own hresolve)).1⟩
  · next other found hresolve =>
    obtain ⟨rfl, rfl⟩ := Prod.mk.inj (Option.some.inj h)
    obtain ⟨link, hlink, rfl, hroutine⟩ := resolve?_external hresolve
    exact ⟨.link (mem_of_link? hlink) .refl, (mem_of_routine? hroutine).1⟩
  · simp at h

/-- Calls stay among the modules behind a program. -/
theorem Owns.callee {program home other : Program} {routine callee : Routine} {name : String}
    (h : program.Owns home routine) (hcallee : home.callee? name = some (other, callee)) :
    program.Owns other callee :=
  ⟨h.reaches.trans (owns_of_callee? hcallee).reaches, (owns_of_callee? hcallee).mem⟩

theorem owns_entrypoint {program : Program} {routine : Routine}
    (h : program.entrypoint? = some routine) : program.Owns program routine :=
  ⟨.refl, mem_of_entrypoint? h⟩

end Program
end Gobstones
