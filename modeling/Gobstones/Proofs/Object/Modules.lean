import Gobstones.Object.Writer
import Gobstones.Proofs.Program.Reach
/-!
# Collected modules

This module shows which modules an object holds: those that the written program reaches,
each once.  A module is known by its name, so different modules must have different
names.

Main definitions:

- {lit}`Program.Collected`: modules behind a program, each once, with all that they link to.

Main results:

- Theorem {lit}`Program.mem_collect_iff`: the collected modules are the reached ones.
- Theorem {lit}`Program.nodup_collect`: every module is collected once.
-/

namespace Gobstones
namespace Program

/-- What is reached is a part of the program that reaches it. -/
theorem Reaches.sizeOf_le {program other : Program} (h : program.Reaches other) :
    sizeOf other ≤ sizeOf program := by
  induction h with
  | refl => exact Nat.le_refl _
  | link hlink _ ih => exact Nat.le_trans ih (Nat.le_of_lt (sizeOf_target_lt hlink))

/-- No module is reached from one that it links to. -/
theorem not_reaches_of_mem_links {program : Program} {link : Link Program}
    (hlink : link ∈ program.links) : ¬link.target.Reaches program :=
  fun h => absurd h.sizeOf_le (Nat.not_le_of_lt (sizeOf_target_lt hlink))

/-- Modules behind a program, each once, with all modules that they link to. -/
structure Collected (root : Program) (found : List Program) : Prop where
  reached : ∀ program ∈ found, root.Reaches program
  distinct : (found.map moduleName).Nodup
  closed : ∀ program ∈ found, ∀ link ∈ program.links, link.target ∈ found

theorem Collected.mem_of_reaches {root first other : Program} {found : List Program}
    (h : root.Collected found) (hreaches : first.Reaches other) (hfirst : first ∈ found) :
    other ∈ found := by
  induction hreaches with
  | refl => exact hfirst
  | link hlink _ ih => exact ih (h.closed _ hfirst _ hlink)

/-- Modules were added to those found before, all from the given ones. -/
structure Adds (added : Program → Prop) (before after : List Program) : Prop where
  keeps : ∀ program ∈ before, program ∈ after
  adds : ∀ program ∈ after, program ∈ before ∨ added program

/-- What the modules that a program links to add to those found before. -/
def collectBehind (program : Program) (found : List Program) : List Program :=
  program.links.foldl (fun found link =>
    if link.target.moduleName = program.moduleName then found
    else link.target.collect found) found

theorem collect_eq (program : Program) (found : List Program) :
    program.collect found =
      if found.any (·.moduleName = program.moduleName) then found
      else program.collectBehind found ++ [program] := by
  have hattach := List.foldl_attach (l := program.links) (b := found)
    (f := fun found link => if link.target.moduleName = program.moduleName then found
      else link.target.collect found)
  rw [collect, collectBehind, ← hattach]

section

variable {root : Program} (hnames : root.NamesModules)

include hnames

/-- Links add what the modules behind them add. -/
theorem collected_links {program : Program} (hprogram : root.Reaches program)
    {links : List (Link Program)} (hlinks : ∀ link ∈ links, link ∈ program.links)
    (hcollect : ∀ link ∈ links, ∀ found, root.Collected found →
      root.Collected (link.target.collect found) ∧ link.target ∈ link.target.collect found ∧
        Adds link.target.Reaches found (link.target.collect found))
    {found : List Program} (hfound : root.Collected found) :
    let after := links.foldl (fun found link =>
      if link.target.moduleName = program.moduleName then found
      else link.target.collect found) found
    root.Collected after ∧ (∀ link ∈ links, link.target ∈ after) ∧
      Adds (fun other => ∃ link ∈ program.links, link.target.Reaches other) found after := by
  induction links generalizing found with
  | nil => exact ⟨hfound, by simp, fun _ h => h, fun _ h => .inl h⟩
  | cons link rest ih =>
    rw [List.forall_mem_cons] at hlinks hcollect
    have hother : link.target.moduleName ≠ program.moduleName := by
      intro heq
      have hsame := hnames _ _ (hprogram.trans (.link hlinks.1 .refl)) hprogram heq
      exact not_reaches_of_mem_links hlinks.1 (hsame ▸ .refl)
    obtain ⟨hcollected, hmem, hadds⟩ := hcollect.1 found hfound
    obtain ⟨hrest, htargets, hmore⟩ := ih hlinks.2 hcollect.2 hcollected
    simp only [List.foldl_cons, if_neg hother]
    refine ⟨hrest, List.forall_mem_cons.2 ⟨hmore.keeps _ hmem, htargets⟩,
      fun other h => hmore.keeps _ (hadds.keeps _ h), fun other h => ?_⟩
    rcases hmore.adds other h with h | h
    · exact (hadds.adds other h).imp_right fun h => ⟨link, hlinks.1, h⟩
    · exact .inr h

/-- Collecting a module adds it, and only what it reaches. -/
theorem collected_collect (program : Program) (hprogram : root.Reaches program)
    {found : List Program} (hfound : root.Collected found) :
    root.Collected (program.collect found) ∧ program ∈ program.collect found ∧
      Adds program.Reaches found (program.collect found) := by
  rw [collect_eq]
  split
  · next hany =>
    obtain ⟨other, hother, hname⟩ := List.any_eq_true.1 hany
    have hsame := hnames other program (hfound.reached other hother) hprogram (by simpa using hname)
    exact ⟨hfound, hsame ▸ hother, fun _ h => h, fun _ h => .inl h⟩
  · next hnone =>
    obtain ⟨hcollected, htargets, hadds⟩ := collected_links hnames hprogram (fun _ h => h)
      (fun link hlink found => collected_collect link.target
        (hprogram.trans (.link hlink .refl))) hfound
    have hfresh : ∀ other ∈ program.collectBehind found, other.moduleName ≠ program.moduleName := by
      intro other hother hname
      obtain rfl := hnames other program (hcollected.reached other hother) hprogram hname
      rcases hadds.adds other hother with hbefore | ⟨link, hlink, hreaches⟩
      · exact hnone (List.any_eq_true.2 ⟨other, hbefore, by simp⟩)
      · exact not_reaches_of_mem_links hlink hreaches
    refine ⟨⟨?_, ?_, ?_⟩, List.mem_append_right _ (List.mem_singleton_self _), ⟨?_, ?_⟩⟩
    · rintro other hother
      rcases List.mem_append.1 hother with hother | hother
      · exact hcollected.reached other hother
      · exact List.mem_singleton.1 hother ▸ hprogram
    · rw [List.map_append, List.nodup_append]
      refine ⟨hcollected.distinct, by simp, fun name hname other hother => ?_⟩
      obtain ⟨module, hmodule, rfl⟩ := List.mem_map.1 hname
      obtain rfl := List.mem_singleton.1 hother
      exact hfresh module hmodule
    · intro other hother link hlink
      refine List.mem_append_left _ ?_
      rcases List.mem_append.1 hother with hother | hother
      · exact hcollected.closed other hother link hlink
      · obtain rfl := List.mem_singleton.1 hother
        exact htargets link hlink
    · exact fun other hother => List.mem_append_left _ (hadds.keeps other hother)
    · intro other hother
      rcases List.mem_append.1 hother with hother | hother
      · exact (hadds.adds other hother).imp_right fun ⟨link, hlink, h⟩ => .link hlink h
      · exact .inr (List.mem_singleton.1 hother ▸ .refl)
termination_by sizeOf program
decreasing_by exact sizeOf_target_lt hlink

end

section

variable {program : Program} (hnames : program.NamesModules)

include hnames

theorem collected_collect_nil :
    program.Collected (program.collect []) ∧ program ∈ program.collect [] := by
  have hempty : program.Collected [] := ⟨by simp, by simp, by simp⟩
  obtain ⟨hcollected, hmem, -⟩ := collected_collect hnames program .refl hempty
  exact ⟨hcollected, hmem⟩

/-- The collected modules are the reached ones. -/
theorem mem_collect_iff {other : Program} : other ∈ program.collect [] ↔ program.Reaches other := by
  obtain ⟨hcollected, hmem⟩ := collected_collect_nil hnames
  exact ⟨hcollected.reached other, fun hreaches => hcollected.mem_of_reaches hreaches hmem⟩

/-- Every module is collected once. -/
theorem nodup_collect : ((program.collect []).map moduleName).Nodup :=
  (collected_collect_nil hnames).1.distinct

end

end Program
end Gobstones
