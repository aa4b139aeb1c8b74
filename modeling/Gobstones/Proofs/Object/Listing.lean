import Mathlib.Data.List.Nodup
import Gobstones.Proofs.Object.Reading
import Gobstones.Proofs.Ordered
import Gobstones.Proofs.Program.Reach
/-!
# Listed routines

This module shows which routines an object lists, and under which words their names are
written: every routine of every module once, if no two are read under one name.

Main definitions:

- {lit}`Naming.entries`: the routines of modules under their written names.
- {lit}`Naming.ReadsAll`: a program is read for an object.

Main results:

- Theorem {lit}`Naming.EndsSession.readsAll`: a written object is read as all routines of
  all modules, in the order of their written names.
-/

namespace Gobstones

/-! ## Marked names -/

theorem unmarked_dollar (name : String) : unmarked ("$" ++ name) = name := by
  simp [unmarked]

/-- A name without a dollar sign in front is read as it is. -/
theorem unmarked_of_head {name : String} (h : name.toList.head? ≠ some '$') :
    unmarked name = name := by
  unfold unmarked
  split
  · next heq => simp [heq] at h
  · rfl

theorem Token.isWord_append {first second : String} (h : ∀ c ∈ first.toList, Token.isWordChar c)
    (hsecond : Token.IsWord second) : Token.IsWord (first ++ second) := by
  constructor
  · simpa using fun _ => hsecond.1
  · intro c hc
    rw [String.toList_append] at hc
    exact (List.mem_append.1 hc).elim (h c) (hsecond.2 c)

namespace BuiltinTable

/-- The names of the standard builtins are words without a mark. -/
theorem isWord_of_contains {name : String}
    (h : BuiltinTable.standard.contains name) :
    Token.IsWord name ∧ name.toList.head? ≠ some '$' := by
  have hall : ∀ builtin ∈ BuiltinTable.standard.entries,
      Token.IsWord builtin.name ∧ builtin.name.toList.head? ≠ some '$' := by
    decide +kernel
  obtain ⟨builtin, hbuiltin, rfl⟩ := exists_mem_of_contains h
  exact hall builtin hbuiltin

/-- No builtin is named like a generated routine. -/
theorem not_looksGenerated_of_contains {name : String}
    (h : BuiltinTable.standard.contains name) : ¬Naming.LooksGenerated 'R' name := by
  have hall : ∀ builtin ∈ BuiltinTable.standard.entries,
      ¬Naming.LooksGenerated 'R' builtin.name := by
    decide +kernel
  obtain ⟨builtin, hbuiltin, rfl⟩ := exists_mem_of_contains h
  exact hall builtin hbuiltin

end BuiltinTable

namespace Naming

/-! ## Entries -/

/-- The routines of modules under their written names, module by module. -/
def entries (naming : Naming) (programs : List Program) : List Listed :=
  programs.flatMap fun program => program.routines.map (naming.entry program)

theorem mem_entries {naming : Naming} {programs : List Program} {entry : Listed} :
    entry ∈ naming.entries programs ↔
      ∃ program ∈ programs, ∃ routine ∈ program.routines, naming.entry program routine = entry := by
  simp [entries]

/-- In compact style, a routine that does not keep its name has the one that was generated for
it and its module, and is read under it. -/
theorem EndsSession.generated_entry {program home : Program} {final : Naming}
    (h : EndsSession program .compact final) (hhome : home ∈ program.collect [])
    {routine : Routine} (hmem : routine ∈ home.routines)
    (hbuiltin : ¬home.builtins.contains routine.name) (hkeeps : ¬keepsName home routine) :
    Token.IsWord (final.entry home routine).name ∧
      unmarked (final.entry home routine).name = (final.entry home routine).name ∧
      LooksGenerated 'R' (final.entry home routine).name ∧
      final.routines.lookup (home.moduleName, routine.name) =
        some (final.entry home routine).name := by
  have hown : final.routineName home routine.name = _ :=
    routineName_own hbuiltin (Program.routine?_of_mem hmem)
  have hstyle : ¬(final.style = .verbose ∨ keepsName home routine) := by
    simp [h.style, hkeeps]
  have hchosen := h.chosen home hhome routine hmem
  rw [hown, if_neg hstyle] at hchosen
  have hlookup := lookup_of_settled (congrArg Naming.routines hchosen)
  have hname : (final.entry home routine).name =
      (chooseFrom 'R' final.routines (home.moduleName, routine.name)).1 := by
    rw [entry, hown, if_neg hstyle]
  rw [← hname] at hlookup
  obtain ⟨n, -, hgenerated⟩ := h.numbered.routines.exists_of_lookup hlookup
  have hlooks := looksGenerated_generated 'R' n
  rw [← hgenerated] at hlooks
  refine ⟨?_, unmarked_of_head ?_, hlooks, hlookup⟩
  · rw [hgenerated]
    exact isWord_generated (by decide) n
  · rw [hlooks.1]
    decide

/-- Listing inserts the entries one after the other. -/
theorem listing_eq_foldl (naming : Naming) (programs : List Program) :
    naming.listing programs = (naming.entries programs).foldl
      (fun sorted entry => Ordered.insert Listed.name entry sorted) [] := by
  unfold listing entries
  generalize ([] : List Listed) = before
  induction programs generalizing before with
  | nil => rfl
  | cons program rest ih =>
    rw [List.foldl_cons, ih, List.flatMap_cons, List.foldl_append, List.foldl_map]
    rfl

/-- The entries are all listed if they are read under distinct names. -/
theorem listing_perm {naming : Naming} {programs : List Program}
    (h : ((naming.entries programs).map fun entry => unmarked entry.name).Nodup) :
    (naming.listing programs).Perm (naming.entries programs) := by
  have hnames : ((naming.entries programs).map Listed.name).Nodup := by
    refine List.Nodup.of_map unmarked ?_
    rwa [List.map_map]
  rw [listing_eq_foldl, ← List.nil_append (naming.entries programs)]
  exact Ordered.foldl_insert_perm hnames

theorem ascending_listing (naming : Naming) (programs : List Program) :
    Ordered.Ascending Listed.name (naming.listing programs) := by
  rw [listing_eq_foldl]
  exact Ordered.ascending_foldl_insert List.Pairwise.nil

/-- A program is read for the object of other programs: it has their routines, in the order
of their written names. -/
structure ReadsAll (naming : Naming) (programs : List Program) (listed : List Listed)
    (reread : Program) : Prop where
  moduleName : reread.moduleName = "main"
  builtins : reread.builtins = BuiltinTable.standard
  links : reread.links = []
  perm : listed.Perm (naming.entries programs)
  ascending : Ordered.Ascending Listed.name listed
  routines : List.Forall₂ naming.Reads listed reread.routines
  numbered : naming.Numbered
  settled : ∀ entry ∈ listed,
    (naming.keepResults entry.routine).Settled entry.program entry.routine

/-- A routine that can be told from its entry is what is read for it. -/
theorem map_eq_of_reads {naming : Naming} {listed : List Listed} {routines : List Routine}
    {f : Listed → Routine} (h : List.Forall₂ naming.Reads listed routines)
    (hf : ∀ entry ∈ listed, ∀ routine, naming.Reads entry routine → routine = f entry) :
    routines = listed.map f := by
  induction h with
  | nil => rfl
  | cons hfirst _ ih =>
    rw [List.forall_mem_cons] at hf
    rw [List.map_cons, hf.1 _ hfirst, ih hf.2]

/-- A written object is read as all routines of all modules. -/
theorem EndsSession.readsAll {program : Program} {style : Style} {final : Naming}
    (h : EndsSession program style final)
    (hlegible : ∀ entry ∈ final.entries (program.collect []), entry.Legible final)
    (hnames : ((final.entries (program.collect [])).map fun entry => unmarked entry.name).Nodup) :
    ∃ reread listed, readObject (writeObject program style) = .ok reread ∧
      final.ReadsAll (program.collect []) listed reread := by
  have hperm := listing_perm hnames
  obtain ⟨reread, hread, hmodule, hbuiltins, hlinks, hroutines⟩ := h.exists_readObject
    (fun entry hentry => hlegible entry (hperm.mem_iff.1 hentry))
    (((hperm.map fun entry => unmarked entry.name).nodup_iff).2 hnames)
  exact ⟨reread, _, hread, hmodule, hbuiltins, hlinks, hperm, final.ascending_listing _,
    hroutines, h.numbered, h.settled⟩

end Naming

/-! ## Programs without links -/

/-- A program without links is its only module. -/
theorem Program.collect_of_links {program : Program} (h : program.links = []) :
    program.collect [] = [program] := by
  rw [Program.collect, List.attach_eq_nil_iff.2 h]
  rfl

end Gobstones
