import Gobstones.Proofs.Object.Listing
import Gobstones.Proofs.Program.Reach
/-!
# Verbose objects

This module shows that nothing is lost in verbose style: a program without links is read
back with exactly its routines, and only their order may be another one.

Main definitions:

- {lit}`Routine.Markable`: a routine can be written once its name is marked.
- {lit}`Program.LegibleCall`: a call can be written and is read as it was.
- {lit}`Program.verboseName`: the name under which a routine is listed.

Main results:

- Theorem {lit}`Program.exists_readObject_verbose`: routines whose names are legible behind a
  mark are read back.
- Theorem {lit}`Program.readObject_writeObject`: a program without links is read back from
  its verbose text.
-/

namespace Gobstones

/-- A routine can be written once its name is marked.  The name itself may be empty, or start with
a dollar sign. -/
structure Routine.Markable (routine : Routine) : Prop where
  name : ∀ c ∈ routine.name.toList, Token.isWordChar c
  params : ∀ name ∈ routine.params, Token.IsWord name
  code : ∀ instruction ∈ routine.code, instruction.Legible

theorem Routine.Legible.markable {routine : Routine} (h : routine.Legible) : routine.Markable :=
  ⟨h.name.2, h.params, h.code⟩

theorem isWord_dollar {name : String} (h : ∀ c ∈ name.toList, Token.isWordChar c) :
    Token.IsWord ("$" ++ name) := by
  constructor
  · simp
  · simpa using ⟨by decide, h⟩

namespace Program

/-- A called name is a builtin, a routine of the program, or another word without a dollar
sign in front. -/
def LegibleCall (program : Program) (name : String) : Prop :=
  program.builtins.contains name ∨ (program.routine? name).isSome ∨
    Token.IsWord name ∧ name.toList.head? ≠ some '$'

instance (program : Program) (name : String) : Decidable (program.LegibleCall name) :=
  inferInstanceAs (Decidable (_ ∨ _ ∨ _))

/-- The name under which a routine of a program is listed in verbose style. -/
def verboseName (program : Program) (name : String) : String :=
  ((Naming.new .verbose program.moduleName).routineName program name).1

section

variable {program : Program} {naming : Naming} (hstyle : naming.style = .verbose)

include hstyle

/-- In verbose style only routines are marked. -/
theorem routineName_verbose (hroot : naming.root = program.moduleName)
    (hlinks : program.links = []) (name : String) :
    (naming.routineName program name).1 =
      if program.builtins.contains name ∨ program.routine? name = none then name
      else "$" ++ name := by
  by_cases hbuiltin : program.builtins.contains name
  · rw [Naming.routineName_builtin hbuiltin, if_pos (.inl hbuiltin)]
  · cases hroutine : program.routine? name with
    | some callee =>
      rw [Naming.routineName_own hbuiltin hroutine, if_pos (.inl hstyle),
        if_neg (by simpa using hbuiltin), Naming.marked, hroot]
      simp
    | none =>
      have hlink : program.link? name = none := by simp [link?, hlinks]
      rw [Naming.routineName_unknown hbuiltin hroutine hlink, if_pos (.inr rfl)]

theorem routineName_eq_verboseName (hroot : naming.root = program.moduleName)
    (hlinks : program.links = []) (name : String) :
    (naming.routineName program name).1 = program.verboseName name := by
  rw [verboseName, routineName_verbose hstyle hroot hlinks, routineName_verbose rfl rfl hlinks]

/-- Routines that are listed under their written names are those of the program, in the order of
these names. -/
theorem routines_of_listed_verbose (hroot : naming.root = program.moduleName)
    (hlinks : program.links = []) {listed : List Listed}
    (hperm : listed.Perm (program.routines.map (naming.entry program)))
    (hascending : Ordered.Ascending Listed.name listed) :
    (listed.map Listed.routine).Perm program.routines ∧
      (listed.map Listed.routine).Pairwise fun first second =>
        program.verboseName first.name < program.verboseName second.name := by
  constructor
  · have hmap : (program.routines.map (naming.entry program)).map Listed.routine =
        program.routines := by
      rw [List.map_map]
      exact List.map_id _
    exact hmap ▸ hperm.map Listed.routine
  · rw [List.pairwise_map]
    refine hascending.imp_of_mem fun hfirst hsecond hlt => ?_
    obtain ⟨first, -, rfl⟩ := List.mem_map.1 (hperm.mem_iff.1 hfirst)
    obtain ⟨second, -, rfl⟩ := List.mem_map.1 (hperm.mem_iff.1 hsecond)
    have hname := routineName_eq_verboseName hstyle hroot hlinks
    rw [← hname, ← hname]
    exact hlt

theorem variableName_verbose (name : String) : (naming.variableName name).1 = name := by
  rw [Naming.variableName, if_pos (.inl hstyle)]

theorem labelName_verbose (name : String) : (naming.labelName name).1 = name := by
  rw [Naming.labelName, if_pos hstyle]

end

/-- A program without links has its own routines alone. -/
theorem entries_of_links {program : Program} (h : program.links = []) (naming : Naming) :
    naming.entries (program.collect []) = program.routines.map (naming.entry program) := by
  simp [collect_of_links h, Naming.entries]

section

variable {program : Program} {final : Naming} (hstyle : final.style = .verbose)
  (hroot : final.root = program.moduleName) (hlinks : program.links = [])
  (hbuiltins : program.builtins = BuiltinTable.standard)
  (hmarkable : ∀ routine ∈ program.routines, routine.Markable)

include hstyle hroot hlinks hbuiltins hmarkable

/-- A legible call is written as a word and read as it was. -/
theorem legibleCall_verbose {name : String} (h : program.LegibleCall name) :
    Token.IsWord (final.routineName program name).1 ∧
      unmarked (final.routineName program name).1 = name := by
  rw [routineName_verbose hstyle hroot hlinks]
  split
  · next hplain =>
    have hword : Token.IsWord name ∧ name.toList.head? ≠ some '$' := by
      rcases h with hbuiltin | hroutine | hword
      · exact BuiltinTable.isWord_of_contains (hbuiltins ▸ hbuiltin)
      · rcases hplain with hbuiltin | hnone
        · exact BuiltinTable.isWord_of_contains (hbuiltins ▸ hbuiltin)
        · simp [hnone] at hroutine
      · exact hword
    exact ⟨hword.1, unmarked_of_head hword.2⟩
  · next hmarked =>
    rw [not_or] at hmarked
    obtain ⟨routine, hroutine⟩ := Option.ne_none_iff_exists'.1 hmarked.2
    obtain ⟨hmem, rfl⟩ := mem_of_routine? hroutine
    exact ⟨isWord_dollar (hmarkable routine hmem).name, unmarked_dollar _⟩

/-- The routines of the program can be written, and are read under distinct names. -/
theorem legible_entry_verbose
    (hcalls : ∀ routine ∈ program.routines, ∀ instruction ∈ routine.code,
      ∀ name ∈ instruction.callName?, program.LegibleCall name)
    {routine : Routine} (hmem : routine ∈ program.routines) :
    (final.entry program routine).Legible final where
  name := (legibleCall_verbose hstyle hroot hlinks hbuiltins hmarkable
    (.inr (.inl (by simp [routine?_of_mem hmem])))).1
  params := (hmarkable routine hmem).params
  code := (hmarkable routine hmem).code
  calls instruction hinstruction name hname :=
    (legibleCall_verbose hstyle hroot hlinks hbuiltins hmarkable
      (hcalls routine hmem instruction hinstruction name hname)).1

theorem unmarked_entry_verbose {routine : Routine} (hmem : routine ∈ program.routines) :
    unmarked (final.entry program routine).name = routine.name :=
  (legibleCall_verbose hstyle hroot hlinks hbuiltins hmarkable
    (.inr (.inl (by simp [routine?_of_mem hmem])))).2

/-- The routines of the program are read under distinct names. -/
theorem nodup_entries_verbose :
    ((final.entries (program.collect [])).map fun entry => unmarked entry.name).Nodup := by
  have hunmarked : ∀ routine ∈ program.routines,
      unmarked (final.entry program routine).name = routine.name := fun routine =>
    unmarked_entry_verbose hstyle hroot hlinks hbuiltins hmarkable
  have hmap := List.map_congr_left hunmarked
  rw [entries_of_links hlinks, List.map_map]
  exact hmap ▸ program.distinct

/-- In verbose style the routine that is read is the one that was written. -/
theorem eq_of_reads_verbose
    (hcalls : ∀ routine ∈ program.routines, ∀ instruction ∈ routine.code,
      ∀ name ∈ instruction.callName?, program.LegibleCall name)
    {routine reread : Routine} (hmem : routine ∈ program.routines)
    (h : final.Reads (final.entry program routine) reread) : reread = routine := by
  have hkept : (final.keepResults routine).style = .verbose := hstyle
  refine h.renamed.eq ?_ ?_ ?_
  · rw [h.name, unmarked_entry_verbose hstyle hroot hlinks hbuiltins hmarkable hmem]
    rfl
  · exact fun name _ => variableName_verbose hkept name
  · intro instruction hinstruction
    refine Instruction.rename_eq_self (fun name hname => ?_)
      (fun name _ => variableName_verbose hkept name) (fun name _ => labelName_verbose hkept name)
    change unmarked ((final.keepResults routine).routineName program name).1 = name
    rw [Naming.routineName_keepResults]
    exact (legibleCall_verbose hstyle hroot hlinks hbuiltins hmarkable
      (hcalls routine hmem instruction hinstruction name hname)).2

end

/-- A program without links whose routines can be written once they are marked is read back from
its verbose text with exactly its routines, in the order of their written names. -/
theorem exists_readObject_verbose {program : Program} (hlinks : program.links = [])
    (hbuiltins : program.builtins = BuiltinTable.standard)
    (hmarkable : ∀ routine ∈ program.routines, routine.Markable)
    (hcalls : ∀ routine ∈ program.routines, ∀ instruction ∈ routine.code,
      ∀ name ∈ instruction.callName?, program.LegibleCall name) :
    ∃ reread, readObject (writeObject program .verbose) = .ok reread ∧
      reread.routines.Perm program.routines ∧
      reread.routines.Pairwise fun first second =>
        program.verboseName first.name < program.verboseName second.name := by
  obtain ⟨final, hfinal⟩ := Naming.exists_endsSession program .verbose
  have hentries := entries_of_links hlinks final
  have hnames := nodup_entries_verbose hfinal.style hfinal.root hlinks hbuiltins hmarkable
  obtain ⟨reread, listed, hread, hreads⟩ := hfinal.readsAll (by
    rw [hentries, List.forall_mem_map]
    exact fun routine =>
      legible_entry_verbose hfinal.style hfinal.root hlinks hbuiltins hmarkable hcalls) hnames
  have hperm : listed.Perm (program.routines.map (final.entry program)) := hentries ▸ hreads.perm
  have hroutines : reread.routines = listed.map Listed.routine := by
    refine Naming.map_eq_of_reads hreads.routines fun entry hentry routine hroutine => ?_
    obtain ⟨original, hmem, rfl⟩ := List.mem_map.1 (hperm.mem_iff.1 hentry)
    exact eq_of_reads_verbose hfinal.style hfinal.root hlinks hbuiltins hmarkable hcalls hmem hroutine
  refine ⟨reread, hread, ?_⟩
  rw [hroutines]
  exact routines_of_listed_verbose hfinal.style hfinal.root hlinks hperm hreads.ascending

/-- A program without links is read back from its verbose text with exactly its routines,
which are in the order of their written names. -/
theorem readObject_writeObject {program : Program} (hlinks : program.links = [])
    (hbuiltins : program.builtins = BuiltinTable.standard)
    (hlegible : ∀ routine ∈ program.routines, routine.Legible)
    (hcalls : ∀ routine ∈ program.routines, ∀ instruction ∈ routine.code,
      ∀ name ∈ instruction.callName?, program.LegibleCall name) :
    ∃ reread, readObject (writeObject program .verbose) = .ok reread ∧
      reread.routines.Perm program.routines ∧
      reread.routines.Pairwise fun first second =>
        program.verboseName first.name < program.verboseName second.name :=
  exists_readObject_verbose hlinks hbuiltins
    (fun routine hmem => (hlegible routine hmem).markable) hcalls

end Program

namespace Recital

/-- Fail with a message that has to be quoted, unless the argument is a certain pair. -/
def recite : Routine where
  kind := .procedure
  name := "Recite"
  params := ["verse"]
  code := #[.pushFrom "verse",
    .jumpIfNotIn [.tuple [.int 3, .tuple [.color .red, .bool true]], .tuple []] "else",
    .ret 0, .label "else", .raise "no \"verse\";\n\\end"]
  targets := #[none, some 4, none, none, none]
  resolved := rfl

/-- Call the procedure and a name that stands for nothing. -/
def main : Routine where
  kind := .entrypoint
  name := "program"
  params := []
  code := #[.pushConst (.tuple [.dir .north, .tuple [.int (-4)]]), .call "Recite" 1,
    .call "Unknown" 0, .returnVars 1 ["verse@Int"]]
  targets := Array.replicate 4 none
  resolved := rfl

/-- The program of both routines. -/
def program : Program where
  moduleName := "main"
  routines := [main, recite]
  builtins := BuiltinTable.standard
  links := []
  distinct := by decide

end Recital

namespace Program

theorem readObject_writeObject_recital :
    ∃ reread, readObject (writeObject Recital.program .verbose) = .ok reread ∧
      reread.routines.Perm Recital.program.routines ∧
      reread.routines.Pairwise fun first second =>
        Recital.program.verboseName first.name < Recital.program.verboseName second.name := by
  refine readObject_writeObject rfl rfl ?_ ?_
  · decide
  · decide

end Program
end Gobstones
