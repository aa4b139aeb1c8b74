import Gobstones.Proofs.Check.Calls
import Gobstones.Proofs.Machine.Safety
import Gobstones.Proofs.Object.Behaviour
import Gobstones.Proofs.Object.Verbose
/-!
# Compact objects

This module shows that an accepted program without links behaves like what is read from
its compact text.  Routines and variables get short names there; the entrypoint and
returned variables keep theirs, so these names must not look like generated ones.  An
entrypoint that is named like a generated routine is read under the name of another
routine, and the text is no object any more.

Main definitions:

- {lit}`Program.Keeps`: the routines that keep their names in compact style.

Main results:

- Theorem {lit}`Program.unmarked_entry_compact`: under which names routines are read.
- Theorem {lit}`Program.execute_compact`: an accepted program runs like the one that is
  read from its compact text.
- Theorem {lit}`Program.readObject_writeObject_clash`: an entrypoint is taken for another
  routine.
-/

namespace Gobstones

namespace Program

/-- The entrypoint and routines that are named like builtins keep their names in compact
style. -/
def Keeps (program : Program) (routine : Routine) : Prop :=
  program.builtins.contains routine.name ∨ Naming.keepsName program routine

section

variable {program : Program} (hlinks : program.links = [])
  (hbuiltins : program.builtins = BuiltinTable.standard) {final : Naming}
  (h : Naming.EndsSession program .compact final)

include hlinks hbuiltins h

/-- A routine is read under its own name if it keeps it, and else under the name that was
generated for it. -/
theorem unmarked_entry_compact {routine : Routine} (hmem : routine ∈ program.routines)
    (hword : Token.IsWord routine.name) :
    Token.IsWord (final.entry program routine).name ∧
      (program.Keeps routine ∧ unmarked (final.entry program routine).name = routine.name ∨
        ¬program.Keeps routine ∧
          unmarked (final.entry program routine).name = (final.entry program routine).name ∧
          Naming.LooksGenerated 'R' (final.entry program routine).name ∧
          final.routines.lookup (program.moduleName, routine.name) =
            some (final.entry program routine).name) := by
  by_cases hbuiltin : program.builtins.contains routine.name
  · have hname : (final.entry program routine).name = routine.name := by
      rw [Naming.entry, Naming.routineName_builtin hbuiltin]
    rw [hname]
    exact ⟨hword, .inl ⟨.inl hbuiltin,
      unmarked_of_head (BuiltinTable.isWord_of_contains (hbuiltins ▸ hbuiltin)).2⟩⟩
  · have hown : final.routineName program routine.name = _ :=
      Naming.routineName_own hbuiltin (routine?_of_mem hmem)
    by_cases hkeeps : Naming.keepsName program routine
    · have hname : (final.entry program routine).name = "$" ++ routine.name := by
        rw [Naming.entry, hown, if_pos (.inr hkeeps), Naming.marked, h.root]
        simp
      rw [hname]
      exact ⟨Token.isWord_append (List.all_eq_true.1 (by decide)) hword,
        .inl ⟨.inr hkeeps, unmarked_dollar _⟩⟩
    · obtain ⟨hword, hgenerated⟩ :=
        h.generated_entry (by simp [collect_of_links hlinks]) hmem hbuiltin hkeeps
      exact ⟨hword, .inr ⟨not_or.2 ⟨hbuiltin, hkeeps⟩, hgenerated⟩⟩

end

/-- In an accepted program only one routine is marked as the place to start. -/
theorem entrypoint?_of_kind {program : Program} (h : program.entryProblems = [])
    {routine : Routine} (hmem : routine ∈ program.routines) (hkind : routine.kind = .entrypoint) :
    program.entrypoint? = some routine := by
  have hfilter : routine ∈ program.routines.filter (·.kind = .entrypoint) :=
    List.mem_filter.2 ⟨hmem, by simpa using hkind⟩
  unfold entryProblems at h
  split at h
  · next hnil => simp [List.map_eq_nil_iff.1 hnil] at hfilter
  · next name hname =>
    obtain ⟨entry, hentry, -⟩ := List.map_eq_singleton_iff.1 hname
    rw [hentry, List.mem_singleton] at hfilter
    have hfind : program.routines.find? (·.kind = .entrypoint) = some routine := by
      rw [← List.head?_filter, hentry, hfilter]
      rfl
    rw [entrypoint?, hfind]
  · simp at h

theorem Keeps.cases {program : Program} (hentry : program.entryProblems = []) {routine : Routine}
    (hmem : routine ∈ program.routines) (h : program.Keeps routine) :
    program.builtins.contains routine.name ∨ program.entrypoint? = some routine := by
  refine h.imp_right fun hkeeps => ?_
  simp only [Naming.keepsName, Bool.or_eq_true, decide_eq_true_eq] at hkeeps
  rcases hkeeps with hkind | hname
  · exact entrypoint?_of_kind hentry hmem hkind
  · cases hfound : program.entrypoint? with
    | none => simp [hfound] at hname
    | some entry =>
      have hname : entry.name = routine.name := by simpa [hfound] using hname
      rw [List.inj_on_of_nodup_map program.distinct (mem_of_entrypoint? hfound) hmem hname]

theorem keeps_entrypoint {program : Program} {entry : Routine}
    (h : program.entrypoint? = some entry) : program.Keeps entry :=
  .inr (by simp [Naming.keepsName, h])

section

variable {program : Program} (hbuiltins : program.builtins = BuiltinTable.standard)
  (hentry : program.entryProblems = [])
  (hapart : ∀ entry, program.entrypoint? = some entry → ¬Naming.LooksGenerated 'R' entry.name)

include hbuiltins hentry hapart

/-- A routine that keeps its name does not look like a generated one. -/
theorem not_looksGenerated_of_keeps {routine : Routine} (hmem : routine ∈ program.routines)
    (hkeeps : program.Keeps routine) : ¬Naming.LooksGenerated 'R' routine.name := by
  rcases hkeeps.cases hentry hmem with hbuiltin | hfound
  · exact BuiltinTable.not_looksGenerated_of_contains (hbuiltins ▸ hbuiltin)
  · exact hapart routine hfound

variable (hlinks : program.links = [])
  (hlegible : ∀ routine ∈ program.routines, routine.Legible)
  {final : Naming} (h : Naming.EndsSession program .compact final)

include hlinks hlegible h

/-- Different routines are read under different names. -/
theorem unmarked_entry_inj {first second : Routine} (hfirst : first ∈ program.routines)
    (hsecond : second ∈ program.routines)
    (heq : unmarked (final.entry program first).name = unmarked (final.entry program second).name) :
    first = second := by
  refine List.inj_on_of_nodup_map program.distinct hfirst hsecond ?_
  have hapart {routine : Routine} (hmem : routine ∈ program.routines)
      (hkeeps : program.Keeps routine) :=
    not_looksGenerated_of_keeps hbuiltins hentry hapart hmem hkeeps
  rcases (unmarked_entry_compact hlinks hbuiltins h hfirst (hlegible first hfirst).name).2 with
    ⟨hkeeps, hname⟩ | ⟨-, hname, hlooks, hlookup⟩ <;>
  rcases (unmarked_entry_compact hlinks hbuiltins h hsecond (hlegible second hsecond).name).2 with
    ⟨hkeeps', hname'⟩ | ⟨-, hname', hlooks', hlookup'⟩ <;>
  rw [hname, hname'] at heq
  · exact heq
  · exact absurd (heq ▸ hlooks') (hapart hfirst hkeeps)
  · exact absurd (heq ▸ hlooks) (hapart hsecond hkeeps')
  · rw [heq] at hlookup
    exact (Prod.mk.inj (h.numbered.routines.eq_of_lookup hlookup hlookup')).2

omit hentry hapart in
theorem writesCall_compact {name : String} (hname : program.resolve? name ≠ none) :
    final.WritesCall (program.collect []) program name := by
  have hcollect : program ∈ program.collect [] := by simp [collect_of_links hlinks]
  cases hresolve : program.resolve? name with
  | none => exact absurd hresolve hname
  | some target =>
    cases target with
    | builtin builtin => exact .inl ⟨builtin, hresolve⟩
    | own callee =>
      have hcallee : program.callee? name = some (program, callee) := by rw [callee?, hresolve]
      obtain ⟨hmem, rfl⟩ := mem_of_routine? (resolve?_own hresolve)
      refine .inr ⟨program, callee, hcallee, hcollect, rfl, ?_⟩
      rcases (unmarked_entry_compact hlinks hbuiltins h hmem (hlegible callee hmem).name).2 with
        ⟨-, hunmarked⟩ | ⟨-, hunmarked, hlooks, -⟩
      · rw [hunmarked, ← hbuiltins]
        exact not_contains_of_callee? hcallee
      · rw [hunmarked]
        exact fun hcontains => BuiltinTable.not_looksGenerated_of_contains hcontains hlooks
    | external other callee =>
      obtain ⟨link, hlink, -⟩ := resolve?_external hresolve
      simp [link?, hlinks] at hlink

theorem writesEntry_compact : final.WritesEntry (program.collect []) program where
  only home hhome routine hmem hkind := by
    obtain rfl : home = program := by simpa [collect_of_links hlinks] using hhome
    exact ⟨rfl, entrypoint?_of_kind hentry hmem hkind⟩
  name entry hfound := by
    have hmem := mem_of_entrypoint? hfound
    rcases (unmarked_entry_compact hlinks hbuiltins h hmem (hlegible entry hmem).name).2 with
      ⟨-, hname⟩ | ⟨hkeeps, -⟩
    · exact hname
    · exact absurd (keeps_entrypoint hfound) hkeeps
  fallback home hhome routine hmem hname := by
    obtain rfl : home = program := by simpa [collect_of_links hlinks] using hhome
    rcases (unmarked_entry_compact hlinks hbuiltins h hmem (hlegible routine hmem).name).2 with
      ⟨-, hown⟩ | ⟨-, hgenerated, hlooks, -⟩
    · exact ⟨rfl, hown⟩
    · have hnames : ∀ name ∈ entrypointNames, ¬Naming.LooksGenerated 'R' name := by decide
      rw [hgenerated] at hname
      exact absurd hlooks (hnames _ hname)

end

/-- An accepted program without links runs like the one that is read from its compact text,
if the entrypoint and returned variables do not look like generated names. -/
theorem execute_compact {program : Program} (haccepted : program.Accepted)
    (hlinks : program.links = []) (hbuiltins : program.builtins = BuiltinTable.standard)
    (hlegible : ∀ routine ∈ program.routines, routine.Legible)
    (hreturned : ∀ routine ∈ program.routines, ∀ instruction ∈ routine.code,
      ∀ typed ∈ instruction.returnedNames, ¬Naming.LooksGenerated 'V' (Polyname.base typed))
    (hapart : ∀ entry, program.entrypoint? = some entry →
      ¬Naming.LooksGenerated 'R' entry.name) :
    ∃ reread, readObject (writeObject program .compact) = .ok reread ∧
      ∀ board stepLimit fuel,
        let ended := (Machine.new program board stepLimit).execute fuel
        let endedReread := (Machine.new reread board stepLimit).execute fuel
        ended.2.Alike endedReread.2 ∧ endedReread.1.board = ended.1.board ∧
          endedReread.1.steps = ended.1.steps := by
  obtain ⟨hentry, hcalls, -, -⟩ : program.entryProblems = [] ∧ program.callProblems = [] ∧
      program.bracketProblems = [] ∧ (program.callProblems = [] → program.depthProblems = []) := by
    simpa [Accepted, problems] using haccepted
  rw [callProblems_eq_nil_iff] at hcalls
  obtain ⟨final, hfinal⟩ := Naming.exists_endsSession program .compact
  have hsingle {home : Program} (hhome : home ∈ program.collect []) : home = program := by
    simpa [collect_of_links hlinks] using hhome
  have hentries : final.entries (program.collect []) =
      program.routines.map (final.entry program) := by
    simp [collect_of_links hlinks, Naming.entries]
  refine hfinal.exists_alike (by simp [collect_of_links hlinks])
    { builtins := fun home hhome => hsingle hhome ▸ hbuiltins
      legible := fun home hhome => hsingle hhome ▸ hlegible
      words := fun home hhome routine hmem => ?_
      distinct := ?_
      kept := fun _ home hhome => hsingle hhome ▸ hreturned
      calls := fun home hhome routine hmem instruction hinstruction name hname => ?_
      entry := writesEntry_compact hbuiltins hentry hapart hlinks hlegible hfinal }
  · obtain rfl := hsingle hhome
    exact (unmarked_entry_compact hlinks hbuiltins hfinal hmem (hlegible routine hmem).name).1
  · rw [hentries, List.map_map]
    exact (List.Nodup.of_map _ program.distinct).map_on fun first hfirst second hsecond heq =>
      unmarked_entry_inj hbuiltins hentry hapart hlinks hlegible hfinal hfirst hsecond heq
  · obtain rfl := hsingle hhome
    refine writesCall_compact hbuiltins hlinks hlegible hfinal ?_
    have hsound := hcalls routine hmem instruction hinstruction
    cases instruction with
    | call called argc =>
      obtain rfl : called = name := by simpa [Instruction.callName?] using hname
      obtain ⟨target, htarget, -⟩ := hsound
      simp [htarget]
    | _ => cases hname

end Program

namespace Trim

/-- Put a stone unless it is blue. -/
def lay : Routine where
  kind := .procedure
  name := "Lay"
  params := ["color"]
  code := #[.pushFrom "color", .jumpIfNotIn [.color .blue] "stone", .ret 0, .label "stone",
    .pushFrom "color", .call "PutStone" 1, .ret 0]
  targets := #[none, some 4, none, none, none, none, none]
  resolved := rfl

/-- Put a red stone and return a number. -/
def main : Routine where
  kind := .entrypoint
  name := "program"
  params := []
  code := #[.pushConst (.color .red), .call "Lay" 1, .pushConst (.int 2), .popTo "x",
    .returnVars 1 ["x@Int"]]
  targets := Array.replicate 5 none
  resolved := rfl

/-- The program of both routines. -/
def program : Program where
  moduleName := "main"
  routines := [lay, main]
  builtins := BuiltinTable.standard
  links := []
  distinct := by decide

end Trim

namespace Program

theorem execute_compact_trim :
    ∃ reread, readObject (writeObject Trim.program .compact) = .ok reread ∧
      ∀ board stepLimit fuel,
        let ended := (Machine.new Trim.program board stepLimit).execute fuel
        let endedReread := (Machine.new reread board stepLimit).execute fuel
        ended.2.Alike endedReread.2 ∧ endedReread.1.board = ended.1.board ∧
          endedReread.1.steps = ended.1.steps :=
  execute_compact (by decide +kernel) rfl rfl (by decide) (by decide) (by decide)

end Program

namespace Clash

/-- A procedure that does nothing. -/
def noop : Routine where
  kind := .procedure
  name := "P"
  params := []
  code := #[.ret 0]
  targets := #[none]
  resolved := rfl

/-- An entrypoint with the first name that is generated for routines. -/
def main : Routine where
  kind := .entrypoint
  name := "R"
  params := []
  code := #[.call "P" 0, .returnVars 0 []]
  targets := #[none, none]
  resolved := rfl

/-- The program of both routines. -/
def program : Program where
  moduleName := "main"
  routines := [noop, main]
  builtins := BuiltinTable.standard
  links := []
  distinct := by decide

end Clash

namespace Program

/-- An entrypoint that is named like a generated routine is taken for it. -/
theorem readObject_writeObject_clash :
    Clash.program.Accepted ∧ Clash.program.links = [] ∧
      Clash.program.builtins = BuiltinTable.standard ∧
      (∀ routine ∈ Clash.program.routines, routine.Legible) ∧
      (∀ routine ∈ Clash.program.routines, ∀ instruction ∈ routine.code,
        ∀ typed ∈ instruction.returnedNames, ¬Naming.LooksGenerated 'V' (Polyname.base typed)) ∧
      ∃ error, readObject (writeObject Clash.program .compact) = .error error ∧
        error.problem = .duplicateRoutine "R" := by
  have hread : (match readObject (writeObject Clash.program .compact) with
      | .error error => decide (error.problem = .duplicateRoutine "R")
      | .ok _ => false) = true := by
    decide +kernel
  refine ⟨by decide +kernel, rfl, rfl, by decide, by decide, ?_⟩
  split at hread
  · next error herror => exact ⟨error, herror, of_decide_eq_true hread⟩
  · cases hread

end Program
end Gobstones
