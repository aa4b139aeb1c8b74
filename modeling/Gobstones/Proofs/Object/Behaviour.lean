import Gobstones.Proofs.Machine.Mirror
import Gobstones.Proofs.Object.Listing
/-!
# Objects that behave alike

This module shows that what is read for a written program mirrors it, as soon as its
calls are written under the names of the routines that they enter, and it is read to
start where it did.

Main definitions:

- {lit}`Naming.images`: the routines that are read for the routines of modules.
- {lit}`Naming.WritesCall` and {lit}`Naming.WritesEntry`: calls, and the place to start,
  are written so that they are found again.

Main results:

- Theorem {lit}`Naming.ReadsAll.mirrors`: the program that is read mirrors the written one.
-/

namespace Gobstones
namespace Naming

/-! ## Variables -/

theorem mem_kept {naming : Naming} {routine : Routine} {name : String} :
    name ∈ (naming.keepResults routine).kept ↔
      ∃ instruction ∈ routine.code, ∃ typed ∈ instruction.returnedNames,
        Polyname.base typed = name := by
  simp only [keepResults, List.mem_flatMap, Array.mem_toList_iff]
  refine exists_congr fun instruction => and_congr_right fun _ => ?_
  cases instruction with
  | returnVars n names => simp [Instruction.returnedNames]
  | _ => simp [Instruction.returnedNames]

/-- Returned variables keep their names. -/
theorem variableName_of_mem_kept {naming : Naming} {name : String} (h : name ∈ naming.kept) :
    naming.variableName name = (name, naming) := by
  rw [variableName, if_pos (.inr h)]

theorem Settled.variableName {naming : Naming} {program : Program} {routine : Routine}
    (h : (naming.keepResults routine).Settled program routine) {name : String}
    (hname : name ∈ routine.localNames) :
    ((naming.keepResults routine).variableName name).2 = naming.keepResults routine := by
  rcases hname with hparam | ⟨instruction, hmem, hlocal | hreturned⟩
  · exact h.params name hparam
  · have hoperands := h.code instruction hmem
    cases instruction <;> simp_all [Instruction.localName?, Naming.operands]
  · rw [variableName_of_mem_kept (mem_kept.2 ⟨instruction, hmem, hreturned⟩)]

/-- A routine that is read mirrors the written one, apart from its calls. -/
theorem Reads.mirrors {naming : Naming} (hnumbered : naming.Numbered) {entry : Listed}
    {image : Routine} (h : naming.Reads entry image)
    (hsettled : (naming.keepResults entry.routine).Settled entry.program entry.routine)
    (hkept : naming.style ≠ .verbose → ∀ instruction ∈ entry.routine.code,
      ∀ typed ∈ instruction.returnedNames, ¬LooksGenerated 'V' (Polyname.base typed)) :
    entry.routine.Mirrors (naming.namesOf entry) image where
  toIsRenamed := h.renamed
  apart _ hfirst _ hsecond heq := by
    refine variableName_inj (hnumbered.keepResults entry.routine) (fun hstyle name hname => ?_)
      (hsettled.variableName hfirst) (hsettled.variableName hsecond) heq
    obtain ⟨instruction, hmem, typed, htyped, rfl⟩ := mem_kept.1 hname
    exact hkept hstyle instruction hmem typed htyped
  returned instruction hmem typed htyped := by
    have hname : Polyname.base typed ∈ (naming.keepResults entry.routine).kept :=
      mem_kept.2 ⟨instruction, hmem, typed, htyped, rfl⟩
    change ((naming.keepResults entry.routine).variableName (Polyname.base typed)).1 = _
    rw [variableName_of_mem_kept hname]

/-! ## Calls -/

/-- The routines that are read for the routines of modules. -/
def images (naming : Naming) (programs : List Program) (reread : Program) : Images :=
  fun home routine image => home ∈ programs ∧ routine ∈ home.routines ∧
    image ∈ reread.routines ∧ naming.Reads (naming.entry home routine) image

/-- A called name stands for a builtin, or is written under the name of the routine that it
enters, which is not read as the name of a builtin. -/
def WritesCall (naming : Naming) (programs : List Program) (home : Program) (name : String) :
    Prop :=
  (∃ builtin, home.resolve? name = some (.builtin builtin)) ∨
    ∃ other callee, home.callee? name = some (other, callee) ∧ other ∈ programs ∧
      (naming.routineName home name).1 = (naming.entry other callee).name ∧
      ¬BuiltinTable.standard.contains (unmarked (naming.entry other callee).name)

/-- The place to start is read as it was written. -/
structure WritesEntry (naming : Naming) (programs : List Program) (program : Program) : Prop where
  only : ∀ home ∈ programs, ∀ routine ∈ home.routines, routine.kind = .entrypoint →
    home = program ∧ program.entrypoint? = some routine
  name : ∀ entry, program.entrypoint? = some entry →
    unmarked (naming.entry program entry).name = entry.name
  fallback : ∀ home ∈ programs, ∀ routine ∈ home.routines,
    unmarked (naming.entry home routine).name ∈ Program.entrypointNames →
      home = program ∧ unmarked (naming.entry home routine).name = routine.name

/-- The routines of all modules behind a program are written under words that are read as
distinct names, and so that what they call, and the place to start, is found again.
Returned variables do not look like generated ones. -/
structure WritesAll (naming : Naming) (program : Program) : Prop where
  builtins : ∀ home ∈ program.collect [], home.builtins = BuiltinTable.standard
  legible : ∀ home ∈ program.collect [], ∀ routine ∈ home.routines, routine.Legible
  words : ∀ home ∈ program.collect [], ∀ routine ∈ home.routines,
    Token.IsWord (naming.entry home routine).name
  distinct :
    ((naming.entries (program.collect [])).map fun entry => unmarked entry.name).Nodup
  kept : naming.style ≠ .verbose → ∀ home ∈ program.collect [], ∀ routine ∈ home.routines,
    ∀ instruction ∈ routine.code, ∀ typed ∈ instruction.returnedNames,
      ¬LooksGenerated 'V' (Polyname.base typed)
  calls : ∀ home ∈ program.collect [], ∀ routine ∈ home.routines,
    ∀ instruction ∈ routine.code, ∀ name ∈ instruction.callName?,
      naming.WritesCall (program.collect []) home name
  entry : naming.WritesEntry (program.collect []) program

end Naming

namespace Naming.ReadsAll

variable {naming : Naming} {programs : List Program} {listed : List Listed} {reread : Program}

/-- Something is read for every routine. -/
theorem exists_image (h : naming.ReadsAll programs listed reread) {home : Program}
    {routine : Routine} (hhome : home ∈ programs) (hmem : routine ∈ home.routines) :
    ∃ image, naming.images programs reread home routine image := by
  have hentry : naming.entry home routine ∈ listed :=
    h.perm.mem_iff.2 (mem_entries.2 ⟨home, hhome, routine, hmem, rfl⟩)
  obtain ⟨i, hi, hget⟩ := List.getElem_of_mem hentry
  have hlength := h.routines.length_eq
  have himage := (List.forall₂_iff_get.1 h.routines).2 i hi (hlength ▸ hi)
  rw [List.get_eq_getElem, hget] at himage
  exact ⟨_, hhome, hmem, List.get_mem .., himage⟩

/-- Everything is read for some routine. -/
theorem exists_source (h : naming.ReadsAll programs listed reread) {image : Routine}
    (himage : image ∈ reread.routines) :
    ∃ home routine, naming.images programs reread home routine image := by
  obtain ⟨i, hi, rfl⟩ := List.getElem_of_mem himage
  have hlength := h.routines.length_eq
  have hreads := (List.forall₂_iff_get.1 h.routines).2 i (hlength ▸ hi) hi
  obtain ⟨home, hhome, routine, hmem, hentry⟩ :=
    mem_entries.1 (h.perm.mem_iff.1 (List.get_mem listed ⟨i, hlength ▸ hi⟩))
  rw [← hentry] at hreads
  exact ⟨home, routine, hhome, hmem, himage, hreads⟩

/-- Calls are read as calls of what they entered. -/
theorem callsAlike (h : naming.ReadsAll programs listed reread) {home : Program}
    (hbuiltins : home.builtins = BuiltinTable.standard) {name : String}
    (hname : naming.WritesCall programs home name) :
    home.CallsAlike (naming.images programs reread) reread name
      (unmarked (naming.routineName home name).1) := by
  rcases hname with ⟨builtin, hbuiltin⟩ | ⟨other, callee, hcallee, hother, hwritten, hplain⟩
  · have hget := Program.resolve?_builtin.1 hbuiltin
    have hcontains : home.builtins.contains name := by simp [BuiltinTable.contains, hget]
    have hunmarked := unmarked_of_head (BuiltinTable.isWord_of_contains (hbuiltins ▸ hcontains)).2
    rw [routineName_builtin hcontains, hunmarked]
    refine ⟨fun other hother => ?_, fun other callee hcallee => ?_, fun hnone => ?_⟩
    · obtain rfl : builtin = other := by simpa [hbuiltin] using hother
      rw [Program.resolve?_builtin, h.builtins, ← hbuiltins]
      exact hget
    · simp [Program.callee?, hbuiltin] at hcallee
    · simp [hbuiltin] at hnone
  · have hresolve : home.resolve? name ≠ none ∧
        ∀ builtin, home.resolve? name ≠ some (.builtin builtin) := by
      unfold Program.callee? at hcallee
      split at hcallee <;> simp_all
    refine ⟨fun builtin hbuiltin => absurd hbuiltin (hresolve.2 builtin), ?_,
      fun hnone => absurd hnone hresolve.1⟩
    intro other' callee' hcallee'
    obtain ⟨rfl, rfl⟩ := Prod.mk.inj (Option.some.inj (hcallee.symm.trans hcallee'))
    obtain ⟨image, himage⟩ := h.exists_image hother (Program.owns_of_callee? hcallee).mem
    refine ⟨image, himage, ?_⟩
    rw [hwritten, ← himage.2.2.2.name]
    refine Program.resolve?_of_mem himage.2.2.1 ?_
    rw [h.builtins, himage.2.2.2.name]
    exact hplain

/-! ## The place to start -/

/-- Where one program finds the first of some names, another one that lacks the names
before it finds it too. -/
theorem findSome?_routine? {program : Program} {names : List String}
    (hnames : ∀ name ∈ names, program.routine? name = none → reread.routine? name = none)
    {entry image : Routine} (hentry : names.findSome? program.routine? = some entry)
    (himage : reread.routine? entry.name = some image) :
    names.findSome? reread.routine? = some image := by
  induction names with
  | nil => simp at hentry
  | cons name rest ih =>
    rw [List.forall_mem_cons] at hnames
    rw [List.findSome?_cons] at hentry ⊢
    cases hroutine : program.routine? name with
    | some routine =>
      obtain rfl : routine = entry := by simpa [hroutine] using hentry
      rw [← (Program.mem_of_routine? hroutine).2, himage]
    | none =>
      rw [hnames.1 hroutine]
      exact ih hnames.2 (by simpa [hroutine] using hentry)

/-- What is read starts with the image of what starts the written program. -/
theorem entrypoint? (h : naming.ReadsAll programs listed reread) {program : Program}
    (hprogram : program ∈ programs) (hentry : naming.WritesEntry programs program) :
    (∀ entry, program.entrypoint? = some entry →
      ∃ image, naming.images programs reread program entry image ∧
        reread.entrypoint? = some image) ∧
    (program.entrypoint? = none → reread.entrypoint? = none) := by
  cases hmarked : reread.routines.find? (·.kind = .entrypoint) with
  | some image =>
    obtain ⟨home, routine, hhome, hmem, himage, hreads⟩ :=
      h.exists_source (List.mem_of_find?_eq_some hmarked)
    have hkind : image.kind = .entrypoint := by simpa using List.find?_some hmarked
    obtain ⟨rfl, hroutine⟩ := hentry.only home hhome routine hmem
      (hreads.renamed.kind.symm.trans hkind)
    have hreread : reread.entrypoint? = some image := by
      rw [Program.entrypoint?, hmarked]
    rw [hroutine]
    refine ⟨fun entry heq => ?_, by simp⟩
    obtain rfl := Option.some.inj heq
    exact ⟨image, ⟨hhome, hmem, himage, hreads⟩, hreread⟩
  | none =>
    have hplain : program.routines.find? (·.kind = .entrypoint) = none := by
      rw [List.find?_eq_none] at hmarked ⊢
      intro routine hmem hkind
      obtain ⟨image, -, -, himage, hreads⟩ := h.exists_image hprogram hmem
      exact hmarked image himage (by rw [hreads.renamed.kind]; exact hkind)
    have hsource : program.entrypoint? =
        Program.entrypointNames.findSome? program.routine? := by
      rw [Program.entrypoint?, hplain]
    have htarget : reread.entrypoint? = Program.entrypointNames.findSome? reread.routine? := by
      rw [Program.entrypoint?, hmarked]
    have hnames : ∀ name ∈ Program.entrypointNames, program.routine? name = none →
        reread.routine? name = none := by
      intro name hname hnone
      by_contra hsome
      obtain ⟨image, hfound⟩ := Option.ne_none_iff_exists'.1 hsome
      obtain ⟨himage, rfl⟩ := Program.mem_of_routine? hfound
      obtain ⟨home, routine, hhome, hmem, -, hreads⟩ := h.exists_source himage
      rw [hreads.name] at hname hnone
      obtain ⟨rfl, hown⟩ := hentry.fallback home hhome routine hmem hname
      rw [hown, Program.routine?_of_mem hmem] at hnone
      cases hnone
    constructor
    · intro entry heq
      obtain ⟨image, himage⟩ := h.exists_image hprogram (Program.mem_of_entrypoint? heq)
      have hfound : reread.routine? entry.name = some image := by
        rw [← hentry.name entry heq, ← himage.2.2.2.name]
        exact Program.routine?_of_mem himage.2.2.1
      refine ⟨image, himage, ?_⟩
      rw [htarget]
      exact findSome?_routine? hnames (hsource.symm.trans heq) hfound
    · intro hnone
      rw [hsource, List.findSome?_eq_none_iff] at hnone
      rw [htarget, List.findSome?_eq_none_iff]
      exact fun name hname => hnames name hname (hnone name hname)

/-- The program that is read mirrors the written one. -/
theorem mirrors {program : Program} (h : naming.ReadsAll (program.collect []) listed reread)
    (hprogram : program ∈ program.collect []) (hwrites : naming.WritesAll program) :
    Program.Mirrors (naming.images (program.collect []) reread) program reread where
  image home routine image himage := by
    obtain ⟨hhome, hmem, himage, hreads⟩ := himage
    have hlisted : naming.entry home routine ∈ listed :=
      h.perm.mem_iff.2 (mem_entries.2 ⟨home, hhome, routine, hmem, rfl⟩)
    refine ⟨naming.namesOf (naming.entry home routine), ?_, ?_⟩
    · exact hreads.mirrors h.numbered (h.settled _ hlisted)
        fun hstyle => hwrites.kept hstyle home hhome routine hmem
    · intro instruction hinstruction name hname
      change home.CallsAlike _ reread name
        (unmarked ((naming.keepResults routine).routineName home name).1)
      rw [routineName_keepResults]
      exact h.callsAlike (hwrites.builtins home hhome)
        (hwrites.calls home hhome routine hmem instruction hinstruction name hname)
  entry := (h.entrypoint? hprogram hwrites.entry).1
  noEntry := (h.entrypoint? hprogram hwrites.entry).2

end Naming.ReadsAll

namespace Naming

/-- Calls are written with words. -/
theorem WritesCall.isWord {naming : Naming} {programs : List Program} {home : Program}
    {name : String} (h : naming.WritesCall programs home name)
    (hbuiltins : home.builtins = BuiltinTable.standard)
    (hwords : ∀ other ∈ programs, ∀ callee ∈ other.routines,
      Token.IsWord (naming.entry other callee).name) :
    Token.IsWord (naming.routineName home name).1 := by
  rcases h with ⟨builtin, hbuiltin⟩ | ⟨other, callee, hcallee, hother, hwritten, -⟩
  · have hcontains : home.builtins.contains name := by
      simp [BuiltinTable.contains, Program.resolve?_builtin.1 hbuiltin]
    rw [routineName_builtin hcontains]
    exact (BuiltinTable.isWord_of_contains (hbuiltins ▸ hcontains)).1
  · rw [hwritten]
    exact hwords other hother callee (Program.owns_of_callee? hcallee).mem

/-- A written object is read if the names in it are words, those of its routines are read as
distinct ones, and its calls are written under the names of what they enter. -/
theorem EndsSession.exists_readsAll {program : Program} {style : Style} {final : Naming}
    (h : EndsSession program style final)
    (hbuiltins : ∀ home ∈ program.collect [], home.builtins = BuiltinTable.standard)
    (hlegible : ∀ home ∈ program.collect [], ∀ routine ∈ home.routines, routine.Legible)
    (hwords : ∀ home ∈ program.collect [], ∀ routine ∈ home.routines,
      Token.IsWord (final.entry home routine).name)
    (hdistinct :
      ((final.entries (program.collect [])).map fun entry => unmarked entry.name).Nodup)
    (hcalls : ∀ home ∈ program.collect [], ∀ routine ∈ home.routines,
      ∀ instruction ∈ routine.code, ∀ name ∈ instruction.callName?,
        final.WritesCall (program.collect []) home name) :
    ∃ reread listed, readObject (writeObject program style) = .ok reread ∧
      final.ReadsAll (program.collect []) listed reread := by
  refine h.readsAll (fun entry hentry => ?_) hdistinct
  obtain ⟨home, hhome, routine, hmem, rfl⟩ := mem_entries.1 hentry
  have hroutine := hlegible home hhome routine hmem
  exact ⟨hwords home hhome routine hmem, hroutine.params, hroutine.code,
    fun instruction hinstruction name hname =>
      (hcalls home hhome routine hmem instruction hinstruction name hname).isWord
        (hbuiltins home hhome) hwords⟩

/-- What is read for a written program runs like it, with any number of steps. -/
theorem EndsSession.exists_alike {program : Program} {style : Style} {final : Naming}
    (h : EndsSession program style final) (hprogram : program ∈ program.collect [])
    (hwrites : final.WritesAll program) :
    ∃ reread, readObject (writeObject program style) = .ok reread ∧
      ∀ board stepLimit fuel,
        let ended := (Machine.new program board stepLimit).execute fuel
        let endedReread := (Machine.new reread board stepLimit).execute fuel
        ended.2.Alike endedReread.2 ∧ endedReread.1.board = ended.1.board ∧
          endedReread.1.steps = ended.1.steps := by
  obtain ⟨reread, listed, hread, hreads⟩ := h.exists_readsAll hwrites.builtins
    hwrites.legible hwrites.words hwrites.distinct hwrites.calls
  refine ⟨reread, hread, fun board stepLimit fuel => ?_⟩
  obtain ⟨hmachine, houtcome⟩ := (hreads.mirrors hprogram hwrites).execute board stepLimit fuel
  exact ⟨houtcome, hmachine.board, hmachine.steps⟩

end Naming
end Gobstones
