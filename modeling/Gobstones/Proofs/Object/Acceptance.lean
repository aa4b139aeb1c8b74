import Gobstones.Check.Basic
import Gobstones.Proofs.Check.Renaming
import Gobstones.Proofs.Object.Compact
import Gobstones.Proofs.Object.Flattening
/-!
# Accepted objects

This module shows when what is read for a written program is accepted, given that all
modules behind the program are.  Everything but the place to start stays as it should be:
calls, transactions and stack depths do not depend on names or modules.  But every accepted
module has a place to start of its own, an object has only one, and variables are returned
from there alone.

Main definitions:

- {lit}`Program.StartsAt`: where an object of all modules behind a program starts.
- {lit}`Program.StartsOnce`: the modules behind a program bring no other place to start.

Main results:

- Theorem {lit}`Program.accepted_iff`: what acceptance means.
- Theorem {lit}`Program.Joinable.exists_rereads`: what is written for accepted modules is read.
- Theorem {lit}`Program.accepted_reread_iff`: what is read is accepted exactly if the program
  starts once.
- Theorem {lit}`Program.not_accepted_reread_relay`: a linked module with a marked routine is
  read as the place to start.
-/

namespace Gobstones
namespace Program

/-! ## Acceptance -/

/-- A program has one place to start if there is one and no two routines are marked. -/
theorem entryProblems_eq_nil_iff {program : Program} :
    program.entryProblems = [] ↔ (∃ entry, program.entrypoint? = some entry) ∧
      ∀ first ∈ program.routines, ∀ second ∈ program.routines,
        first.kind = .entrypoint → second.kind = .entrypoint → first = second := by
  constructor
  · intro h
    refine ⟨isSome_entrypoint? h, fun first hfirst second hsecond hkind hkind' => ?_⟩
    exact Option.some.inj ((entrypoint?_of_kind h hfirst hkind).symm.trans
      (entrypoint?_of_kind h hsecond hkind'))
  · rintro ⟨⟨entry, hentry⟩, hmarked⟩
    have hnodup := (List.Nodup.of_map _ program.distinct).filter
      (fun routine => decide (routine.kind = .entrypoint))
    have hkind {routine : Routine}
        (h : routine ∈ program.routines.filter (·.kind = .entrypoint)) :
        routine ∈ program.routines ∧ routine.kind = .entrypoint := by
      simpa using h
    unfold entryProblems
    cases hfilter : program.routines.filter (·.kind = .entrypoint) with
    | nil => simp [hentry]
    | cons first rest =>
      cases rest with
      | nil => rfl
      | cons second rest =>
        rw [hfilter] at hnodup hkind
        obtain ⟨hfirst, hfirstKind⟩ := hkind (List.mem_cons_self : first ∈ first :: second :: rest)
        obtain ⟨hsecond, hsecondKind⟩ := hkind (List.mem_cons_of_mem first List.mem_cons_self)
        have heq := hmarked first hfirst second hsecond hfirstKind hsecondKind
        simp [heq] at hnodup

/-- A program is accepted if it has one place to start, its calls and returns of variables
are sound, its transactions lie where they should, and its paths are balanced. -/
theorem accepted_iff {program : Program} :
    program.Accepted ↔ program.entryProblems = [] ∧ program.callProblems = [] ∧
      (∀ routine ∈ program.routines, routine.Bracketed) ∧
      ∀ routine ∈ program.routines, program.PathsBalanced routine := by
  have hbrackets : program.bracketProblems = [] ↔
      ∀ routine ∈ program.routines, routine.Bracketed := by
    simp only [bracketProblems, List.flatMap_eq_nil_iff, Routine.bracketProblems_eq_nil_iff]
  have hdepths : program.depthProblems = [] ↔
      ∀ routine ∈ program.routines, program.PathsBalanced routine := by
    simp only [depthProblems, List.flatMap_eq_nil_iff]
    exact forall₂_congr fun routine _ =>
      ⟨pathsBalanced_of_depthProblems, PathsBalanced.depthProblemsOf_eq_nil⟩
  rw [← hbrackets, ← hdepths, Accepted, problems]
  simp only [List.append_eq_nil_iff, List.isEmpty_iff]
  constructor
  · rintro ⟨⟨⟨hentry, hcalls⟩, hbrackets⟩, hdepths⟩
    rw [if_pos hcalls] at hdepths
    exact ⟨hentry, hcalls, hbrackets, hdepths⟩
  · rintro ⟨hentry, hcalls, hbrackets, hdepths⟩
    rw [if_pos hcalls]
    exact ⟨⟨⟨hentry, hcalls⟩, hbrackets⟩, hdepths⟩

section

variable {home : Program} {routine : Routine} {instruction : Instruction}

theorem Accepted.callSound (h : home.Accepted) (hmem : routine ∈ home.routines)
    (hinstruction : instruction ∈ routine.code) : home.CallSound routine.name instruction := by
  obtain ⟨-, hcalls, -⟩ := accepted_iff.1 h
  exact callProblems_eq_nil_iff.1 hcalls routine hmem instruction hinstruction

/-- Every call of an accepted program has something to enter. -/
theorem Accepted.exists_resolve? (h : home.Accepted) (hmem : routine ∈ home.routines)
    (hinstruction : instruction ∈ routine.code) {name : String}
    (hname : name ∈ instruction.callName?) : ∃ callee, home.resolve? name = some callee := by
  have hsound := h.callSound hmem hinstruction
  cases instruction with
  | call called argc =>
    obtain rfl : called = name := by simpa [Instruction.callName?] using hname
    obtain ⟨callee, hcallee, -⟩ := hsound
    exact ⟨callee, hcallee⟩
  | _ => cases hname

end

end Program

/-! ## Places to start -/

/-- A routine returns variables somewhere. -/
def Routine.ReturnsVars (routine : Routine) : Prop :=
  ∃ n vars, .returnVars n vars ∈ routine.code

namespace Program

/-- Where an object of all modules behind a program starts: at a routine that is marked, or
where the program does if no routine is. -/
def StartsAt (program home : Program) (routine : Routine) : Prop :=
  routine.kind = .entrypoint ∨
    (∀ other callee, program.Owns other callee → callee.kind ≠ .entrypoint) ∧
      home = program ∧ program.entrypoint? = some routine

/-- The modules behind a program bring no second place to start: one routine at most is
marked, and variables are returned only where an object of all modules starts. -/
structure StartsOnce (program : Program) : Prop where
  marked : ∀ home routine other callee, program.Owns home routine → program.Owns other callee →
    routine.kind = .entrypoint → callee.kind = .entrypoint → home = other ∧ routine = callee
  results : ∀ home routine, program.Owns home routine → routine.ReturnsVars →
    program.StartsAt home routine

end Program

/-! ## Images -/

/-- Names that stand for the same builtin, or for a routine and its image, take and leave as
many values. -/
theorem Program.CallsAlike.agree {images : Images} {home target : Program} {name newName : String}
    (h : home.CallsAlike images target name newName)
    (himages : ∀ other callee image, images other callee image →
      ∃ names, callee.IsRenamed names image)
    {callee : CallTarget} (hcallee : home.resolve? name = some callee) :
    ∃ other, target.resolve? newName = some other ∧ other.arity = callee.arity ∧
      other.resultCount = callee.resultCount := by
  have hroutine {other : Program} {routine : Routine}
      (hfound : home.callee? name = some (other, routine)) :
      ∃ other, target.resolve? newName = some other ∧ other.arity = routine.arity ∧
        other.resultCount = routine.resultCount := by
    obtain ⟨image, himage, hresolve⟩ := h.routine other routine hfound
    obtain ⟨names, hrenamed⟩ := himages other routine image himage
    exact ⟨_, hresolve, hrenamed.arity, hrenamed.resultCount⟩
  cases callee with
  | builtin builtin => exact ⟨_, h.builtin builtin hcallee, rfl, rfl⟩
  | own routine => exact hroutine (by rw [Program.callee?, hcallee])
  | external other routine => exact hroutine (by rw [Program.callee?, hcallee])

theorem Routine.IsRenamed.returnVars_mem_iff {names : Renaming} {routine image : Routine}
    (h : routine.IsRenamed names image) {n : Nat} {vars : List String} :
    .returnVars n vars ∈ image.code ↔ .returnVars n vars ∈ routine.code := by
  simp only [Array.mem_iff_getElem?, h.getElem?_eq_some_iff (.inr (.inr (.inr ⟨n, vars, rfl⟩)))]

namespace Naming

/-- What is read for the routines of all modules behind a program. -/
abbrev imagesOf (naming : Naming) (program reread : Program) : Images :=
  naming.images (program.collect []) reread

section

variable {final : Naming} {program reread home : Program} {routine image : Routine}

/-- One routine only is read for a routine. -/
theorem image_unique {other : Routine} (himage : final.imagesOf program reread home routine image)
    (hother : final.imagesOf program reread home routine other) : image = other := by
  refine List.inj_on_of_nodup_map reread.distinct himage.2.2.1 hother.2.2.1 ?_
  rw [himage.2.2.2.name, hother.2.2.2.name]

variable (hnames : program.NamesModules)

include hnames

theorem owns_of_image (himage : final.imagesOf program reread home routine image) :
    program.Owns home routine :=
  ⟨(Program.mem_collect_iff hnames).1 himage.1, himage.2.1⟩

/-- A routine is read for one routine only. -/
theorem source_unique (hapart : final.WritesApart program) {other : Program} {callee : Routine}
    (hfirst : final.imagesOf program reread home routine image)
    (hsecond : final.imagesOf program reread other callee image) :
    home = other ∧ routine = callee := by
  refine hapart.apart home other (owns_of_image hnames hfirst).reaches
    (owns_of_image hnames hsecond).reaches routine hfirst.2.1 callee hsecond.2.1 ?_
  rw [← hfirst.2.2.2.name, ← hsecond.2.2.2.name]

end

/-! ## Checks of what is read -/

/-- What is read for a program, all modules behind which are accepted. -/
structure Rereads (final : Naming) (program : Program) (listed : List Listed)
    (reread : Program) : Prop extends final.ReadsAll (program.collect []) listed reread where
  joinable : program.Joinable
  accepted : ∀ home, program.Reaches home → home.Accepted
  apart : final.WritesApart program

namespace Rereads

variable {final : Naming} {program reread : Program} {listed : List Listed}
  (h : final.Rereads program listed reread)

include h

theorem exists_image {home : Program} {routine : Routine} (howns : program.Owns home routine) :
    ∃ image, final.imagesOf program reread home routine image :=
  h.toReadsAll.exists_image ((Program.mem_collect_iff h.joinable.names).2 howns.reaches) howns.mem

/-- Calls take and leave as many values as what they are read as. -/
theorem callsAgree {home : Program} {routine : Routine} (howns : program.Owns home routine) :
    home.CallsAgree reread (final.namesOf (final.entry home routine)) routine := by
  intro instruction hmem name hname
  obtain ⟨callee, hcallee⟩ :=
    (h.accepted home howns.reaches).exists_resolve? howns.mem hmem hname
  have hwrites := h.apart.writesCall h.joinable.names howns.reaches
    (by simp [hcallee] : home.resolve? name ≠ none)
  have halike := h.callsAlike (h.joinable.builtins home howns.reaches) hwrites
  obtain ⟨other, hother, hagree⟩ :=
    halike.agree (fun _ _ _ himage => ⟨_, himage.2.2.2.renamed⟩) hcallee
  refine ⟨callee, other, hcallee, ?_, hagree⟩
  change reread.resolve? (unmarked ((final.keepResults routine).routineName home name).1) =
    some other
  rw [routineName_keepResults]
  exact hother

/-- Transactions and paths are as they should be, wherever the program starts. -/
theorem bracketed_pathsBalanced {image : Routine} (himage : image ∈ reread.routines) :
    image.Bracketed ∧ reread.PathsBalanced image := by
  obtain ⟨home, routine, hsource⟩ := h.exists_source himage
  have howns := owns_of_image h.joinable.names hsource
  obtain ⟨-, -, hbracketed, hbalanced⟩ :=
    Program.accepted_iff.1 (h.accepted home howns.reaches)
  have hrenamed := hsource.2.2.2.renamed
  exact ⟨(hbracketed routine howns.mem).renamed hrenamed,
    (hbalanced routine howns.mem).renamed hrenamed (h.callsAgree howns)⟩

/-- The calls that are read are sound, and returns of variables are if they lie where the
program that is read starts. -/
theorem callProblems_eq_nil_iff :
    reread.callProblems = [] ↔
      ∀ home routine image, final.imagesOf program reread home routine image →
        routine.ReturnsVars → reread.entrypoint? = some image := by
  rw [Program.callProblems_eq_nil_iff]
  constructor
  · rintro hsound home routine image himage ⟨n, vars, hmem⟩
    have hmem : .returnVars n vars ∈ image.code :=
      himage.2.2.2.renamed.returnVars_mem_iff.2 hmem
    obtain ⟨⟨entry, hentry, hname⟩, -⟩ := hsound image himage.2.2.1 _ hmem
    rw [hentry, List.inj_on_of_nodup_map reread.distinct (Program.mem_of_entrypoint? hentry)
      himage.2.2.1 hname]
  · intro hresults image hmem new hnew
    obtain ⟨home, routine, himage⟩ := h.exists_source hmem
    have howns := owns_of_image h.joinable.names himage
    have hrenamed := himage.2.2.2.renamed
    obtain ⟨p, hp⟩ := Array.mem_iff_getElem?.1 hnew
    obtain ⟨instruction, hinstruction, rfl⟩ := hrenamed.exists_of_getElem? hp
    have hmem := Array.mem_of_getElem? hinstruction
    have hsound := (h.accepted home howns.reaches).callSound howns.mem hmem
    cases instruction with
    | call name argc =>
      obtain ⟨callee, hcallee, harity⟩ := hsound
      obtain ⟨callee', other, hcallee', hother, hagree, -⟩ := h.callsAgree howns _ hmem name rfl
      obtain rfl := Option.some.inj (hcallee.symm.trans hcallee')
      exact ⟨other, hother, hagree.trans harity⟩
    | returnVars n vars =>
      exact ⟨⟨image, hresults home routine image himage ⟨n, vars, hmem⟩, rfl⟩, hsound.2⟩
    | _ => trivial

/-- If no routine is marked, what is read starts where the program does. -/
theorem entrypoint?_of_unmarked
    (hplain : ∀ home routine, program.Owns home routine → routine.kind ≠ .entrypoint) :
    ∃ entry image, program.entrypoint? = some entry ∧
      final.imagesOf program reread program entry image ∧ reread.entrypoint? = some image := by
  have hnames := h.joinable.names
  obtain ⟨hentry, -⟩ := Program.accepted_iff.1 (h.accepted program .refl)
  obtain ⟨entry, hentry⟩ := Program.isSome_entrypoint? hentry
  have hwrites := h.apart.writesEntry hnames fun home hhome routine hmem hkind =>
    absurd hkind (hplain home routine ⟨hhome, hmem⟩)
  obtain ⟨image, himage, hfound⟩ :=
    (h.entrypoint? ((Program.mem_collect_iff hnames).2 .refl) hwrites).1 entry hentry
  exact ⟨entry, image, hentry, himage, hfound⟩

/-- What is read has one place to start if one routine at most is marked in all modules. -/
theorem entryProblems_eq_nil_iff :
    reread.entryProblems = [] ↔ ∀ home routine other callee, program.Owns home routine →
      program.Owns other callee → routine.kind = .entrypoint → callee.kind = .entrypoint →
        home = other ∧ routine = callee := by
  rw [Program.entryProblems_eq_nil_iff]
  constructor
  · rintro ⟨-, hmarked⟩ home routine other callee hroutine hcallee hkind hkind'
    obtain ⟨image, himage⟩ := h.exists_image hroutine
    obtain ⟨image', himage'⟩ := h.exists_image hcallee
    have hsame := hmarked image himage.2.2.1 image' himage'.2.2.1
      (himage.2.2.2.renamed.kind.trans hkind) (himage'.2.2.2.renamed.kind.trans hkind')
    exact source_unique h.joinable.names h.apart himage (hsame ▸ himage')
  · intro hmarked
    constructor
    · by_cases hplain : ∀ home routine, program.Owns home routine → routine.kind ≠ .entrypoint
      · obtain ⟨-, image, -, -, hfound⟩ := h.entrypoint?_of_unmarked hplain
        exact ⟨image, hfound⟩
      · push Not at hplain
        obtain ⟨home, routine, howns, hkind⟩ := hplain
        obtain ⟨image, himage⟩ := h.exists_image howns
        obtain ⟨entry, hentry, -⟩ := Program.exists_entrypoint?_of_kind himage.2.2.1
          (himage.2.2.2.renamed.kind.trans hkind)
        exact ⟨entry, hentry⟩
    · intro first hfirst second hsecond hkind hkind'
      obtain ⟨home, routine, himage⟩ := h.exists_source hfirst
      obtain ⟨other, callee, himage'⟩ := h.exists_source hsecond
      obtain ⟨rfl, rfl⟩ := hmarked home routine other callee
        (owns_of_image h.joinable.names himage) (owns_of_image h.joinable.names himage')
        (himage.2.2.2.renamed.kind.symm.trans hkind)
        (himage'.2.2.2.renamed.kind.symm.trans hkind')
      exact image_unique himage himage'

/-- What is read starts at the image of a routine where an object of all modules does. -/
theorem entrypoint?_iff_startsAt (hentry : reread.entryProblems = []) {home : Program}
    {routine image : Routine} (himage : final.imagesOf program reread home routine image) :
    reread.entrypoint? = some image ↔ program.StartsAt home routine := by
  have hnames := h.joinable.names
  constructor
  · intro hfound
    by_cases hkind : routine.kind = .entrypoint
    · exact .inl hkind
    have hplain : ∀ other callee, program.Owns other callee → callee.kind ≠ .entrypoint := by
      intro other callee howns hmarked
      obtain ⟨image', himage'⟩ := h.exists_image howns
      have hkind' : image'.kind = .entrypoint := himage'.2.2.2.renamed.kind.trans hmarked
      have hfound' := Program.entrypoint?_of_kind hentry himage'.2.2.1 hkind'
      obtain rfl := Option.some.inj (hfound.symm.trans hfound')
      exact hkind (himage.2.2.2.renamed.kind.symm.trans hkind')
    obtain ⟨entry, image', hstart, himage', hfound'⟩ := h.entrypoint?_of_unmarked hplain
    obtain rfl := Option.some.inj (hfound.symm.trans hfound')
    obtain ⟨rfl, rfl⟩ := source_unique hnames h.apart himage himage'
    exact .inr ⟨hplain, rfl, hstart⟩
  · rintro (hkind | ⟨hplain, rfl, hstart⟩)
    · exact Program.entrypoint?_of_kind hentry himage.2.2.1
        (himage.2.2.2.renamed.kind.trans hkind)
    · obtain ⟨entry, image', hstart', himage', hfound⟩ := h.entrypoint?_of_unmarked hplain
      obtain rfl := Option.some.inj (hstart.symm.trans hstart')
      rw [hfound, image_unique himage himage']

/-- What is read is accepted exactly if the program starts once. -/
theorem accepted_iff : reread.Accepted ↔ program.StartsOnce := by
  have hrest : (∀ image ∈ reread.routines, image.Bracketed) ∧
      ∀ image ∈ reread.routines, reread.PathsBalanced image :=
    ⟨fun _ himage => (h.bracketed_pathsBalanced himage).1,
      fun _ himage => (h.bracketed_pathsBalanced himage).2⟩
  rw [Program.accepted_iff, and_iff_left hrest, h.callProblems_eq_nil_iff]
  constructor
  · rintro ⟨hentry, hresults⟩
    refine ⟨h.entryProblems_eq_nil_iff.1 hentry, fun home routine howns hreturns => ?_⟩
    obtain ⟨image, himage⟩ := h.exists_image howns
    exact (h.entrypoint?_iff_startsAt hentry himage).1 (hresults home routine image himage hreturns)
  · rintro ⟨hmarked, hresults⟩
    have hentry := h.entryProblems_eq_nil_iff.2 hmarked
    refine ⟨hentry, fun home routine image himage hreturns => ?_⟩
    exact (h.entrypoint?_iff_startsAt hentry himage).2
      (hresults home routine (owns_of_image h.joinable.names himage) hreturns)

end Rereads
end Naming

namespace Program

/-- An object of accepted modules is read.  In compact style, the place where the program
starts must not look like a generated name. -/
theorem Joinable.exists_rereads {program : Program} (h : program.Joinable)
    (haccepted : ∀ home, program.Reaches home → home.Accepted) (style : Style)
    (hapart : style = .compact → ∀ entry, program.entrypoint? = some entry →
      ¬Naming.LooksGenerated 'R' entry.name) :
    ∃ final reread listed, readObject (writeObject program style) = .ok reread ∧
      Naming.Rereads final program listed reread := by
  obtain ⟨final, hfinal⟩ := Naming.exists_endsSession program style
  have hreaches {home : Program} (hhome : home ∈ program.collect []) : program.Reaches home :=
    (mem_collect_iff h.names).1 hhome
  have hwrites : final.WritesApart program := by
    refine h.writesApart hfinal fun hstyle routine hmem hkeeps => ?_
    obtain ⟨hentry, -⟩ := accepted_iff.1 (haccepted program .refl)
    rcases Keeps.cases hentry hmem (.inr hkeeps) with hbuiltin | hstart
    · rw [h.builtins program .refl] at hbuiltin
      exact absurd hbuiltin (h.routineName program .refl routine hmem).2
    · exact hapart hstyle routine hstart
  obtain ⟨reread, listed, hread, hreads⟩ := hfinal.exists_readsAll
    (fun home hhome => h.builtins home (hreaches hhome))
    (fun home hhome => h.legible home (hreaches hhome))
    (fun home hhome => hwrites.word home (hreaches hhome)) (hwrites.nodup h.names)
    (fun home hhome routine hmem instruction hinstruction name hname => by
      obtain ⟨callee, hcallee⟩ :=
        (haccepted home (hreaches hhome)).exists_resolve? hmem hinstruction hname
      exact hwrites.writesCall h.names (hreaches hhome) (by simp [hcallee]))
  exact ⟨final, reread, listed, hread,
    { toReadsAll := hreads, joinable := h, accepted := haccepted, apart := hwrites }⟩

/-- An object of accepted modules is read, and what is read is accepted exactly if no linked
module brings a place to start of its own.  In compact style, the place where the program
starts must not look like a generated name. -/
theorem accepted_reread_iff {program : Program} (h : program.Joinable)
    (haccepted : ∀ home, program.Reaches home → home.Accepted) (style : Style)
    (hapart : style = .compact → ∀ entry, program.entrypoint? = some entry →
      ¬Naming.LooksGenerated 'R' entry.name) :
    ∃ reread, readObject (writeObject program style) = .ok reread ∧
      (reread.Accepted ↔ program.StartsOnce) := by
  obtain ⟨final, reread, listed, hread, hrereads⟩ := h.exists_rereads haccepted style hapart
  exact ⟨reread, hread, hrereads.accepted_iff⟩

end Program

namespace Relay

/-- A procedure that does nothing. -/
def aid : Routine where
  kind := .procedure
  name := "Aid"
  params := []
  code := #[.ret 0]
  targets := #[none]
  resolved := rfl

/-- Where the library starts by itself. -/
def trial (kind : RoutineKind) : Routine where
  kind
  name := "program"
  params := []
  code := #[.ret 0]
  targets := #[none]
  resolved := rfl

/-- The module of the procedure. -/
def library (kind : RoutineKind) : Program where
  moduleName := "lib"
  routines := [aid, trial kind]
  builtins := BuiltinTable.standard
  links := []
  distinct := (by decide : ["Aid", "program"].Nodup)

/-- Call the library and return no variables.  The routine is not marked. -/
def main : Routine where
  kind := .procedure
  name := "Main"
  params := []
  code := #[.call "Aid" 0, .returnVars 0 []]
  targets := #[none, none]
  resolved := rfl

/-- The program, with the library behind it. -/
def program (kind : RoutineKind) : Program where
  moduleName := "main"
  routines := [main]
  builtins := BuiltinTable.standard
  links := [⟨"Aid", library kind, "Aid"⟩]
  distinct := by decide

variable {kind : RoutineKind}

theorem reaches {home : Program} (h : (program kind).Reaches home) :
    home = program kind ∨ home = library kind := by
  cases h with
  | refl => exact .inl rfl
  | link hlink h =>
    obtain rfl := List.mem_singleton.1 hlink
    exact .inr (h.eq_of_links rfl)

theorem joinable : (program kind).Joinable where
  names first second hfirst hsecond hname := by
    rcases reaches hfirst with rfl | rfl <;> rcases reaches hsecond with rfl | rfl
    any_goals rfl
    all_goals cases kind <;> exact absurd hname (by decide)
  builtins home h := by rcases reaches h with rfl | rfl <;> rfl
  moduleName home h := by rcases reaches h with rfl | rfl <;> cases kind <;> decide
  routineName home h := by rcases reaches h with rfl | rfl <;> cases kind <;> decide
  legible home h := by rcases reaches h with rfl | rfl <;> cases kind <;> decide

theorem accepted (hkind : kind ≠ .function) :
    ∀ home, (program kind).Reaches home → home.Accepted := by
  intro home h
  cases kind with
  | function => exact absurd rfl hkind
  | procedure | entrypoint => rcases reaches h with rfl | rfl <;> decide +kernel

/-- With an unmarked library, only the program starts. -/
theorem startsOnce : (program .procedure).StartsOnce := by
  have hplain : ∀ home routine, (program .procedure).Owns home routine →
      routine.kind = .procedure := by
    rintro home routine ⟨hreaches, hmem⟩
    rcases reaches hreaches with rfl | rfl <;> revert routine <;> decide
  refine ⟨fun home routine other callee howns _ hkind => ?_, fun home routine howns hreturns => ?_⟩
  · exact absurd (hkind.symm.trans (hplain home routine howns)) (by decide)
  · obtain ⟨hreaches, hmem⟩ := howns
    obtain ⟨n, vars, hinstruction⟩ := hreturns
    rcases reaches hreaches with rfl | rfl
    · obtain rfl := List.mem_singleton.1 hmem
      refine .inr ⟨fun other callee howns hkind => ?_, rfl, rfl⟩
      exact absurd (hkind.symm.trans (hplain other callee howns)) (by decide)
    · simp only [library, List.mem_cons, List.not_mem_nil, or_false] at hmem
      rcases hmem with rfl | rfl <;> simp [aid, trial] at hinstruction

/-- With a marked library, the program returns variables where an object of both modules does
not start. -/
theorem not_startsOnce : ¬(program .entrypoint).StartsOnce := by
  intro h
  have hmain : (program .entrypoint).Owns (program .entrypoint) main :=
    ⟨.refl, List.mem_singleton.2 rfl⟩
  have htrial : (program .entrypoint).Owns (library .entrypoint) (trial .entrypoint) :=
    ⟨.link List.mem_cons_self .refl, List.mem_cons_of_mem _ List.mem_cons_self⟩
  rcases h.results _ _ hmain ⟨0, [], by simp [main]⟩ with hkind | ⟨hplain, -⟩
  · cases hkind
  · exact hplain _ _ htrial rfl

end Relay

namespace Program

/-- With an unmarked library, what is read in either style is accepted. -/
theorem accepted_reread_relay :
    (Relay.program .procedure).StartsOnce ∧
      (∃ reread, readObject (writeObject (Relay.program .procedure) .verbose) = .ok reread ∧
        reread.Accepted) ∧
      ∃ reread, readObject (writeObject (Relay.program .procedure) .compact) = .ok reread ∧
        reread.Accepted := by
  have haccepted := Relay.accepted (by decide : RoutineKind.procedure ≠ .function)
  have hstart : ∀ entry, (Relay.program .procedure).entrypoint? = some entry →
      ¬Naming.LooksGenerated 'R' entry.name := by decide
  obtain ⟨verbose, hverbose, hiff⟩ :=
    accepted_reread_iff Relay.joinable haccepted .verbose (fun hstyle => by cases hstyle)
  obtain ⟨compact, hcompact, hiff'⟩ :=
    accepted_reread_iff Relay.joinable haccepted .compact (fun _ => hstart)
  exact ⟨Relay.startsOnce, ⟨verbose, hverbose, hiff.2 Relay.startsOnce⟩,
    compact, hcompact, hiff'.2 Relay.startsOnce⟩

/-- A marked routine of a library is read as the place to start.  The program itself, which
starts at a routine that is not marked, returns its variables elsewhere then. -/
theorem not_accepted_reread_relay :
    (Relay.program .entrypoint).Joinable ∧
      (∀ home, (Relay.program .entrypoint).Reaches home → home.Accepted) ∧
      ∀ style, ∃ reread, readObject (writeObject (Relay.program .entrypoint) style) = .ok reread ∧
        ¬reread.Accepted := by
  have haccepted := Relay.accepted (by decide : RoutineKind.entrypoint ≠ .function)
  have hstart : ∀ entry, (Relay.program .entrypoint).entrypoint? = some entry →
      ¬Naming.LooksGenerated 'R' entry.name := by decide
  refine ⟨Relay.joinable, haccepted, fun style => ?_⟩
  obtain ⟨final, reread, listed, hread, hrereads⟩ :=
    Relay.joinable.exists_rereads haccepted style (fun _ => hstart)
  exact ⟨reread, hread, fun h => Relay.not_startsOnce (hrereads.accepted_iff.1 h)⟩

end Program
end Gobstones
