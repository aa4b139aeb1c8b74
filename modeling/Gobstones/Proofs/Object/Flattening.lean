import Gobstones.Proofs.Object.Behaviour
import Gobstones.Proofs.Object.Modules
import Gobstones.Proofs.Object.Verbose
/-!
# Flattened modules

This module shows that the verbose text of linked modules behaves like them.  The routines
of all modules come to lie in one program, where those of other modules than the first
carry the names of their modules, and every call is written under the name of the routine
that it enters.

Main definitions:

- {lit}`Program.Joinable`: the names in the modules behind a program suit one object.
- {lit}`Program.Flattens`: the modules behind a program can be written into one.
- {lit}`Program.flatName`: the name of a routine among those of all modules.
- {lit}`Naming.WritesApart`: routines are written so that they are read apart.

Main results:

- Theorem {lit}`Program.Joinable.flatName_inj`: names of modules keep routines apart.
- Theorem {lit}`Program.Joinable.writesApart`: in both styles routines are read apart.
- Theorem {lit}`Program.execute_flattened`: linked modules run like the one program that is
  read from their verbose text.
-/

namespace Gobstones

/-- A word without dollar signs. -/
def Token.IsPlainWord (text : String) : Prop :=
  Token.IsWord text ∧ '$' ∉ text.toList

instance (text : String) : Decidable (Token.IsPlainWord text) :=
  inferInstanceAs (Decidable (_ ∧ _))

theorem Token.IsPlainWord.head {text : String} (h : Token.IsPlainWord text) :
    text.toList.head? ≠ some '$' :=
  fun heq => h.2 (List.mem_of_mem_head? heq)

/-- No builtin has a dollar sign in its name. -/
theorem BuiltinTable.dollar_not_mem_of_contains {name : String}
    (h : BuiltinTable.standard.contains name) : '$' ∉ name.toList := by
  have hall : ∀ builtin ∈ BuiltinTable.standard.entries, '$' ∉ builtin.name.toList := by
    decide +kernel
  obtain ⟨builtin, hbuiltin, rfl⟩ := BuiltinTable.exists_mem_of_contains h
  exact hall builtin hbuiltin

namespace Naming

/-- A call is written under the name of the routine that it enters. -/
theorem routineName_of_callee? {naming : Naming} {home other : Program} {name : String}
    {callee : Routine} (h : home.callee? name = some (other, callee)) :
    (naming.routineName home name).1 = (naming.entry other callee).name := by
  have hbuiltin := Program.not_contains_of_callee? h
  unfold Program.callee? at h
  split at h
  · next routine hresolve =>
    obtain ⟨rfl, rfl⟩ := Prod.mk.inj (Option.some.inj h)
    obtain ⟨-, rfl⟩ := Program.mem_of_routine? (Program.resolve?_own hresolve)
    rfl
  · next target routine hresolve =>
    obtain ⟨rfl, rfl⟩ := Prod.mk.inj (Option.some.inj h)
    obtain ⟨link, hlink, rfl, hroutine⟩ := Program.resolve?_external hresolve
    rw [routineName_link hbuiltin (Program.routine?_eq_none_of_external hresolve) hlink, entry,
      (Program.mem_of_routine? hroutine).2]
  · cases h

end Naming

namespace Program

/-- The names in the modules behind a program suit one object: those of modules and routines
are plain words, and no routine is named like a builtin. -/
structure Joinable (program : Program) : Prop where
  names : program.NamesModules
  builtins : ∀ home, program.Reaches home → home.builtins = BuiltinTable.standard
  moduleName : ∀ home, program.Reaches home → Token.IsPlainWord home.moduleName
  routineName : ∀ home, program.Reaches home → ∀ routine ∈ home.routines,
    Token.IsPlainWord routine.name ∧ ¬BuiltinTable.standard.contains routine.name
  legible : ∀ home, program.Reaches home → ∀ routine ∈ home.routines, routine.Legible

/-- The modules behind a program can be written into one that runs like them: their names suit
one object, every call resolves, and at most one routine is marked as the place to start, in the
program itself. -/
structure Flattens (program : Program) : Prop extends program.Joinable where
  calls : ∀ home, program.Reaches home → ∀ routine ∈ home.routines,
    ∀ instruction ∈ routine.code, ∀ name ∈ instruction.callName?, home.resolve? name ≠ none
  entry : ∀ home, program.Reaches home → ∀ routine ∈ home.routines, routine.kind = .entrypoint →
    home = program ∧ ∀ other ∈ home.routines, other.kind = .entrypoint → other = routine

/-! ## Names of all modules -/

/-- The name of a routine among those of all modules behind a program. -/
def flatName (program home : Program) (name : String) : String :=
  if home.moduleName = program.moduleName then name else home.moduleName ++ "$" ++ name

theorem flatName_root {program home : Program} (h : home.moduleName = program.moduleName)
    (name : String) : program.flatName home name = name :=
  if_pos h

/-- The name of a routine of another module than the first has a dollar sign in it. -/
theorem dollar_mem_flatName {program home : Program} (h : home.moduleName ≠ program.moduleName)
    (name : String) : '$' ∈ (program.flatName home name).toList := by
  rw [flatName, if_neg h]
  simp

section

variable {program : Program} (h : program.Joinable)

include h

/-- A routine that keeps its name is read under its name among those of all modules. -/
theorem Joinable.unmarked_entry {naming : Naming} (hroot : naming.root = program.moduleName)
    {home : Program} (hhome : program.Reaches home) {routine : Routine}
    (hmem : routine ∈ home.routines)
    (hkeeps : naming.style = .verbose ∨ Naming.keepsName home routine) :
    Token.IsWord (naming.entry home routine).name ∧
      unmarked (naming.entry home routine).name = program.flatName home routine.name := by
  have hbuiltin : ¬home.builtins.contains routine.name := by
    rw [h.builtins home hhome]
    exact (h.routineName home hhome routine hmem).2
  have hname : (naming.entry home routine).name =
      (if home.moduleName = program.moduleName then "" else home.moduleName) ++ "$" ++
        routine.name := by
    rw [Naming.entry, Naming.routineName_own hbuiltin (routine?_of_mem hmem), if_pos hkeeps,
      Naming.marked, hroot]
  obtain ⟨hmodule, -⟩ := h.moduleName home hhome
  have hroutine := (h.legible home hhome routine hmem).name
  rw [hname, flatName]
  split
  · rw [String.empty_append]
    exact ⟨Token.isWord_append (List.all_eq_true.1 (by decide)) hroutine, unmarked_dollar _⟩
  · have hhead : (home.moduleName ++ "$" ++ routine.name).toList.head? ≠ some '$' := by
      have hplain := (h.moduleName home hhome).head
      obtain ⟨c, cs, hcs⟩ := List.exists_cons_of_ne_nil hmodule.1
      simpa [hcs] using hplain
    refine ⟨Token.isWord_append (fun c hc => ?_) hroutine, unmarked_of_head hhead⟩
    rw [String.toList_append] at hc
    rcases List.mem_append.1 hc with hc | hc
    · exact hmodule.2 c hc
    · exact List.all_eq_true.1 (by decide) c hc

/-- Names of modules keep routines apart. -/
theorem Joinable.flatName_inj {first second : Program} (hfirst : program.Reaches first)
    (hsecond : program.Reaches second) {routine other : Routine} (hmem : routine ∈ first.routines)
    (hother : other ∈ second.routines)
    (heq : program.flatName first routine.name = program.flatName second other.name) :
    first = second ∧ routine = other := by
  have hplain := (h.routineName first hfirst routine hmem).1.2
  have hplain' := (h.routineName second hsecond other hother).1.2
  have hsame : first.moduleName = second.moduleName ∧ routine.name = other.name := by
    by_cases hroot : first.moduleName = program.moduleName <;>
      by_cases hroot' : second.moduleName = program.moduleName
    · rw [flatName_root hroot, flatName_root hroot'] at heq
      exact ⟨hroot.trans hroot'.symm, heq⟩
    · rw [flatName_root hroot] at heq
      exact absurd (heq ▸ dollar_mem_flatName hroot' other.name) hplain
    · rw [flatName_root hroot'] at heq
      exact absurd (heq ▸ dollar_mem_flatName hroot routine.name) hplain'
    · rw [flatName, if_neg hroot, flatName, if_neg hroot'] at heq
      have hchars : first.moduleName.toList ++ '$' :: routine.name.toList =
          second.moduleName.toList ++ '$' :: other.name.toList := by
        simpa using congrArg String.toList heq
      obtain ⟨hmodule, -, hname⟩ := (List.append_cons_inj_of_notMem
        (h.moduleName first hfirst).2 hplain).1 hchars
      exact ⟨String.toList_inj.1 hmodule, String.toList_inj.1 hname⟩
  obtain rfl := h.names first second hfirst hsecond hsame.1
  exact ⟨rfl, List.inj_on_of_nodup_map first.distinct hmem hother hsame.2⟩

/-- No routine is read under the name of a builtin. -/
theorem Joinable.not_contains_flatName {home : Program} (hhome : program.Reaches home)
    {routine : Routine} (hmem : routine ∈ home.routines) :
    ¬BuiltinTable.standard.contains (program.flatName home routine.name) := by
  by_cases hroot : home.moduleName = program.moduleName
  · rw [flatName_root hroot]
    exact (h.routineName home hhome routine hmem).2
  · intro hcontains
    exact BuiltinTable.dollar_not_mem_of_contains hcontains (dollar_mem_flatName hroot _)

end

end Program

/-! ## Written names -/

/-- The routines of all modules behind a program are written as words that are read as
distinct names, none of them that of a builtin.  The place to start keeps its name, and no
other routine gets one that could be taken for it. -/
structure Naming.WritesApart (naming : Naming) (program : Program) : Prop where
  word : ∀ home, program.Reaches home → ∀ routine ∈ home.routines,
    Token.IsWord (naming.entry home routine).name
  plain : ∀ home, program.Reaches home → ∀ routine ∈ home.routines,
    ¬BuiltinTable.standard.contains (unmarked (naming.entry home routine).name)
  apart : ∀ first second, program.Reaches first → program.Reaches second →
    ∀ routine ∈ first.routines, ∀ other ∈ second.routines,
      unmarked (naming.entry first routine).name = unmarked (naming.entry second other).name →
        first = second ∧ routine = other
  start : ∀ entry, program.entrypoint? = some entry →
    unmarked (naming.entry program entry).name = entry.name
  fallback : ∀ home, program.Reaches home → ∀ routine ∈ home.routines,
    unmarked (naming.entry home routine).name ∈ Program.entrypointNames →
      home = program ∧ unmarked (naming.entry home routine).name = routine.name

namespace Program

section

variable {program : Program} (h : program.Joinable) {style : Style} {final : Naming}
  (hfinal : Naming.EndsSession program style final)

include h hfinal

/-- A routine is read under its name among those of all modules if it keeps it, and else under
the name that was generated for it. -/
theorem Joinable.entry_cases {home : Program} (hhome : program.Reaches home) {routine : Routine}
    (hmem : routine ∈ home.routines) :
    Token.IsWord (final.entry home routine).name ∧
      ((style = .verbose ∨ Naming.keepsName home routine) ∧
          unmarked (final.entry home routine).name = program.flatName home routine.name ∨
        style = .compact ∧ Naming.LooksGenerated 'R' (unmarked (final.entry home routine).name) ∧
          final.routines.lookup (home.moduleName, routine.name) =
            some (unmarked (final.entry home routine).name)) := by
  by_cases hkeeps : style = .verbose ∨ Naming.keepsName home routine
  · obtain ⟨hword, hname⟩ := h.unmarked_entry hfinal.root hhome hmem (hfinal.style.symm ▸ hkeeps)
    exact ⟨hword, .inl ⟨hkeeps, hname⟩⟩
  · rw [not_or] at hkeeps
    obtain ⟨hstyle, hkeeps⟩ := hkeeps
    obtain rfl : style = .compact := by cases style <;> simp_all
    have hbuiltin : ¬home.builtins.contains routine.name := by
      rw [h.builtins home hhome]
      exact (h.routineName home hhome routine hmem).2
    obtain ⟨hword, hname, hgenerated⟩ :=
      hfinal.generated_entry ((mem_collect_iff h.names).2 hhome) hmem hbuiltin hkeeps
    rw [hname]
    exact ⟨hword, .inr ⟨rfl, hgenerated⟩⟩

/-- The routines of all modules are read apart if those of the program that keep their names
in compact style do not look like generated ones. -/
theorem Joinable.writesApart
    (hapart : style = .compact → ∀ routine ∈ program.routines,
      Naming.keepsName program routine → ¬Naming.LooksGenerated 'R' routine.name) :
    final.WritesApart program := by
  -- A kept name cannot be the generated name of another routine.
  have hkept {home : Program} (hhome : program.Reaches home) {routine : Routine}
      (hmem : routine ∈ home.routines) (hstyle : style = .compact)
      (hkeeps : style = .verbose ∨ Naming.keepsName home routine) :
      ¬Naming.LooksGenerated 'R' (program.flatName home routine.name) := by
    by_cases hroot : home.moduleName = program.moduleName
    · obtain rfl := h.names home program hhome .refl hroot
      rw [flatName_root rfl]
      exact hapart hstyle routine hmem (hkeeps.resolve_left (by simp [hstyle]))
    · intro hlooks
      have hdollar := dollar_mem_flatName hroot routine.name
      exact Naming.dollar_not_mem_of_looksGenerated (by decide) hlooks hdollar
  refine { word := ?word, plain := ?plain, apart := ?apart, start := ?start, fallback := ?fallback }
  case word =>
    intro home hhome routine hmem
    exact (h.entry_cases hfinal hhome hmem).1
  case plain =>
    intro home hhome routine hmem
    rcases (h.entry_cases hfinal hhome hmem).2 with ⟨-, hname⟩ | ⟨-, hlooks, -⟩
    · rw [hname]
      exact h.not_contains_flatName hhome hmem
    · intro hcontains
      exact BuiltinTable.not_looksGenerated_of_contains hcontains hlooks
  case apart =>
    intro first second hfirst hsecond routine hmem other hother heq
    rcases (h.entry_cases hfinal hfirst hmem).2 with ⟨hkeeps, hname⟩ | ⟨hstyle, hlooks, hlookup⟩ <;>
      rcases (h.entry_cases hfinal hsecond hother).2 with
        ⟨hkeeps', hname'⟩ | ⟨hstyle', hlooks', hlookup'⟩
    · rw [hname, hname'] at heq
      exact h.flatName_inj hfirst hsecond hmem hother heq
    · rw [← heq, hname] at hlooks'
      exact absurd hlooks' (hkept hfirst hmem hstyle' hkeeps)
    · rw [heq, hname'] at hlooks
      exact absurd hlooks (hkept hsecond hother hstyle hkeeps')
    · rw [heq] at hlookup
      obtain ⟨hmodule, hroutine⟩ :=
        Prod.mk.inj (hfinal.numbered.routines.eq_of_lookup hlookup hlookup')
      obtain rfl := h.names first second hfirst hsecond hmodule
      exact ⟨rfl, List.inj_on_of_nodup_map first.distinct hmem hother hroutine⟩
  case start =>
    intro entry hentry
    have hkeeps : Naming.keepsName program entry := by simp [Naming.keepsName, hentry]
    rw [(h.unmarked_entry hfinal.root .refl (mem_of_entrypoint? hentry) (.inr hkeeps)).2,
      flatName_root rfl]
  case fallback =>
    intro home hhome routine hmem hname
    rcases (h.entry_cases hfinal hhome hmem).2 with ⟨-, hflat⟩ | ⟨-, hlooks, -⟩
    · rw [hflat] at hname ⊢
      by_cases hroot : home.moduleName = program.moduleName
      · exact ⟨h.names home program hhome .refl hroot, flatName_root hroot _⟩
      · have hplain : ∀ name ∈ entrypointNames, '$' ∉ name.toList := by decide
        exact absurd (dollar_mem_flatName hroot _) (hplain _ hname)
    · have hnames : ∀ name ∈ entrypointNames, ¬Naming.LooksGenerated 'R' name := by decide
      exact absurd hlooks (hnames _ hname)

end

end Program

namespace Naming.WritesApart

variable {naming : Naming} {program : Program} (h : naming.WritesApart program)
  (hnames : program.NamesModules)

include h hnames

/-- A call that resolves is written under the name of what it enters. -/
theorem writesCall {home : Program} (hhome : program.Reaches home) {name : String}
    (hname : home.resolve? name ≠ none) : naming.WritesCall (program.collect []) home name := by
  have henters {other : Program} {callee : Routine}
      (hcallee : home.callee? name = some (other, callee)) :
      naming.WritesCall (program.collect []) home name := by
    have howns := Program.owns_of_callee? hcallee
    have hother := hhome.trans howns.reaches
    exact .inr ⟨other, callee, hcallee, (Program.mem_collect_iff hnames).2 hother,
      routineName_of_callee? hcallee, h.plain other hother callee howns.mem⟩
  cases hresolve : home.resolve? name with
  | none => exact absurd hresolve hname
  | some target =>
    cases target with
    | builtin builtin => exact .inl ⟨builtin, hresolve⟩
    | own callee => exact henters (by rw [Program.callee?, hresolve])
    | external other callee => exact henters (by rw [Program.callee?, hresolve])

theorem writesEntry (honly : ∀ home, program.Reaches home → ∀ routine ∈ home.routines,
      routine.kind = .entrypoint → home = program ∧ program.entrypoint? = some routine) :
    naming.WritesEntry (program.collect []) program where
  only home hhome := honly home ((Program.mem_collect_iff hnames).1 hhome)
  name := h.start
  fallback home hhome := h.fallback home ((Program.mem_collect_iff hnames).1 hhome)

/-- All routines are read under distinct names. -/
theorem nodup :
    ((naming.entries (program.collect [])).map fun entry => unmarked entry.name).Nodup := by
  have hinj {first second : Program} (hfirst : first ∈ program.collect [])
      (hsecond : second ∈ program.collect []) {routine other : Routine}
      (hmem : routine ∈ first.routines) (hother : other ∈ second.routines)
      (heq : unmarked (naming.entry first routine).name =
        unmarked (naming.entry second other).name) : first = second ∧ routine = other :=
    h.apart first second ((Program.mem_collect_iff hnames).1 hfirst)
      ((Program.mem_collect_iff hnames).1 hsecond) routine hmem other hother heq
  rw [entries, List.map_flatMap, List.nodup_flatMap]
  constructor
  · intro home hhome
    rw [List.map_map]
    exact (List.Nodup.of_map _ home.distinct).map_on
      fun first hfirst second hsecond heq => (hinj hhome hhome hfirst hsecond heq).2
  · refine (List.Nodup.of_map _ (Program.nodup_collect hnames)).imp_of_mem ?_
    intro first second hfirst hsecond hne name hname hother
    simp only [List.map_map, List.mem_map, Function.comp_apply] at hname hother
    obtain ⟨routine, hmem, rfl⟩ := hname
    obtain ⟨other, hother, heq⟩ := hother
    exact hne (hinj hsecond hfirst hother hmem heq).1.symm

end Naming.WritesApart

namespace Program

/-- In a program that can be flattened, no other routine than the place to start is marked. -/
theorem Flattens.entrypoint?_of_kind {program home : Program} (h : program.Flattens)
    (hhome : program.Reaches home) {routine : Routine} (hmem : routine ∈ home.routines)
    (hkind : routine.kind = .entrypoint) :
    home = program ∧ program.entrypoint? = some routine := by
  obtain ⟨rfl, honly⟩ := h.entry home hhome routine hmem hkind
  obtain ⟨entry, hentry, hmarked⟩ := exists_entrypoint?_of_kind hmem hkind
  rw [honly entry (mem_of_entrypoint? hentry) hmarked] at hentry
  exact ⟨rfl, hentry⟩

/-- Linked modules run like the one program that is read from their verbose text. -/
theorem execute_flattened {program : Program} (h : program.Flattens) :
    ∃ reread, readObject (writeObject program .verbose) = .ok reread ∧
      ∀ board stepLimit fuel,
        let ended := (Machine.new program board stepLimit).execute fuel
        let endedReread := (Machine.new reread board stepLimit).execute fuel
        ended.2.Alike endedReread.2 ∧ endedReread.1.board = ended.1.board ∧
          endedReread.1.steps = ended.1.steps := by
  obtain ⟨final, hfinal⟩ := Naming.exists_endsSession program .verbose
  have hreaches {home : Program} (hhome : home ∈ program.collect []) : program.Reaches home :=
    (mem_collect_iff h.names).1 hhome
  have hwrites := h.toJoinable.writesApart hfinal (fun hstyle => by cases hstyle)
  exact hfinal.exists_alike ((mem_collect_iff h.names).2 .refl)
    { builtins := fun home hhome => h.builtins home (hreaches hhome)
      legible := fun home hhome => h.legible home (hreaches hhome)
      words := fun home hhome => hwrites.word home (hreaches hhome)
      distinct := hwrites.nodup h.names
      kept := fun hstyle => absurd hfinal.style hstyle
      calls := fun home hhome routine hmem instruction hinstruction name hname =>
        hwrites.writesCall h.names (hreaches hhome)
          (h.calls home (hreaches hhome) routine hmem instruction hinstruction name hname)
      entry := hwrites.writesEntry h.names fun home hhome routine hmem =>
        h.entrypoint?_of_kind hhome hmem }

end Program

namespace Errand

/-- Leave the number two. -/
def two : Routine where
  kind := .function
  name := "two"
  params := []
  code := #[.enter, .pushConst (.int 2), .leave, .ret 1]
  targets := Array.replicate 4 none
  resolved := rfl

/-- The module of the function. -/
def library : Program where
  moduleName := "library"
  routines := [two]
  builtins := BuiltinTable.standard
  links := []
  distinct := by decide

/-- Call the function under another name and put a stone if it leaves two. -/
def go : Routine where
  kind := .procedure
  name := "Go"
  params := ["color"]
  code := #[.call "zwei" 0, .jumpIfNotIn [.int 2] "done", .pushFrom "color", .call "PutStone" 1,
    .label "done", .ret 0]
  targets := #[none, some 5, none, none, none, none]
  resolved := rfl

/-- The module of the procedure, with the library behind it. -/
def helper : Program where
  moduleName := "helper"
  routines := [go]
  builtins := BuiltinTable.standard
  links := [⟨"zwei", library, "two"⟩]
  distinct := by decide

/-- Call both modules and return what the library leaves. -/
def main : Routine where
  kind := .entrypoint
  name := "program"
  params := []
  code := #[.pushConst (.color .red), .call "Run" 1, .call "two" 0, .popTo "x",
    .returnVars 1 ["x@Int"]]
  targets := Array.replicate 5 none
  resolved := rfl

/-- The program, which shares the library with the helper. -/
def program : Program where
  moduleName := "main"
  routines := [main]
  builtins := BuiltinTable.standard
  links := [⟨"Run", helper, "Go"⟩, ⟨"two", library, "two"⟩]
  distinct := by decide

theorem reaches {home : Program} (h : program.Reaches home) :
    home = program ∨ home = helper ∨ home = library := by
  have hlibrary {home : Program} (h : library.Reaches home) : home = library :=
    h.eq_of_links rfl
  have hhelper {home : Program} (h : helper.Reaches home) : home = helper ∨ home = library := by
    cases h with
    | refl => exact .inl rfl
    | link hlink h =>
      obtain rfl := List.mem_singleton.1 hlink
      exact .inr (hlibrary h)
  cases h with
  | refl => exact .inl rfl
  | link hlink h =>
    simp only [program, List.mem_cons, List.not_mem_nil, or_false] at hlink
    rcases hlink with rfl | rfl
    · exact .inr (hhelper h)
    · exact .inr (.inr (hlibrary h))

theorem flattens : program.Flattens where
  names first second hfirst hsecond hname := by
    rcases reaches hfirst with rfl | rfl | rfl <;> rcases reaches hsecond with rfl | rfl | rfl
    any_goals rfl
    all_goals exact absurd hname (by decide)
  builtins home h := by rcases reaches h with rfl | rfl | rfl <;> rfl
  moduleName home h := by rcases reaches h with rfl | rfl | rfl <;> decide
  routineName home h := by rcases reaches h with rfl | rfl | rfl <;> decide
  legible home h := by rcases reaches h with rfl | rfl | rfl <;> decide
  calls home h := by rcases reaches h with rfl | rfl | rfl <;> decide
  entry home h routine hmem hkind := by
    rcases reaches h with rfl | rfl | rfl <;> obtain rfl := List.mem_singleton.1 hmem
    · exact ⟨rfl, fun other hother _ => List.mem_singleton.1 hother⟩
    · cases hkind
    · cases hkind

end Errand

namespace Program

theorem execute_flattened_errand :
    ∃ reread, readObject (writeObject Errand.program .verbose) = .ok reread ∧
      ∀ board stepLimit fuel,
        let ended := (Machine.new Errand.program board stepLimit).execute fuel
        let endedReread := (Machine.new reread board stepLimit).execute fuel
        ended.2.Alike endedReread.2 ∧ endedReread.1.board = ended.1.board ∧
          endedReread.1.steps = ended.1.steps :=
  execute_flattened Errand.flattens

end Program
end Gobstones
