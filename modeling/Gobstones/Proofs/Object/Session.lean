import Gobstones.Object.Writer
import Gobstones.Proofs.Object.Names
/-!
# Writing sessions

This module shows that a writing session chooses each name once.  A request is answered
like an earlier one for the same thing, and chosen names stay apart.  So all lines of an
object can be seen as written under the names with which the session ends.

Main definitions:

- {lit}`Naming.Continues`: what one session chose, another has chosen too.
- {lit}`Naming.Composes`: properties of requests that pass on to the writing of lines and lists.
- {lit}`Naming.Stable`: requests that are answered alike ever after.
- {lit}`Naming.Settled`: a session has chosen all names of a routine.
- {lit}`Naming.EndsSession`: the names with which the writing of an object ends.

Main results:

- Theorem {lit}`Naming.variableName_inj`: chosen variables stay apart.
- Theorem {lit}`Naming.labelName_inj`: chosen labels stay apart.
- Theorem {lit}`Naming.exists_endsSession`: every object is written under such names.
-/

namespace Gobstones
namespace Naming

/-! ## Sessions -/

/-- The generated names of a session are numbered in turn. -/
structure Numbered (naming : Naming) : Prop where
  routines : NumberedTable 'R' naming.routines
  locals : NumberedTable 'V' naming.locals
  labels : NumberedTable 'L' naming.labels

/-- What one session chose, a later one has chosen too. -/
structure Continues (before after : Naming) : Prop where
  style : after.style = before.style
  root : after.root = before.root
  routines : Extends before.routines after.routines
  locals : Extends before.locals after.locals
  labels : Extends before.labels after.labels

theorem Continues.refl (naming : Naming) : naming.Continues naming :=
  ⟨rfl, rfl, fun _ _ h => h, fun _ _ h => h, fun _ _ h => h⟩

theorem Continues.trans {first second third : Naming} (h : first.Continues second)
    (hthird : second.Continues third) : first.Continues third :=
  ⟨hthird.style.trans h.style, hthird.root.trans h.root,
    fun _ _ hname => hthird.routines _ _ (h.routines _ _ hname),
    fun _ _ hname => hthird.locals _ _ (h.locals _ _ hname),
    fun _ _ hname => hthird.labels _ _ (h.labels _ _ hname)⟩

/-- A property of requests for names passes on to what is composed of such requests. -/
structure Composes (P : {α : Type} → (Naming → α × Naming) → Prop) : Prop where
  pure : ∀ {α : Type} (a : α), P fun naming => (a, naming)
  bind : ∀ {α β : Type} {request : Naming → α × Naming} {next : α → Naming → β × Naming},
    P request → (∀ a, P (next a)) → P fun naming => next (request naming).1 (request naming).2
  mapStyle : ∀ {α β : Type} {request : Naming → α × Naming} (f : Style → α → β),
    P request → P fun naming => (f naming.style (request naming).1, (request naming).2)
  routineName : ∀ program name, P (Naming.routineName · program name)
  variableName : ∀ name, P (Naming.variableName · name)
  labelName : ∀ name, P (Naming.labelName · name)

namespace Composes

variable {P : {α : Type} → (Naming → α × Naming) → Prop} (h : Composes P)

include h

theorem map {α β : Type} {request : Naming → α × Naming} (f : α → β) (hrequest : P request) :
    P fun naming => (f (request naming).1, (request naming).2) :=
  h.mapStyle (fun _ => f) hrequest

theorem variableNames (names : List String) : P (Naming.variableNames · names) := by
  induction names with
  | nil => exact h.pure []
  | cons name rest ih => exact h.bind (h.variableName name) fun chosen => h.map (chosen :: ·) ih

theorem operands (program : Program) (instruction : Instruction) :
    P (Naming.operands · program instruction) := by
  cases instruction with
  | pushFrom name | popTo name | delVar name | setImmutable name | unsetImmutable name =>
    exact h.map (fun chosen => [Token.word chosen]) (h.variableName name)
  | call name argc =>
    exact h.map (fun chosen => [Token.word chosen, countWord argc]) (h.routineName program name)
  | label name | jump name | jumpIfFalse name =>
    exact h.map (fun chosen => [Token.word chosen]) (h.labelName name)
  | jumpIfNotIn values name =>
    exact h.map (fun chosen => Token.word chosen :: values.map fun value => Token.word value.text)
      (h.labelName name)
  | _ => exact h.pure _

theorem instructionLine (program : Program) (instruction : Instruction) :
    P (Gobstones.instructionLine · program instruction) :=
  h.mapStyle (fun style operands =>
    style.indentation ++ spaced (.word (instruction.opcode.spelling style) :: operands))
    (h.operands program instruction)

theorem codeLines (program : Program) (code : List Instruction) :
    P (Gobstones.codeLines · program code) := by
  induction code with
  | nil => exact h.pure []
  | cons instruction rest ih =>
    exact h.bind (h.instructionLine program instruction) fun line => h.map (line :: ·) ih

/-- The parameters and the instructions of a routine in turn. -/
theorem body (program : Program) (routine : Routine) :
    P fun naming =>
      Gobstones.codeLines (naming.variableNames routine.params).2 program routine.code.toList :=
  h.bind (h.variableNames routine.params) fun _ => h.codeLines program routine.code.toList

theorem listRoutines (program : Program) (routines : List Routine) (listed : List Listed) :
    P (Gobstones.listRoutines · listed program routines) := by
  induction routines generalizing listed with
  | nil => exact h.pure listed
  | cons routine rest ih =>
    exact h.bind (h.routineName program routine.name) fun name =>
      ih (Ordered.insert Listed.name ⟨name, program, routine⟩ listed)

theorem listPrograms (programs : List Program) (listed : List Listed) :
    P (Gobstones.listPrograms · listed programs) := by
  induction programs generalizing listed with
  | nil => exact h.pure listed
  | cons program rest ih => exact h.bind (h.listRoutines program program.routines listed) ih

end Composes

/-- A request that goes on with a session and is answered alike ever after, as long as the
same variables keep their names. -/
structure Stable {α : Type} (request : Naming → α × Naming) : Prop where
  continues : ∀ naming : Naming, naming.Continues (request naming).2
  kept : ∀ naming, (request naming).2.kept = naming.kept
  numbered : ∀ naming : Naming, naming.Numbered → (request naming).2.Numbered
  recalled : ∀ naming later : Naming, (request naming).2.Continues later →
    later.kept = naming.kept → request later = ((request naming).1, later)

namespace Stable

variable {α β : Type}

theorem pure (a : α) : Stable fun naming => (a, naming) :=
  ⟨Continues.refl, fun _ => rfl, fun _ h => h, fun _ _ _ _ => rfl⟩

/-- A request after another one. -/
theorem bind {request : Naming → α × Naming} {next : α → Naming → β × Naming}
    (h : Stable request) (hnext : ∀ a, Stable (next a)) :
    Stable fun naming => next (request naming).1 (request naming).2 where
  continues naming := (h.continues naming).trans ((hnext _).continues _)
  kept naming := ((hnext _).kept _).trans (h.kept naming)
  numbered naming hnumbered := (hnext _).numbered _ (h.numbered naming hnumbered)
  recalled naming later hlater hkept := by
    have hfirst := h.recalled naming later (((hnext _).continues _).trans hlater) hkept
    simp only [hfirst]
    exact (hnext _).recalled _ later hlater (hkept.trans (h.kept naming).symm)

/-- What a request is answered with, seen in the style of the session. -/
theorem mapStyle {request : Naming → α × Naming} (f : Style → α → β) (h : Stable request) :
    Stable fun naming => (f naming.style (request naming).1, (request naming).2) where
  continues := h.continues
  kept := h.kept
  numbered := h.numbered
  recalled naming later hlater hkept := by
    have hstyle := ((h.continues naming).trans hlater).style
    have hrecalled := h.recalled naming later hlater hkept
    simp only [hrecalled, hstyle]

/-- Asked again, a request changes nothing. -/
theorem settled {request : Naming → α × Naming} (h : Stable request) {naming later : Naming}
    (hlater : (request naming).2.Continues later) (hkept : later.kept = naming.kept) :
    (request later).2 = later := by
  rw [h.recalled naming later hlater hkept]

/-- A request that is made only if the session does not answer by itself. -/
theorem guarded {request : Naming → α × Naming} {answer : Naming → α} (answers : Naming → Prop)
    [DecidablePred answers] (h : Stable request)
    (hsame : ∀ before after : Naming, before.Continues after → after.kept = before.kept →
      (answers after ↔ answers before) ∧ answer after = answer before) :
    Stable fun naming => if answers naming then (answer naming, naming) else request naming where
  continues naming := by
    split
    · exact .refl naming
    · exact h.continues naming
  kept naming := by
    split
    · rfl
    · exact h.kept naming
  numbered naming hnumbered := by
    split
    · exact hnumbered
    · exact h.numbered naming hnumbered
  recalled naming later hlater hkept := by
    by_cases hc : answers naming
    · simp only [if_pos hc] at hlater ⊢
      obtain ⟨hiff, hanswer⟩ := hsame naming later hlater hkept
      rw [if_pos (hiff.2 hc), hanswer]
    · simp only [if_neg hc] at hlater ⊢
      have hiff := (hsame naming later ((h.continues naming).trans hlater) hkept).1
      rw [if_neg (mt hiff.1 hc)]
      exact h.recalled naming later hlater hkept

theorem chooseRoutine (key : String × String) :
    Stable fun naming => ((chooseFrom 'R' naming.routines key).1,
      { naming with routines := (chooseFrom 'R' naming.routines key).2 }) where
  continues _ := ⟨rfl, rfl, extends_chooseFrom key, fun _ _ h => h, fun _ _ h => h⟩
  kept _ := rfl
  numbered _ h := ⟨h.routines.chooseFrom key, h.locals, h.labels⟩
  recalled _ _ hlater _ := by
    simp only [chooseFrom_of_lookup (hlater.routines _ _ (lookup_chooseFrom key))]

theorem chooseLocal (name : String) :
    Stable fun naming => ((chooseFrom 'V' naming.locals name).1,
      { naming with locals := (chooseFrom 'V' naming.locals name).2 }) where
  continues _ := ⟨rfl, rfl, fun _ _ h => h, extends_chooseFrom name, fun _ _ h => h⟩
  kept _ := rfl
  numbered _ h := ⟨h.routines, h.locals.chooseFrom name, h.labels⟩
  recalled _ _ hlater _ := by
    simp only [chooseFrom_of_lookup (hlater.locals _ _ (lookup_chooseFrom name))]

theorem chooseLabel (name : String) :
    Stable fun naming => ((chooseFrom 'L' naming.labels name).1,
      { naming with labels := (chooseFrom 'L' naming.labels name).2 }) where
  continues _ := ⟨rfl, rfl, fun _ _ h => h, fun _ _ h => h, extends_chooseFrom name⟩
  kept _ := rfl
  numbered _ h := ⟨h.routines, h.locals, h.labels.chooseFrom name⟩
  recalled _ _ hlater _ := by
    simp only [chooseFrom_of_lookup (hlater.labels _ _ (lookup_chooseFrom name))]

theorem variableName (name : String) : Stable (Naming.variableName · name) :=
  (chooseLocal name).guarded (fun naming => naming.style = .verbose ∨ name ∈ naming.kept)
    fun _ _ h hkept => ⟨by rw [h.style, hkept], rfl⟩

theorem labelName (name : String) : Stable (Naming.labelName · name) :=
  (chooseLabel name).guarded (·.style = .verbose) fun _ _ h _ => ⟨by rw [h.style], rfl⟩

theorem routineName (program : Program) (name : String) :
    Stable (Naming.routineName · program name) := by
  by_cases hbuiltin : program.builtins.contains name
  · simp only [routineName_builtin hbuiltin]
    exact pure name
  · cases hroutine : program.routine? name with
    | some callee =>
      simp only [routineName_own hbuiltin hroutine]
      exact (chooseRoutine _).guarded
        (fun naming => naming.style = .verbose ∨ keepsName program callee)
        fun _ _ h _ => ⟨by rw [h.style], by rw [marked, marked, h.root]⟩
    | none =>
      cases hlink : program.link? name with
      | some link =>
        simp only [routineName_link hbuiltin hroutine hlink]
        exact routineName link.target link.routine
      | none =>
        simp only [routineName_unknown hbuiltin hroutine hlink]
        exact pure name
termination_by sizeOf program
decreasing_by exact Program.sizeOf_target_lt (List.mem_of_find?_eq_some hlink)

theorem composes : Composes Stable where
  pure := pure
  bind := bind
  mapStyle := mapStyle
  routineName := routineName
  variableName := variableName
  labelName := labelName

theorem variableNames (names : List String) : Stable (Naming.variableNames · names) :=
  composes.variableNames names

/-- The operands of instructions are stable. -/
theorem operands (program : Program) (instruction : Instruction) :
    Stable (Naming.operands · program instruction) :=
  composes.operands program instruction

theorem codeLines (program : Program) (code : List Instruction) :
    Stable (Gobstones.codeLines · program code) :=
  composes.codeLines program code

theorem body (program : Program) (routine : Routine) :
    Stable fun naming =>
      Gobstones.codeLines (naming.variableNames routine.params).2 program routine.code.toList :=
  composes.body program routine

theorem listRoutines (program : Program) (routines : List Routine) (listed : List Listed) :
    Stable (Gobstones.listRoutines · listed program routines) :=
  composes.listRoutines program routines listed

theorem listPrograms (programs : List Program) (listed : List Listed) :
    Stable (Gobstones.listPrograms · listed programs) :=
  composes.listPrograms programs listed

end Stable

/-! ## Routines -/

/-- A session has chosen all names of a routine, so writing it changes nothing. -/
structure Settled (naming : Naming) (program : Program) (routine : Routine) : Prop where
  params : ∀ name ∈ routine.params, (naming.variableName name).2 = naming
  code : ∀ instruction ∈ routine.code, (naming.operands program instruction).2 = naming

theorem settled_variableNames {naming later : Naming} {names : List String}
    (hlater : (naming.variableNames names).2.Continues later) (hkept : later.kept = naming.kept) :
    ∀ name ∈ names, (later.variableName name).2 = later := by
  induction names generalizing naming with
  | nil => simp
  | cons name rest ih =>
    rw [List.forall_mem_cons]
    constructor
    · exact (Stable.variableName name).settled
        (((Stable.variableNames rest).continues _).trans hlater) hkept
    · exact ih hlater (hkept.trans ((Stable.variableName name).kept naming).symm)

theorem settled_codeLines {naming later : Naming} {program : Program} {code : List Instruction}
    (hlater : (codeLines naming program code).2.Continues later)
    (hkept : later.kept = naming.kept) :
    ∀ instruction ∈ code, (later.operands program instruction).2 = later := by
  induction code generalizing naming with
  | nil => simp
  | cons instruction rest ih =>
    rw [List.forall_mem_cons]
    constructor
    · exact (Stable.operands program instruction).settled
        (((Stable.codeLines program rest).continues _).trans hlater) hkept
    · exact ih hlater (hkept.trans ((Stable.operands program instruction).kept naming).symm)

theorem Continues.keepResults {before after : Naming} (h : before.Continues after)
    (routine : Routine) : before.Continues (after.keepResults routine) :=
  ⟨h.style, h.root, h.routines, h.locals, h.labels⟩

/-- Names of routines do not depend on which variables keep their names. -/
theorem routineName_withKept (naming : Naming) (kept : List String) (program : Program)
    (name : String) :
    ({ naming with kept } : Naming).routineName program name =
      ((naming.routineName program name).1, { (naming.routineName program name).2 with kept }) := by
  by_cases hbuiltin : program.builtins.contains name
  · simp only [routineName_builtin hbuiltin]
  · cases hroutine : program.routine? name with
    | some callee =>
      simp only [routineName_own hbuiltin hroutine]
      split <;> rfl
    | none =>
      cases hlink : program.link? name with
      | some link =>
        simp only [routineName_link hbuiltin hroutine hlink]
        exact routineName_withKept naming kept link.target link.routine
      | none => simp only [routineName_unknown hbuiltin hroutine hlink]
termination_by sizeOf program
decreasing_by exact Program.sizeOf_target_lt (List.mem_of_find?_eq_some hlink)

theorem routineName_keepResults (naming : Naming) (routine : Routine) (program : Program)
    (name : String) :
    (naming.keepResults routine).routineName program name =
      ((naming.routineName program name).1,
        (naming.routineName program name).2.keepResults routine) :=
  routineName_withKept naming _ program name

theorem continues_routineLines (naming : Naming) (name : String) (program : Program)
    (routine : Routine) : naming.Continues (routineLines naming name program routine).2 :=
  have h := (Stable.body program routine).continues (naming.keepResults routine)
  ⟨h.style, h.root, h.routines, h.locals, h.labels⟩

theorem Numbered.routineLines {naming : Naming} (h : naming.Numbered) (name : String)
    (program : Program) (routine : Routine) :
    (routineLines naming name program routine).2.Numbered :=
  (Stable.body program routine).numbered (naming.keepResults routine)
    ⟨h.routines, h.locals, h.labels⟩

/-- A routine is written alike ever after. -/
theorem routineLines_recalled {naming later : Naming} {name : String} {program : Program}
    {routine : Routine}
    (hlater : (routineLines naming name program routine).2.Continues later) :
    (routineLines later name program routine).1 = (routineLines naming name program routine).1 ∧
      (later.keepResults routine).Settled program routine := by
  have hcode : (codeLines ((naming.keepResults routine).variableNames routine.params).2 program
      routine.code.toList).2.Continues (later.keepResults routine) := hlater.keepResults routine
  have hparams := ((Stable.codeLines program routine.code.toList).continues _).trans hcode
  have hkept := (Stable.variableNames routine.params).kept (naming.keepResults routine)
  constructor
  · have hnames := (Stable.variableNames routine.params).recalled _ _ hparams rfl
    have hlines := (Stable.codeLines program routine.code.toList).recalled _ _ hcode hkept.symm
    simp only [routineLines, hnames, hlines, ← hparams.style, ← hcode.style]
  · refine ⟨settled_variableNames hparams rfl, fun instruction hmem => ?_⟩
    exact settled_codeLines hcode hkept.symm instruction (Array.mem_toList_iff.2 hmem)

/-- Variables that are chosen are written under their chosen names. -/
theorem variableNames_of_settled {naming : Naming} {names : List String}
    (h : ∀ name ∈ names, (naming.variableName name).2 = naming) :
    naming.variableNames names = (names.map fun name => (naming.variableName name).1, naming) := by
  induction names with
  | nil => rfl
  | cons name rest ih =>
    rw [List.forall_mem_cons] at h
    simp only [variableNames, h.1, ih h.2, List.map_cons]

/-- Instructions whose names are chosen are written under their chosen names. -/
theorem codeLines_of_settled {naming : Naming} {program : Program} {code : List Instruction}
    (h : ∀ instruction ∈ code, (naming.operands program instruction).2 = naming) :
    codeLines naming program code =
      (code.map fun instruction => (instructionLine naming program instruction).1, naming) := by
  induction code with
  | nil => rfl
  | cons instruction rest ih =>
    rw [List.forall_mem_cons] at h
    have hline : (instructionLine naming program instruction).2 = naming := h.1
    simp only [codeLines, hline, ih h.2, List.map_cons]

/-- A routine whose names are chosen is written under its chosen names. -/
theorem routineLines_of_settled {naming : Naming} {program : Program} {routine : Routine}
    (h : (naming.keepResults routine).Settled program routine) (name : String) :
    (routineLines naming name program routine).1 =
      spaced (.word (routine.kind.spelling naming.style) :: .word name ::
        (routine.params.map fun param =>
          ((naming.keepResults routine).variableName param).1).map .word) ::
      routine.code.toList.map (fun instruction =>
        (instructionLine (naming.keepResults routine) program instruction).1) ++
      [naming.style.closing.toList, []] := by
  have hcode : ∀ instruction ∈ routine.code.toList,
      ((naming.keepResults routine).operands program instruction).2 = naming.keepResults routine :=
    fun instruction hmem => h.code instruction (Array.mem_toList_iff.1 hmem)
  simp only [routineLines, variableNames_of_settled h.params, codeLines_of_settled hcode]
  rfl

/-- The lines of listed routines are written under the names with which they end. -/
theorem exists_listedLines (naming : Naming) (listed : List Listed) :
    ∃ final : Naming, naming.Continues final ∧ final.kept = naming.kept ∧
      (naming.Numbered → final.Numbered) ∧
      listedLines naming listed = listed.flatMap (fun entry =>
        (routineLines final entry.name entry.program entry.routine).1) ∧
      ∀ entry ∈ listed, (final.keepResults entry.routine).Settled entry.program entry.routine := by
  induction listed generalizing naming with
  | nil => exact ⟨naming, .refl naming, rfl, id, rfl, by simp⟩
  | cons entry rest ih =>
    obtain ⟨name, program, routine⟩ := entry
    obtain ⟨final, hfinal, -, hnumbered, hlines, hsettled⟩ :=
      ih (routineLines naming name program routine).2
    obtain ⟨hsame, hfirst⟩ := routineLines_recalled hfinal
    have hall := (continues_routineLines naming name program routine).trans hfinal
    -- Writing a routine forgets which variables kept their names before.
    refine ⟨{ final with kept := naming.kept },
      ⟨hall.style, hall.root, hall.routines, hall.locals, hall.labels⟩, rfl, fun h => ?_, ?_, ?_⟩
    · have h := hnumbered (h.routineLines name program routine)
      exact ⟨h.routines, h.locals, h.labels⟩
    · calc
        listedLines naming (⟨name, program, routine⟩ :: rest)
        _ = (routineLines naming name program routine).1 ++
            listedLines (routineLines naming name program routine).2 rest := rfl
        _ = _ := by
          rw [hlines, ← hsame]
          rfl
    · exact List.forall_mem_cons.2 ⟨hfirst, hsettled⟩

/-! ## Listed routines -/

/-- A routine of a program under its written name. -/
def entry (naming : Naming) (program : Program) (routine : Routine) : Listed :=
  ⟨(naming.routineName program routine.name).1, program, routine⟩

/-- List the routines of a program under their written names. -/
def insertRoutines (naming : Naming) (listed : List Listed) (program : Program) : List Listed :=
  program.routines.foldl
    (fun listed routine => Ordered.insert Listed.name (naming.entry program routine) listed) listed

/-- The routines of several programs under their written names. -/
def listing (naming : Naming) (programs : List Program) : List Listed :=
  programs.foldl naming.insertRoutines []

theorem listRoutines_recalled {naming later : Naming} {listed : List Listed} {program : Program}
    {routines : List Routine}
    (hlater : (listRoutines naming listed program routines).2.Continues later)
    (hkept : later.kept = naming.kept) :
    (listRoutines naming listed program routines).1 =
        routines.foldl (fun listed routine =>
          Ordered.insert Listed.name (later.entry program routine) listed) listed ∧
      ∀ routine ∈ routines, (later.routineName program routine.name).2 = later := by
  induction routines generalizing naming listed with
  | nil => exact ⟨rfl, by simp⟩
  | cons routine rest ih =>
    have hname := (Stable.routineName program routine.name).recalled naming later
      (((Stable.listRoutines program rest _).continues _).trans hlater) hkept
    obtain ⟨hrest, hsettled⟩ := ih hlater
      (hkept.trans ((Stable.routineName program routine.name).kept naming).symm)
    constructor
    · rw [List.foldl_cons, entry, hname]
      exact hrest
    · exact List.forall_mem_cons.2 ⟨by rw [hname], hsettled⟩

theorem listPrograms_recalled {naming later : Naming} {listed : List Listed}
    {programs : List Program}
    (hlater : (listPrograms naming listed programs).2.Continues later)
    (hkept : later.kept = naming.kept) :
    (listPrograms naming listed programs).1 = programs.foldl later.insertRoutines listed ∧
      ∀ program ∈ programs, ∀ routine ∈ program.routines,
        (later.routineName program routine.name).2 = later := by
  induction programs generalizing naming listed with
  | nil => exact ⟨rfl, by simp⟩
  | cons program rest ih =>
    have hprogram : (listRoutines naming listed program program.routines).2.Continues later :=
      ((Stable.listPrograms rest _).continues _).trans hlater
    obtain ⟨hfirst, hsettled⟩ := listRoutines_recalled hprogram hkept
    obtain ⟨hrest, hothers⟩ := ih hlater
      (hkept.trans ((Stable.listRoutines program program.routines listed).kept naming).symm)
    constructor
    · rw [List.foldl_cons, insertRoutines, ← hfirst]
      exact hrest
    · exact List.forall_mem_cons.2 ⟨hsettled, hothers⟩

/-! ## Chosen names stay apart -/

/-- A chosen variable keeps its name or has an entry in the table. -/
theorem variableName_cases {naming : Naming} {name : String}
    (h : (naming.variableName name).2 = naming) :
    (naming.style = .verbose ∨ name ∈ naming.kept) ∧ (naming.variableName name).1 = name ∨
      naming.style ≠ .verbose ∧
        naming.locals.lookup name = some (naming.variableName name).1 := by
  unfold variableName at h ⊢
  split
  · next hc => exact .inl ⟨hc, rfl⟩
  · next hc =>
    rw [if_neg hc] at h
    exact .inr ⟨fun hstyle => hc (.inl hstyle), lookup_of_settled (congrArg Naming.locals h)⟩

/-- Chosen variables stay apart, unless one that keeps its name looks like a generated
one. -/
theorem variableName_inj {naming : Naming} (h : naming.Numbered)
    (hkept : naming.style ≠ .verbose → ∀ name ∈ naming.kept, ¬LooksGenerated 'V' name)
    {first second : String} (hfirst : (naming.variableName first).2 = naming)
    (hsecond : (naming.variableName second).2 = naming)
    (heq : (naming.variableName first).1 = (naming.variableName second).1) : first = second := by
  -- A kept name cannot be the generated name of another variable.
  have hapart {kept other : String} (hstyle : naming.style ≠ .verbose) (hmem : kept ∈ naming.kept)
      (hother : naming.locals.lookup other = some kept) : False := by
    obtain ⟨n, -, rfl⟩ := h.locals.exists_of_lookup hother
    exact hkept hstyle _ hmem (looksGenerated_generated 'V' n)
  rcases variableName_cases hfirst with ⟨hkeeps, hname⟩ | ⟨hstyle, hname⟩ <;>
    rcases variableName_cases hsecond with ⟨hkeeps', hname'⟩ | ⟨hstyle', hname'⟩
  · rwa [hname, hname'] at heq
  · rw [hname] at heq
    rw [← heq] at hname'
    exact (hapart hstyle' (hkeeps.resolve_left hstyle') hname').elim
  · rw [hname'] at heq
    rw [heq] at hname
    exact (hapart hstyle (hkeeps'.resolve_left hstyle) hname).elim
  · rw [heq] at hname
    exact h.locals.eq_of_lookup hname hname'

/-- Chosen labels stay apart. -/
theorem labelName_inj {naming : Naming} (h : naming.Numbered) {first second : String}
    (hfirst : (naming.labelName first).2 = naming)
    (hsecond : (naming.labelName second).2 = naming)
    (heq : (naming.labelName first).1 = (naming.labelName second).1) : first = second := by
  unfold labelName at hfirst hsecond heq
  split at heq
  · exact heq
  · next hstyle =>
    rw [if_neg hstyle] at hfirst hsecond
    have hfirst := lookup_of_settled (congrArg Naming.labels hfirst)
    have hsecond := lookup_of_settled (congrArg Naming.labels hsecond)
    simp only at heq
    rw [heq] at hfirst
    exact h.labels.eq_of_lookup hfirst hsecond

/-! ## Objects -/

/-- The names with which the writing of an object ends.  All its lines are written under
them. -/
structure EndsSession (program : Program) (written : Style) (final : Naming) : Prop where
  style : final.style = written
  root : final.root = program.moduleName
  numbered : final.Numbered
  lines : objectLines program written =
    ObjectText.header.toList :: (final.listing (program.collect [])).flatMap (fun entry =>
      (routineLines final entry.name entry.program entry.routine).1) ++
        [ObjectText.terminator.toList]
  chosen : ∀ home ∈ program.collect [], ∀ routine ∈ home.routines,
    (final.routineName home routine.name).2 = final
  settled : ∀ entry ∈ final.listing (program.collect []),
    (final.keepResults entry.routine).Settled entry.program entry.routine

/-- Every object is written under the names with which its writing ends. -/
theorem exists_endsSession (program : Program) (style : Style) :
    ∃ final, EndsSession program style final := by
  have hnumbered : (new style program.moduleName).Numbered := ⟨trivial, trivial, trivial⟩
  have hstable := Stable.listPrograms (program.collect []) []
  obtain ⟨final, hfinal, hkept, hfinalNumbered, hlines, hsettled⟩ := exists_listedLines
    (listPrograms (new style program.moduleName) [] (program.collect [])).2
    (listPrograms (new style program.moduleName) [] (program.collect [])).1
  have hall := (hstable.continues _).trans hfinal
  obtain ⟨hlisting, hchosen⟩ := listPrograms_recalled hfinal (hkept.trans (hstable.kept _))
  rw [hlisting] at hlines hsettled
  refine ⟨final, hall.style, hall.root, hfinalNumbered (hstable.numbered _ hnumbered), ?_,
    hchosen, hsettled⟩
  rw [listing, ← hlines, ← hlisting]
  rfl

end Naming
end Gobstones
