import Gobstones.Proofs.Object.Listing
/-!
# Requests for names

This module follows writing sessions through requests in any order.  Whatever is asked in
between, a compact session answers alike when it is asked again, and different labels and
routines get different words.  A routine that is linked under several names, perhaps
through other modules, gets one word.  The writing of an object makes such requests, too.

Main definitions:

- {lit}`Naming.Request` and {lit}`Naming.after`: what a session is asked for, and the session
  after that.
- {lit}`Naming.Asks`: what is done to a session can be asked of it.
- {lit}`Program.LeadsTo`: the routine that a called name leads to.

Main results:

- Theorem {lit}`Naming.words_apart`: in a compact session, words tell labels and routines.
- Theorem {lit}`Naming.exists_requests_objectLines`: objects are written in such sessions.
-/

namespace Gobstones

/-! ## Routines behind names -/

/-- A called name leads to a routine of its module, or a link leads on to another module. -/
inductive Program.LeadsTo : Program → String → Program → Routine → Prop where
  | own {program : Program} {name : String} {routine : Routine}
    (hbuiltin : ¬program.builtins.contains name) (h : program.routine? name = some routine) :
    LeadsTo program name program routine
  | link {program home : Program} {name : String} {routine : Routine} {link : Link Program}
    (hbuiltin : ¬program.builtins.contains name) (hroutine : program.routine? name = none)
    (hlink : program.link? name = some link)
    (h : LeadsTo link.target link.routine home routine) : LeadsTo program name home routine

/-- The routine that a name leads to has no builtin of its name beside it. -/
theorem Program.LeadsTo.found {caller home : Program} {name : String} {routine : Routine}
    (h : caller.LeadsTo name home routine) :
    ¬home.builtins.contains routine.name ∧ home.routine? routine.name = some routine := by
  induction h with
  | own hbuiltin h =>
    obtain ⟨-, rfl⟩ := Program.mem_of_routine? h
    exact ⟨hbuiltin, h⟩
  | link _ _ _ _ ih => exact ih

namespace Naming

/-! ## Requests -/

/-- What a writing session is asked for: written names, or to keep the names of the variables
that a routine returns. -/
inductive Request where
  | routineName (program : Program) (name : String)
  | variableName (name : String)
  | labelName (name : String)
  | keepResults (routine : Routine)

/-- The session after a request. -/
def ask (naming : Naming) : Request → Naming
  | .routineName program name => (naming.routineName program name).2
  | .variableName name => (naming.variableName name).2
  | .labelName name => (naming.labelName name).2
  | .keepResults routine => naming.keepResults routine

/-- The session after a sequence of requests. -/
def after (naming : Naming) (requests : List Request) : Naming :=
  requests.foldl ask naming

@[simp]
theorem after_nil (naming : Naming) : naming.after [] = naming :=
  rfl

@[simp]
theorem after_cons (naming : Naming) (request : Request) (requests : List Request) :
    naming.after (request :: requests) = (naming.ask request).after requests :=
  rfl

@[simp]
theorem after_append (naming : Naming) (first second : List Request) :
    naming.after (first ++ second) = (naming.after first).after second :=
  List.foldl_append

theorem continues_ask (naming : Naming) (request : Request) :
    naming.Continues (naming.ask request) := by
  cases request with
  | routineName program name => exact (Stable.routineName program name).continues naming
  | variableName name => exact (Stable.variableName name).continues naming
  | labelName name => exact (Stable.labelName name).continues naming
  | keepResults routine => exact (Continues.refl naming).keepResults routine

theorem Numbered.ask {naming : Naming} (h : naming.Numbered) (request : Request) :
    (naming.ask request).Numbered := by
  cases request with
  | routineName program name => exact (Stable.routineName program name).numbered naming h
  | variableName name => exact (Stable.variableName name).numbered naming h
  | labelName name => exact (Stable.labelName name).numbered naming h
  | keepResults routine => exact ⟨h.routines, h.locals, h.labels⟩

/-- Only the request to keep names changes which variables keep theirs. -/
theorem kept_ask {naming : Naming} {request : Request}
    (h : ∀ routine, request ≠ .keepResults routine) : (naming.ask request).kept = naming.kept := by
  cases request with
  | routineName program name => exact (Stable.routineName program name).kept naming
  | variableName name => exact (Stable.variableName name).kept naming
  | labelName name => exact (Stable.labelName name).kept naming
  | keepResults routine => exact absurd rfl (h routine)

/-- What was chosen stays chosen. -/
theorem continues_after (naming : Naming) (requests : List Request) :
    naming.Continues (naming.after requests) := by
  induction requests generalizing naming with
  | nil => exact .refl naming
  | cons request rest ih => exact (naming.continues_ask request).trans (ih (naming.ask request))

theorem Numbered.after {naming : Naming} (h : naming.Numbered) (requests : List Request) :
    (naming.after requests).Numbered := by
  induction requests generalizing naming with
  | nil => exact h
  | cons request rest ih => exact ih (h.ask request)

theorem kept_after {naming : Naming} {requests : List Request}
    (h : ∀ routine, .keepResults routine ∉ requests) :
    (naming.after requests).kept = naming.kept := by
  induction requests generalizing naming with
  | nil => rfl
  | cons request rest ih =>
    rw [after_cons, ih fun routine hmem => h routine (List.mem_cons_of_mem _ hmem)]
    exact kept_ask fun routine heq => h routine (by simp [heq])

theorem numbered_new (style : Style) (root : String) : (new style root).Numbered :=
  ⟨trivial, trivial, trivial⟩

/-! ## Writing as requests -/

/-- What a function does to a session, some requests do, too. -/
def Asks {α : Type} (request : Naming → α × Naming) : Prop :=
  ∀ naming : Naming, ∃ requests, (request naming).2 = naming.after requests

namespace Asks

variable {α β : Type}

theorem pure (a : α) : Asks fun naming => (a, naming) :=
  fun _ => ⟨[], rfl⟩

theorem bind {request : Naming → α × Naming} {next : α → Naming → β × Naming} (h : Asks request)
    (hnext : ∀ a, Asks (next a)) :
    Asks fun naming => next (request naming).1 (request naming).2 := by
  intro naming
  obtain ⟨first, hfirst⟩ := h naming
  obtain ⟨second, hsecond⟩ := hnext (request naming).1 (request naming).2
  exact ⟨first ++ second, by rw [hsecond, hfirst, after_append]⟩

theorem composes : Composes Asks where
  pure := pure
  bind := bind
  mapStyle _ h := h
  routineName program name _ := ⟨[.routineName program name], rfl⟩
  variableName name _ := ⟨[.variableName name], rfl⟩
  labelName name _ := ⟨[.labelName name], rfl⟩

theorem routineLines (name : String) (program : Program) (routine : Routine) :
    Asks (Gobstones.routineLines · name program routine) := by
  intro naming
  obtain ⟨requests, hrequests⟩ := composes.body program routine (naming.keepResults routine)
  exact ⟨.keepResults routine :: requests, hrequests⟩

end Asks

/-- Wherever the lines of a listed routine stand, they are written in a session that requests lead
to. -/
theorem exists_requests_listedLines (naming : Naming) (before rest : List Listed)
    (entry : Listed) :
    ∃ requests,
      let reached := naming.after requests
      listedLines naming (before ++ entry :: rest) = listedLines naming before ++
        (routineLines reached entry.name entry.program entry.routine).1 ++
          listedLines (routineLines reached entry.name entry.program entry.routine).2 rest := by
  induction before generalizing naming with
  | nil => exact ⟨[], rfl⟩
  | cons first before ih =>
    obtain ⟨requests, hrequests⟩ :=
      Asks.routineLines first.name first.program first.routine naming
    obtain ⟨others, hothers⟩ :=
      ih (routineLines naming first.name first.program first.routine).2
    refine ⟨requests ++ others, ?_⟩
    rw [after_append, ← hrequests]
    simp only [List.cons_append, listedLines, List.append_assoc] at hothers ⊢
    rw [hothers]

/-- Every routine of an object is written in a session that requests lead to from a fresh one. -/
theorem exists_requests_objectLines (program : Program) (style : Style)
    {before rest : List Listed} {entry : Listed}
    (h : (listPrograms (new style program.moduleName) [] (program.collect [])).1 =
      before ++ entry :: rest) :
    ∃ requests,
      (routineLines ((new style program.moduleName).after requests) entry.name entry.program
        entry.routine).1 <:+: objectLines program style := by
  obtain ⟨listing, hlisting⟩ := Asks.composes.listPrograms (program.collect []) []
    (new style program.moduleName)
  obtain ⟨requests, hrequests⟩ := exists_requests_listedLines
    ((new style program.moduleName).after listing) before rest entry
  refine ⟨listing ++ requests, ?_⟩
  rw [after_append]
  simp only [objectLines, h, hlisting, hrequests]
  exact ⟨_ :: _, _ ++ [_], by simp only [List.cons_append, List.append_assoc]; rfl⟩

/-! ## Repeated requests -/

/-- A request whose answer does not depend on which variables keep their names is answered alike
ever after. -/
theorem Stable.answer_eq {α : Type} {request : Naming → α × Naming} (h : Stable request)
    (hfree : ∀ (naming : Naming) (kept : List String),
      (request { naming with kept }).1 = (request naming).1)
    {naming later : Naming} (hlater : (request naming).2.Continues later) :
    (request later).1 = (request naming).1 := by
  have hsame : (request naming).2.Continues { later with kept := naming.kept } :=
    ⟨hlater.style, hlater.root, hlater.routines, hlater.locals, hlater.labels⟩
  rw [← hfree later naming.kept, h.recalled naming _ hsame rfl]

theorem routineName_again (naming : Naming) (program : Program) (name : String)
    (between : List Request) :
    ((naming.after (.routineName program name :: between)).routineName program name).1 =
      (naming.routineName program name).1 :=
  (Stable.routineName program name).answer_eq
    (fun naming kept => by rw [routineName_withKept])
    (continues_after (naming.routineName program name).2 between)

theorem labelName_again (naming : Naming) (name : String) (between : List Request) :
    ((naming.after (.labelName name :: between)).labelName name).1 = (naming.labelName name).1 :=
  (Stable.labelName name).answer_eq
    (fun naming kept => by
      unfold labelName
      split <;> rfl)
    (continues_after (naming.labelName name).2 between)

/-- A variable has the word that it had, as long as the same variables keep their names. -/
theorem variableName_again (naming : Naming) (name : String) {between : List Request}
    (h : ∀ routine, .keepResults routine ∉ between) :
    ((naming.after (.variableName name :: between)).variableName name).1 =
      (naming.variableName name).1 := by
  have hkept : (naming.after (.variableName name :: between)).kept = naming.kept :=
    (kept_after h).trans ((Stable.variableName name).kept naming)
  have hlater : (naming.variableName name).2.Continues
      (naming.after (.variableName name :: between)) := continues_after _ between
  rw [(Stable.variableName name).recalled naming _ hlater hkept]

/-! ## Words of routines and labels -/

section

variable {naming : Naming} {caller home : Program} {name : String} {routine : Routine}

/-- A name has the word of the routine that it leads to. -/
theorem routineName_of_leadsTo (h : caller.LeadsTo name home routine) :
    naming.routineName caller name = naming.routineName home routine.name := by
  induction h with
  | own _ h => rw [(Program.mem_of_routine? h).2]
  | link hbuiltin hroutine hlink _ ih => rw [routineName_link hbuiltin hroutine hlink, ih]

/-- An entrypoint keeps its name. -/
theorem routineName_of_keepsName (h : caller.LeadsTo name home routine)
    (hkeeps : keepsName home routine) :
    (naming.routineName caller name).1 = naming.marked home routine.name := by
  rw [routineName_of_leadsTo h, routineName_own h.found.1 h.found.2, if_pos (.inr hkeeps)]

/-- Another routine has an entry in the table. -/
theorem lookup_routineName (hstyle : naming.style = .compact)
    (h : caller.LeadsTo name home routine) (hkeeps : ¬keepsName home routine) :
    (naming.routineName caller name).2.routines.lookup (home.moduleName, routine.name) =
      some (naming.routineName caller name).1 := by
  have hchosen : ¬(naming.style = .verbose ∨ keepsName home routine) := by simp [hstyle, hkeeps]
  rw [routineName_of_leadsTo h, routineName_own h.found.1 h.found.2, if_neg hchosen]
  exact lookup_chooseFrom _

theorem lookup_labelName (hstyle : naming.style = .compact) (name : String) :
    (naming.labelName name).2.labels.lookup name = some (naming.labelName name).1 := by
  rw [labelName, if_neg (by simp [hstyle])]
  exact lookup_chooseFrom name

/-- Generated words are not marked. -/
theorem ne_marked {word : String} (h : LooksGenerated 'R' word) (naming : Naming)
    (program : Program) (name : String) : word ≠ naming.marked program name := by
  rintro rfl
  refine dollar_not_mem_of_looksGenerated (by decide) h ?_
  simp [marked]

end

/-- An entry of a table and one that it has later have one word exactly if they have one key. -/
theorem word_eq_iff {α : Type} [BEq α] [LawfulBEq α] {initial : Char}
    {table : Naming → List (α × String)}
    (htable : ∀ {naming : Naming}, naming.Numbered → NumberedTable initial (table naming))
    (hextends : ∀ {before after : Naming}, before.Continues after →
      Extends (table before) (table after))
    {early late : Naming} (hlate : early.Continues late) (hnumbered : late.Numbered) {key other : α}
    {word word' : String} (hkey : (table early).lookup key = some word)
    (hother : (table late).lookup other = some word') : word = word' ↔ key = other :=
  (htable hnumbered).name_eq_iff (hextends hlate _ _ hkey) hother

section

variable {naming : Naming} (hnumbered : naming.Numbered) (hstyle : naming.style = .compact)

include hnumbered hstyle

/-- Labels have one word exactly if they are one label, whatever is asked for in between. -/
theorem labelName_eq_iff (between : List Request) (first second : String) :
    (naming.labelName first).1 =
        ((naming.after (.labelName first :: between)).labelName second).1 ↔ first = second := by
  have hcompact := (naming.continues_after (.labelName first :: between)).style.trans hstyle
  have hturn := hnumbered.after (.labelName first :: between)
  have hasked := Stable.labelName second
  exact word_eq_iff Numbered.labels Continues.labels
    ((continues_after (naming.labelName first).2 between).trans (hasked.continues _))
    (hasked.numbered _ hturn) (lookup_labelName hstyle first)
    (lookup_labelName hcompact second)

/-- Names that lead to routines have one word exactly if they lead to one name of one module. -/
theorem routineName_eq_iff (between : List Request) {caller home caller' home' : Program}
    {name name' : String} {routine routine' : Routine} (h : caller.LeadsTo name home routine)
    (hkeeps : ¬keepsName home routine) (h' : caller'.LeadsTo name' home' routine')
    (hkeeps' : ¬keepsName home' routine') :
    (naming.routineName caller name).1 =
        ((naming.after (.routineName caller name :: between)).routineName caller' name').1 ↔
      home.moduleName = home'.moduleName ∧ routine.name = routine'.name := by
  have hcompact := (naming.continues_after (.routineName caller name :: between)).style.trans hstyle
  have hturn := hnumbered.after (.routineName caller name :: between)
  have hasked := Stable.routineName caller' name'
  rw [← Prod.mk.injEq]
  exact word_eq_iff Numbered.routines Continues.routines
    ((continues_after (naming.routineName caller name).2 between).trans (hasked.continues _))
    (hasked.numbered _ hturn) (lookup_routineName hstyle h hkeeps)
    (lookup_routineName hcompact h' hkeeps')

/-- A routine that does not keep its name has a generated word. -/
theorem looksGenerated_routineName {caller home : Program} {name : String} {routine : Routine}
    (h : caller.LeadsTo name home routine) (hkeeps : ¬keepsName home routine) :
    LooksGenerated 'R' (naming.routineName caller name).1 := by
  have hlater := (Stable.routineName caller name).numbered naming hnumbered
  obtain ⟨n, -, hn⟩ := hlater.routines.exists_of_lookup (lookup_routineName hstyle h hkeeps)
  rw [hn]
  exact looksGenerated_generated 'R' n

end

/-- In a compact session, words tell what was asked for, whatever was asked for before and in
between.  Requests are answered alike when they are repeated, those for variables as long as the
same ones keep their names.  Labels have one word exactly if they are one label, and names that
lead to routines exactly if they lead to one name of one module.  Such a word is never that of
a standard builtin, or of an entrypoint, which keeps its name. -/
theorem words_apart (root : String) (before : List Request) :
    Function.Injective digits ∧
    let early := (new .compact root).after before
    (∀ between : List Request,
      (∀ caller name,
        ((early.after (.routineName caller name :: between)).routineName caller name).1 =
          (early.routineName caller name).1) ∧
      (∀ name, ((early.after (.labelName name :: between)).labelName name).1 =
        (early.labelName name).1) ∧
      ∀ name, (∀ routine, .keepResults routine ∉ between) →
        ((early.after (.variableName name :: between)).variableName name).1 =
          (early.variableName name).1) ∧
    (∀ between first second,
      (early.labelName first).1 =
          ((early.after (.labelName first :: between)).labelName second).1 ↔ first = second) ∧
    ∀ caller name home routine, Program.LeadsTo caller name home routine →
      ¬keepsName home routine →
      (∀ between caller' name' home' routine', Program.LeadsTo caller' name' home' routine' →
        ¬keepsName home' routine' →
        ((early.routineName caller name).1 =
            ((early.after (.routineName caller name :: between)).routineName caller' name').1 ↔
          home.moduleName = home'.moduleName ∧ routine.name = routine'.name)) ∧
      ¬BuiltinTable.standard.contains (early.routineName caller name).1 ∧
      ∀ others caller' name' home' routine', Program.LeadsTo caller' name' home' routine' →
        keepsName home' routine' →
        (early.routineName caller name).1 ≠
          (((new .compact root).after others).routineName caller' name').1 := by
  refine ⟨digits_injective, ?_⟩
  intro early
  have hnumbered : early.Numbered := (numbered_new .compact root).after before
  have hstyle : early.style = .compact := ((new .compact root).continues_after before).style
  refine ⟨fun between => ⟨fun caller name => ?_, fun name => ?_, fun name hkept => ?_⟩,
    labelName_eq_iff hnumbered hstyle, fun caller name home routine h hkeeps => ?_⟩
  · exact early.routineName_again caller name between
  · exact early.labelName_again name between
  · exact early.variableName_again name hkept
  · have hlooks := looksGenerated_routineName hnumbered hstyle h hkeeps
    refine ⟨fun between caller' name' home' routine' h' hkeeps' => ?_,
      fun hbuiltin => BuiltinTable.not_looksGenerated_of_contains hbuiltin hlooks,
      fun others caller' name' home' routine' h' hkeeps' => ?_⟩
    · exact routineName_eq_iff hnumbered hstyle between h hkeeps h' hkeeps'
    · rw [routineName_of_keepsName h' hkeeps']
      exact ne_marked hlooks _ home' routine'.name

end Naming

namespace Courier

/-- A procedure that does nothing. -/
def drop : Routine where
  kind := .procedure
  name := "Drop"
  params := []
  code := #[.ret 0]
  targets := #[none]
  resolved := rfl

/-- The routine that starts the program. -/
def main : Routine where
  kind := .entrypoint
  name := "program"
  params := []
  code := #[.call "Near" 0, .call "Far" 0, .call "Drop" 0, .ret 0]
  targets := Array.replicate 4 none
  resolved := rfl

/-- The module of the procedure. -/
def depot : Program where
  moduleName := "depot"
  routines := [drop]
  builtins := BuiltinTable.standard
  links := []
  distinct := by decide

/-- A module that links to the procedure only. -/
def office : Program where
  moduleName := "office"
  routines := []
  builtins := BuiltinTable.standard
  links := [⟨"Pass", depot, "Drop"⟩]
  distinct := by decide

/-- A program that reaches the procedure under two names and has one of the same name. -/
def program : Program where
  moduleName := "main"
  routines := [drop, main]
  builtins := BuiltinTable.standard
  links := [⟨"Far", office, "Pass"⟩, ⟨"Near", depot, "Drop"⟩]
  distinct := by decide

theorem leadsTo_depot : depot.LeadsTo "Drop" depot drop :=
  .own (by decide) rfl

theorem leadsTo_far : program.LeadsTo "Far" depot drop :=
  .link (by decide) rfl rfl (.link (by decide) rfl rfl leadsTo_depot)

theorem leadsTo_near : program.LeadsTo "Near" depot drop :=
  .link (by decide) rfl rfl leadsTo_depot

theorem leadsTo_own : program.LeadsTo "Drop" program drop :=
  .own (by decide) rfl

theorem leadsTo_main : program.LeadsTo "program" program main :=
  .own (by decide) rfl

end Courier

namespace Naming

/-- Both links to the procedure get one word, which is neither that of the other procedure nor
the name of the entrypoint. -/
theorem words_apart_courier :
    let early := (new .compact "main").after [.labelName "again", .keepResults Courier.main]
    let word := (early.routineName Courier.program "Far").1
    let late := early.after
      [.routineName Courier.program "Far", .variableName "x", .routineName Courier.program "Drop"]
    (late.routineName Courier.program "Far").1 = word ∧
      word = (late.routineName Courier.program "Near").1 ∧
      word ≠ (late.routineName Courier.program "Drop").1 ∧
      word ≠ (early.routineName Courier.program "program").1 ∧
      ¬BuiltinTable.standard.contains word := by
  intro early word late
  have hdepot : ¬keepsName Courier.depot Courier.drop := by decide
  have hprogram : ¬keepsName Courier.program Courier.drop := by decide
  obtain ⟨-, hagain, -, hroutines⟩ :=
    words_apart "main" [.labelName "again", .keepResults Courier.main]
  obtain ⟨hapart, hbuiltin, hentry⟩ :=
    hroutines Courier.program "Far" Courier.depot Courier.drop Courier.leadsTo_far hdepot
  have hnear := hapart [.variableName "x", .routineName Courier.program "Drop"] _ _ _ _
    Courier.leadsTo_near hdepot
  have hown := hapart [.variableName "x", .routineName Courier.program "Drop"] _ _ _ _
    Courier.leadsTo_own hprogram
  exact ⟨(hagain _).1 _ _, hnear.2 ⟨rfl, rfl⟩, fun heq => absurd (hown.1 heq).1 (by decide),
    hentry [.labelName "again", .keepResults Courier.main] _ _ _ _ Courier.leadsTo_main (by decide),
    hbuiltin⟩

end Naming
end Gobstones
