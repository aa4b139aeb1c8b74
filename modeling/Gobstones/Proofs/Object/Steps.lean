import Gobstones.Proofs.Object.Reading
import Gobstones.Proofs.Outcome
/-!
# Steps of the reader

This module says once what one line does to the reader: with which lines it goes on, and with
which problems it stops.  A problem is found on the line at which it is reported, at the
closing line of the routine whose header it is reported at, or only when the text is over.

Main definitions:

- {lit}`ObjectProblem.extent`: how much has to be read until a problem is found.
- {lit}`Reader.Goes`: the tokens of a line with which the reader goes on.
- {lit}`Reader.Stops`: the tokens of a line at which the reader stops.

Main results:

- Theorem {lit}`Reader.goes_of_step`: every line that is read takes the reader on.
- Theorem {lit}`Reader.stops_of_step`: every line that is not read stops it.
- Theorem {lit}`Reader.exists_step_of_run_error`: a problem is found at a single line.
-/

namespace Gobstones

/-! ## Problems and where they are found -/

namespace ObjectProblem

/-- How much is read until a problem is found. -/
inductive Extent where
  | line
  | routine
  | text
deriving DecidableEq, Repr

/-- Repeated names and unresolved labels are found when a routine is complete, and an early end
when the text is over. -/
def extent : ObjectProblem → Extent
  | load _ | duplicateRoutine _ => .routine
  | unexpectedEnd _ => .text
  | _ => .line

end ObjectProblem

/-- If there is a problem, it is found on one line. -/
def FoundOnLine {α : Type} (result : Except ObjectProblem α) : Prop :=
  ∀ problem, result = .error problem → problem.extent = .line

namespace FoundOnLine

variable {α β : Type}

theorem ok (a : α) : FoundOnLine (.ok a) :=
  fun _ h => nomatch h

theorem error {problem : ObjectProblem} (h : problem.extent = .line) :
    FoundOnLine (.error problem : Except ObjectProblem α) := by
  intro other hother
  obtain rfl := Except.error.inj hother
  exact h

theorem bind {result : Except ObjectProblem α} {next : α → Except ObjectProblem β}
    (h : FoundOnLine result) (hnext : ∀ a, FoundOnLine (next a)) :
    FoundOnLine (result >>= next) := by
  cases result with
  | ok a => exact hnext a
  | error problem => exact error (h problem rfl)

theorem map {result : Except ObjectProblem α} (h : FoundOnLine result) (f : α → β) :
    FoundOnLine (result.map f) := by
  cases result with
  | ok a => exact ok (f a)
  | error problem => exact error (h problem rfl)

theorem mapM {f : α → Except ObjectProblem β} (h : ∀ a, FoundOnLine (f a)) (as : List α) :
    FoundOnLine (as.mapM f) := by
  induction as with
  | nil => exact ok []
  | cons a rest ih =>
    rw [List.mapM_cons]
    exact (h a).bind fun _ => ih.bind fun _ => ok _

end FoundOnLine

/-! ## Tokens of a line -/

theorem foundOnLine_expectWord (token : Token) : FoundOnLine (expectWord token) := by
  cases token with
  | word text => exact .ok text
  | quoted text => exact .error rfl

theorem foundOnLine_nextWord (opcode : String) (expected : Nat) (tokens : List Token) :
    FoundOnLine (nextWord opcode expected tokens) := by
  cases tokens with
  | nil => exact .error rfl
  | cons token rest => exact (foundOnLine_expectWord token).map _

theorem foundOnLine_allWords (tokens : List Token) : FoundOnLine (allWords tokens) :=
  .mapM foundOnLine_expectWord tokens

theorem foundOnLine_noMore (tokens : List Token) : FoundOnLine (noMore tokens) := by
  cases tokens with
  | nil => exact .ok ()
  | cons token rest => exact .error rfl

theorem foundOnLine_countOf (text : String) : FoundOnLine (countOf text) := by
  unfold countOf
  split
  · exact .ok _
  · exact .error rfl

theorem foundOnLine_constantOf (text : String) : FoundOnLine (constantOf text) := by
  unfold constantOf
  split
  · exact .ok _
  · exact .error rfl

theorem foundOnLine_singleWord (opcode : Opcode) (operands : List Token) :
    FoundOnLine (singleWord opcode operands) :=
  (foundOnLine_nextWord _ _ _).bind fun _ => (foundOnLine_noMore _).bind fun _ => .ok _

theorem foundOnLine_readOperands (opcode : Opcode) (operands : List Token) :
    FoundOnLine (readOperands opcode operands) := by
  cases opcode with
  | pushConst =>
    exact (foundOnLine_singleWord _ _).bind fun _ => (foundOnLine_constantOf _).bind fun _ => .ok _
  | pushFrom | popTo | delVar | setImmutable | unsetImmutable | label | jump | jumpIfFalse =>
    exact (foundOnLine_singleWord _ _).bind fun _ => .ok _
  | call =>
    exact (foundOnLine_nextWord _ _ _).bind fun _ => (foundOnLine_nextWord _ _ _).bind fun _ =>
      (foundOnLine_countOf _).bind fun _ => (foundOnLine_noMore _).bind fun _ => .ok _
  | raise =>
    cases operands with
    | nil => exact .error rfl
    | cons message rest => exact (foundOnLine_noMore rest).bind fun _ => .ok _
  | jumpIfNotIn =>
    exact (foundOnLine_nextWord _ _ _).bind fun _ => (FoundOnLine.mapM
      (fun token => (foundOnLine_expectWord token).bind foundOnLine_constantOf) _).bind
        fun _ => .ok _
  | ret =>
    exact (foundOnLine_nextWord _ _ _).bind fun _ => (foundOnLine_countOf _).bind fun _ =>
      (foundOnLine_noMore _).bind fun _ => .ok _
  | returnVars =>
    exact (foundOnLine_nextWord _ _ _).bind fun _ => (foundOnLine_countOf _).bind fun _ =>
      (foundOnLine_allWords _).bind fun _ => .ok _
  | enter | leave => exact (foundOnLine_noMore operands).bind fun _ => .ok _

theorem foundOnLine_readInstruction (first : Token) (operands : List Token) :
    FoundOnLine (readInstruction first operands) := by
  unfold readInstruction
  split
  · exact .error rfl
  · exact foundOnLine_readOperands _ _

theorem foundOnLine_readHeader (line : Nat) (first : Token) (operands : List Token) :
    FoundOnLine (readHeader line first operands) := by
  refine (foundOnLine_expectWord first).bind fun keyword => ?_
  split
  · exact .error rfl
  · exact (foundOnLine_nextWord _ _ _).bind fun _ => (foundOnLine_allWords _).bind fun _ => .ok _

/-! ## Operands that are read -/

/-- An operand that is taken as a word is one. -/
theorem eq_word_of_expectWord {token : Token} {text : String} (h : expectWord token = .ok text) :
    token = .word text := by
  cases token with
  | word other => rw [Except.ok.inj h]
  | quoted other => cases h

theorem eq_cons_of_nextWord {opcode : String} {expected : Nat} {tokens rest : List Token}
    {text : String} (h : nextWord opcode expected tokens = .ok (text, rest)) :
    tokens = .word text :: rest := by
  cases tokens with
  | nil => cases h
  | cons token others =>
    obtain ⟨word, hword, heq⟩ := exists_of_map_eq_ok h
    obtain ⟨rfl, rfl⟩ := Prod.mk.inj heq
    rw [eq_word_of_expectWord hword]

theorem eq_map_word_of_allWords {tokens : List Token} {words : List String}
    (h : allWords tokens = .ok words) : tokens = words.map .word := by
  induction tokens generalizing words with
  | nil =>
    obtain rfl := Except.ok.inj h
    rfl
  | cons token rest ih =>
    rw [allWords, List.mapM_cons] at h
    obtain ⟨word, hword, h⟩ := exists_of_bind_eq_ok h
    obtain ⟨others, hothers, h⟩ := exists_of_bind_eq_ok h
    obtain rfl := Except.ok.inj h
    rw [eq_word_of_expectWord hword, ih hothers, List.map_cons]

theorem eq_nil_of_noMore {tokens : List Token} {u : Unit} (h : noMore tokens = .ok u) :
    tokens = [] := by
  cases tokens with
  | nil => rfl
  | cons token rest => cases h

/-- A header is a keyword, a name, and parameters. -/
theorem readHeader_eq_ok {line : Nat} {first : Token} {operands : List Token} {header : Header}
    (h : readHeader line first operands = .ok header) :
    ∃ keyword kind name params, first = .word keyword ∧ RoutineKind.ofWord? keyword = some kind ∧
      operands = .word name :: params.map .word ∧
      header = { line, kind, name := unmarked name, params } := by
  obtain ⟨keyword, hkeyword, h⟩ := exists_of_bind_eq_ok h
  split at h
  · cases h
  · next kind hkind =>
    obtain ⟨⟨name, rest⟩, hname, h⟩ := exists_of_bind_eq_ok h
    obtain ⟨params, hparams, h⟩ := exists_of_bind_eq_ok h
    refine ⟨keyword, kind, name, params, eq_word_of_expectWord hkeyword, hkind, ?_,
      (Except.ok.inj h).symm⟩
    rw [eq_cons_of_nextWord hname, eq_map_word_of_allWords hparams]

/-! ## Steps -/

namespace Reader

/-- The tokens of a line with which the reader goes on, and how far it has come then. -/
inductive Goes (line : Nat) : Reader → Token → List Token → Reader → Prop
  | header : Goes line start (.word ObjectText.header) [] (between [])
  | terminator {routines : List Routine} {first : Token}
      (hfirst : first.text = ObjectText.terminator) :
      Goes line (between routines) first [] (done routines)
  | opens {routines : List Routine} {first : Token} {operands : List Token} {header : Header}
      (hfirst : first.text ≠ ObjectText.terminator)
      (hheader : readHeader line first operands = .ok header) :
      Goes line (between routines) first operands (within routines header [])
  | instruction {routines : List Routine} {header : Header} {code : List Instruction}
      {first : Token} {operands : List Token} {instruction : Instruction}
      (hfirst : ¬Style.isClosing first.text)
      (hinstruction : readInstruction first operands = .ok instruction) :
      Goes line (within routines header code) first operands
        (within routines header (instruction :: code))
  | closes {routines : List Routine} {header : Header} {code : List Instruction} {first : Token}
      {routine : Routine} (hfirst : Style.isClosing first.text)
      (hroutine : Routine.new header.kind header.name header.params code.reverse = .ok routine)
      (hname : routine.name ∉ routines.map Routine.name) :
      Goes line (within routines header code) first [] (between (routine :: routines))

/-- The tokens of a line at which the reader stops, and what it reports. -/
inductive Stops (line : Nat) : Reader → Token → List Token → ObjectError → Prop
  | here {reader : Reader} {first : Token} {operands : List Token} {problem : ObjectProblem}
      (hextent : problem.extent = .line) : Stops line reader first operands ⟨line, problem⟩
  | atHeader {routines : List Routine} {header : Header} {code : List Instruction} {first : Token}
      {problem : ObjectProblem} (hfirst : Style.isClosing first.text)
      (hextent : problem.extent = .routine) :
      Stops line (within routines header code) first [] ⟨header.line, problem⟩

/-- What becomes of the tokens of a line. -/
theorem stepTokens_cases {reader : Reader} (hreader : ∀ routines, reader ≠ done routines)
    (line : Nat) (first : Token) (operands : List Token) :
    (∃ next, reader.stepTokens line first operands = .ok next ∧
      Goes line reader first operands next) ∨
    ∃ error, reader.stepTokens line first operands = .error error ∧
      Stops line reader first operands error := by
  cases reader with
  | start =>
    rw [stepTokens]
    split
    · next h =>
      obtain ⟨rfl, rfl⟩ := h
      exact .inl ⟨_, rfl, .header⟩
    · exact .inr ⟨_, rfl, .here rfl⟩
  | between routines =>
    rw [stepTokens]
    split
    · next hfirst =>
      cases hmore : noMore operands with
      | error problem => exact .inr ⟨_, rfl, .here (foundOnLine_noMore _ _ hmore)⟩
      | ok =>
        obtain rfl := eq_nil_of_noMore hmore
        exact .inl ⟨_, rfl, .terminator hfirst⟩
    · next hfirst =>
      cases hheader : readHeader line first operands with
      | error problem => exact .inr ⟨_, rfl, .here (foundOnLine_readHeader _ _ _ _ hheader)⟩
      | ok header => exact .inl ⟨_, rfl, .opens hfirst hheader⟩
  | within routines header code =>
    rw [stepTokens]
    split
    · next hfirst =>
      cases hmore : noMore operands with
      | error problem => exact .inr ⟨_, rfl, .here (foundOnLine_noMore _ _ hmore)⟩
      | ok =>
        obtain rfl := eq_nil_of_noMore hmore
        change (∃ next, complete routines header code = .ok next ∧ _) ∨
          ∃ error, complete routines header code = .error error ∧ _
        unfold complete
        cases hroutine : Routine.new header.kind header.name header.params code.reverse with
        | error e => exact .inr ⟨_, rfl, .atHeader hfirst rfl⟩
        | ok routine =>
          by_cases hname : routine.name ∈ routines.map Routine.name
          · exact .inr ⟨_, if_pos hname, .atHeader hfirst rfl⟩
          · exact .inl ⟨_, if_neg hname, .closes hfirst hroutine hname⟩
    · next hfirst =>
      cases hinstruction : readInstruction first operands with
      | error problem =>
        exact .inr ⟨_, rfl, .here (foundOnLine_readInstruction _ _ _ hinstruction)⟩
      | ok instruction => exact .inl ⟨_, rfl, .instruction hfirst hinstruction⟩
  | done routines => exact absurd rfl (hreader routines)

/-- Nothing is read past the terminator. -/
@[simp]
theorem step_done (routines : List Routine) (line : Nat) (cs : List Char) :
    (done routines).step line cs = .ok (done routines) :=
  rfl

@[simp]
theorem run_done (routines : List Routine) (line : Nat) (lines : List (List Char)) :
    (done routines).run line lines = .ok (done routines) := by
  induction lines generalizing line with
  | nil => rfl
  | cons cs rest ih => exact (run_cons_of_step (step_done ..) rest).trans (ih _)

theorem step_of_no_tokens {cs : List Char} (h : Token.ofLine? cs = some []) (reader : Reader)
    (line : Nat) : reader.step line cs = .ok reader := by
  unfold step
  split
  · rfl
  · rw [h]

theorem step_of_unterminated {cs : List Char} (h : Token.ofLine? cs = none) {reader : Reader}
    (hreader : ∀ routines, reader ≠ done routines) (line : Nat) :
    reader.step line cs = .error ⟨line, .unterminatedString⟩ := by
  unfold step
  split
  · next routines => exact absurd rfl (hreader routines)
  · rw [h]

/-- A line that is read takes the reader on, unless it has no tokens. -/
theorem goes_of_step {reader next : Reader} (hreader : ∀ routines, reader ≠ done routines)
    {line : Nat} {cs : List Char} (h : reader.step line cs = .ok next) :
    Token.ofLine? cs = some [] ∧ next = reader ∨
      ∃ first operands, Token.ofLine? cs = some (first :: operands) ∧
        Goes line reader first operands next := by
  cases htokens : Token.ofLine? cs with
  | none =>
    rw [step_of_unterminated htokens hreader] at h
    cases h
  | some tokens =>
    cases tokens with
    | nil =>
      rw [step_of_no_tokens htokens] at h
      exact .inl ⟨rfl, (Except.ok.inj h).symm⟩
    | cons first operands =>
      rw [step_of_tokens htokens hreader] at h
      rcases stepTokens_cases hreader line first operands with ⟨other, hother, hgoes⟩ | ⟨e, he, -⟩
      · obtain rfl := Except.ok.inj (h.symm.trans hother)
        exact .inr ⟨first, operands, rfl, hgoes⟩
      · rw [he] at h
        cases h

/-- A line that is not read stops the reader, or a string in it is not closed. -/
theorem stops_of_step {reader : Reader} {error : ObjectError} {line : Nat} {cs : List Char}
    (h : reader.step line cs = .error error) :
    error = ⟨line, .unterminatedString⟩ ∨
      ∃ first operands, Token.ofLine? cs = some (first :: operands) ∧
        Stops line reader first operands error := by
  have hreader : ∀ routines, reader ≠ done routines := by
    rintro routines rfl
    cases h
  cases htokens : Token.ofLine? cs with
  | none =>
    rw [step_of_unterminated htokens hreader] at h
    exact .inl (Except.error.inj h).symm
  | some tokens =>
    cases tokens with
    | nil =>
      rw [step_of_no_tokens htokens] at h
      cases h
    | cons first operands =>
      rw [step_of_tokens htokens hreader] at h
      rcases stepTokens_cases hreader line first operands with ⟨other, hother, -⟩ | ⟨e, he, hstops⟩
      · rw [hother] at h
        cases h
      · obtain rfl := Except.error.inj (h.symm.trans he)
        exact .inr ⟨first, operands, rfl, hstops⟩

/-! ## Runs -/

/-- A problem is found at a single line, behind lines that are read. -/
theorem exists_step_of_run_error {reader : Reader} {line : Nat} {lines : List (List Char)}
    {error : ObjectError} (h : reader.run line lines = .error error) :
    ∃ before cs after next, lines = before ++ cs :: after ∧ reader.run line before = .ok next ∧
      next.step (line + before.length) cs = .error error := by
  induction lines generalizing reader line with
  | nil => cases h
  | cons cs rest ih =>
    cases hstep : reader.step line cs with
    | error e =>
      rw [run, hstep] at h
      obtain rfl := Except.error.inj h
      exact ⟨[], cs, rest, reader, rfl, rfl, hstep⟩
    | ok next =>
      rw [run_cons_of_step hstep] at h
      obtain ⟨before, other, after, last, rfl, hrun, hother⟩ := ih h
      refine ⟨cs :: before, other, after, last, rfl, (run_cons_of_step hstep before).trans hrun, ?_⟩
      rw [List.length_cons, ← hother]
      congr 1
      omega

/-- The terminator is a single line, behind lines that are read. -/
theorem exists_step_of_run_done {reader : Reader} (hreader : ∀ routines, reader ≠ done routines)
    {line : Nat} {lines : List (List Char)} {routines : List Routine}
    (h : reader.run line lines = .ok (done routines)) :
    ∃ before cs after next, lines = before ++ cs :: after ∧ reader.run line before = .ok next ∧
      (∀ routines, next ≠ done routines) ∧
      next.step (line + before.length) cs = .ok (done routines) := by
  induction lines generalizing reader line with
  | nil => exact absurd (Except.ok.inj h) (hreader routines)
  | cons cs rest ih =>
    cases hstep : reader.step line cs with
    | error e =>
      rw [run, hstep] at h
      cases h
    | ok next =>
      rw [run_cons_of_step hstep] at h
      by_cases hnext : ∃ routines, next = done routines
      · obtain ⟨others, rfl⟩ := hnext
        rw [run_done] at h
        obtain rfl := done.inj (Except.ok.inj h)
        exact ⟨[], cs, rest, reader, rfl, rfl, hreader, hstep⟩
      · obtain ⟨before, other, after, last, rfl, hrun, hlast, hother⟩ :=
          ih (fun routines heq => hnext ⟨routines, heq⟩) h
        refine ⟨cs :: before, other, after, last, rfl,
          (run_cons_of_step hstep before).trans hrun, hlast, ?_⟩
        rw [List.length_cons, ← hother]
        congr 1
        omega

/-- What every line keeps is kept by a run.  It may speak of the lines that were read. -/
theorem run_induction {motive : List (List Char) → Reader → Prop} (hstart : motive [] start)
    (hstep : ∀ before reader cs next, motive before reader →
      reader.step (before.length + 1) cs = .ok next → motive (before ++ [cs]) next)
    {lines : List (List Char)} {last : Reader} (h : start.run 1 lines = .ok last) :
    motive lines last := by
  have hruns : ∀ (lines before : List (List Char)) (reader : Reader), motive before reader →
      reader.run (before.length + 1) lines = .ok last → motive (before ++ lines) last := by
    intro lines
    induction lines with
    | nil =>
      intro before reader hreader h
      obtain rfl := Except.ok.inj h
      simpa using hreader
    | cons cs rest ih =>
      intro before reader hreader h
      cases hcs : reader.step (before.length + 1) cs with
      | error e =>
        rw [run, hcs] at h
        cases h
      | ok next =>
        rw [run_cons_of_step hcs] at h
        have hrest := ih (before ++ [cs]) next (hstep before reader cs next hreader hcs)
          (by simpa using h)
        simpa using hrest
  exact hruns lines [] start hstart h

end Reader
end Gobstones
