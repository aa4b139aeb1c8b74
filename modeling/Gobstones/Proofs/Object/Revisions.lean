import Gobstones.Proofs.Object.Layout
import Gobstones.Proofs.Object.Stopping
/-!
# Revised texts

This module shows that the reader depends on nothing but the tokens of a text and the meaning of
their spellings.  If lines of a text are edited and lines without tokens are inserted, the same
program is read, or the same problem is reported on the line that corresponds to the old one.

Main definitions:

- {lit}`Revision`: what happens to a line of a text.
- {lit}`Revision.place`: the line of the new text that corresponds to an old one.
- {lit}`Revises`: a text arises from another one by revisions.
- {lit}`ObjectProblem.Alike`: the same problem, whichever spelling it quotes.
- {lit}`Reader.moved`: the reader of the new text.

Main results:

- Theorem {lit}`Reader.corresponds_step`: both readers go on with corresponding lines.
- Theorem {lit}`Reader.corresponds_run`: both readers go on with corresponding texts.
- Theorem {lit}`readObject_revised`: what is read of a revised text.
-/

namespace Gobstones

/-! ## Revisions -/

/-- What happens to a line of a text: it is edited, or it is a new one. -/
inductive Revision where
  | inserted (line : List Char)
  | edited (old new : List Char)

namespace Revision

/-- A new line has no tokens: it arises from the empty line.  An old line may be edited. -/
def Harmless : Revision → Prop
  | inserted line => Relaid [] line
  | edited old new => Edited old new

/-- The lines before the revisions. -/
def oldLines : List Revision → List (List Char)
  | [] => []
  | inserted _ :: rest => oldLines rest
  | edited old _ :: rest => old :: oldLines rest

/-- The lines after the revisions. -/
def newLines : List Revision → List (List Char)
  | [] => []
  | inserted line :: rest => line :: newLines rest
  | edited _ new :: rest => new :: newLines rest

/-- The new number of an old line.  Lines are counted from one. -/
def place : List Revision → Nat → Nat
  | _, 0 => 0
  | [], line => line
  | inserted _ :: rest, line => place rest line + 1
  | edited .. :: rest, line + 1 => place rest line + 1

@[simp]
theorem place_zero (revisions : List Revision) : place revisions 0 = 0 := by
  cases revisions with
  | nil => rfl
  | cons revision rest => cases revision <;> rfl

theorem place_inserted (cs : List Char) (rest : List Revision) {line : Nat} (h : line ≠ 0) :
    place (inserted cs :: rest) line = place rest line + 1 := by
  obtain ⟨line, rfl⟩ := Nat.exists_eq_succ_of_ne_zero h
  rfl

theorem place_pos {revisions : List Revision} {line : Nat} (h : line ≠ 0) :
    0 < place revisions line := by
  obtain ⟨line, rfl⟩ := Nat.exists_eq_succ_of_ne_zero h
  cases revisions with
  | nil => exact Nat.succ_pos line
  | cons revision rest => cases revision <;> exact Nat.succ_pos _

/-- The lines of corresponding numbers are an old line and what became of it. -/
theorem exists_edited_place {revisions : List Revision} {i : Nat} {old : List Char}
    (h : (oldLines revisions)[i]? = some old) :
    ∃ new, edited old new ∈ revisions ∧
      (newLines revisions)[place revisions (i + 1) - 1]? = some new := by
  induction revisions generalizing i with
  | nil => simp [oldLines] at h
  | cons revision rest ih =>
    have hlater {j : Nat} (hj : (oldLines rest)[j]? = some old) (line : List Char) :
        ∃ new, edited old new ∈ rest ∧
          (line :: newLines rest)[place rest (j + 1)]? = some new := by
      obtain ⟨new, hmem, hnew⟩ := ih hj
      refine ⟨new, hmem, ?_⟩
      rwa [List.getElem?_cons, if_neg (place_pos (Nat.succ_ne_zero j)).ne']
    cases revision with
    | inserted line =>
      obtain ⟨new, hmem, hnew⟩ := hlater h line
      exact ⟨new, List.mem_cons_of_mem _ hmem, hnew⟩
    | edited first other =>
      cases i with
      | zero =>
        obtain rfl : first = old := by simpa [oldLines] using h
        exact ⟨other, List.mem_cons_self, by simp [place, newLines]⟩
      | succ i =>
        obtain ⟨new, hmem, hnew⟩ := hlater (by simpa [oldLines] using h) other
        exact ⟨new, List.mem_cons_of_mem _ hmem, hnew⟩

end Revision

open ObjectText

/-- A text arises from another one by revisions that keep the tokens of its lines, up to the
spellings of first words. -/
structure Revises (revisions : List Revision) (text other : String) : Prop where
  harmless : ∀ revision ∈ revisions, revision.Harmless
  old : Revision.oldLines revisions = lines text
  new : Revision.newLines revisions = lines other

/-! ## Problems -/

/-- The same problem.  Only where it quotes the first word of a line, it may quote another
spelling. -/
inductive ObjectProblem.Alike : ObjectProblem → ObjectProblem → Prop
  | refl (problem : ObjectProblem) : Alike problem problem
  | missingHeader (old new : String) : Alike (.missingHeader old) (.missingHeader new)
  | unknownOpcode {old new : String} (h : Respelled old new) :
      Alike (.unknownOpcode old) (.unknownOpcode new)
  | unknownRoutineKind {old new : String} (h : Respelled old new) :
      Alike (.unknownRoutineKind old) (.unknownRoutineKind new)

/-- Both outcomes have the same problem, or one is the other up to a change. -/
inductive Reported {α β : Type} (change : α → β) :
    Except ObjectProblem α → Except ObjectProblem β → Prop
  | ok (a : α) : Reported change (.ok a) (.ok (change a))
  | error {problem other : ObjectProblem} (h : problem.Alike other) :
      Reported change (.error problem) (.error other)

theorem Reported.refl {α : Type} (outcome : Except ObjectProblem α) :
    Reported id outcome outcome := by
  cases outcome with
  | error problem => exact .error (.refl problem)
  | ok a => exact .ok a

/-! ## First tokens -/

/-- Both spellings are read as the same opcode, if any, as the same keyword, if any, and as closing
words alike, and they are neither the header nor the terminator of an object. -/
theorem Respelled.reads_alike {word other : String} (h : Respelled word other) :
    Opcode.ofWord? other = Opcode.ofWord? word ∧
      RoutineKind.ofWord? other = RoutineKind.ofWord? word ∧
      Style.isClosing other = Style.isClosing word ∧ word ≠ header ∧ word ≠ terminator := by
  cases h with
  | opcode opcode old new => cases opcode <;> cases old <;> cases new <;> decide
  | keyword kind old new => cases kind <;> cases old <;> cases new <;> decide
  | closing old new => cases old <;> cases new <;> decide

/-- Headers with keywords of one meaning are read alike, but for their lines. -/
theorem reported_readHeader_word {word other : String}
    (hkind : RoutineKind.ofWord? other = RoutineKind.ofWord? word)
    (halike : (ObjectProblem.unknownRoutineKind word).Alike (.unknownRoutineKind other))
    (line newLine : Nat) (operands : List Token) :
    Reported (fun header : Header => { header with line := newLine })
      (readHeader line (.word word) operands) (readHeader newLine (.word other) operands) := by
  simp only [readHeader, expectWord, bind, Except.bind, pure, Except.pure, hkind]
  cases RoutineKind.ofWord? word with
  | none => exact .error halike
  | some kind =>
    cases nextWord "routine header" 2 operands with
    | error problem => exact .error (.refl problem)
    | ok found =>
      simp only
      cases allWords found.2 with
      | error problem => exact .error (.refl problem)
      | ok params => exact .ok (Header.mk line kind (unmarked found.1) params)

namespace SameFirst

variable {first other : Token} (h : SameFirst first other)

include h

theorem header_iff : other = .word header ↔ first = .word header := by
  cases h with
  | refl => exact Iff.rfl
  | respelled h => simp [h.reads_alike.2.2.2.1, h.symm.reads_alike.2.2.2.1]

theorem terminator_iff : other.text = terminator ↔ first.text = terminator := by
  cases h with
  | refl => exact Iff.rfl
  | respelled h => simp [Token.text, h.reads_alike.2.2.2.2, h.symm.reads_alike.2.2.2.2]

theorem isClosing_eq : Style.isClosing other.text = Style.isClosing first.text := by
  cases h with
  | refl => rfl
  | respelled h => exact h.reads_alike.2.2.1

/-- Headers are read alike, but for their lines. -/
theorem reported_readHeader (line newLine : Nat) (operands : List Token) :
    Reported (fun header : Header => { header with line := newLine })
      (readHeader line first operands) (readHeader newLine other operands) := by
  cases h with
  | refl =>
    cases first with
    | quoted text => exact .error (.refl _)
    | word keyword => exact reported_readHeader_word rfl (.refl _) line newLine operands
  | respelled h =>
    exact reported_readHeader_word h.reads_alike.2.1 (.unknownRoutineKind h) line newLine operands

/-- Instructions are read alike. -/
theorem reported_readInstruction (operands : List Token) :
    Reported id (readInstruction first operands) (readInstruction other operands) := by
  cases h with
  | refl => exact .refl _
  | @respelled word other h =>
    rw [readInstruction, readInstruction, Token.text, Token.text, h.reads_alike.1]
    cases Opcode.ofWord? word with
    | none => exact .error (.unknownOpcode h)
    | some opcode => exact .refl _

end SameFirst

/-! ## Readers of both texts -/

namespace Reader

/-- The reader of the new text: the header of a routine stands on the line that corresponds to the
old one. -/
def moved (place : Nat → Nat) : Reader → Reader
  | within routines header code => within routines { header with line := place header.line } code
  | reader => reader

/-- Both texts take the reader to corresponding places, or have corresponding problems. -/
inductive Corresponds (place : Nat → Nat) :
    Except ObjectError Reader → Except ObjectError Reader → Prop
  | ok (reader : Reader) : Corresponds place (.ok reader) (.ok (reader.moved place))
  | error {old new : ObjectError} (hline : new.line = place old.line)
      (hproblem : old.problem.Alike new.problem) : Corresponds place (.error old) (.error new)

theorem awaits?_moved (place : Nat → Nat) (reader : Reader) :
    (reader.moved place).awaits? = reader.awaits? := by
  cases reader <;> rfl

theorem Corresponds.exists_error {place : Nat → Nat} {old : ObjectError}
    {outcome : Except ObjectError Reader} (h : Corresponds place (.error old) outcome) :
    ∃ new, outcome = .error new ∧ new.line = place old.line ∧ old.problem.Alike new.problem := by
  cases h with
  | error hline hproblem => exact ⟨_, rfl, hline, hproblem⟩

theorem Corresponds.eq_moved {place : Nat → Nat} {reader : Reader}
    {outcome : Except ObjectError Reader} (h : Corresponds place (.ok reader) outcome) :
    outcome = .ok (reader.moved place) := by
  cases h with
  | ok => rfl

variable {place : Nat → Nat}

theorem corresponds_complete (routines : List Routine) (header : Header) (code : List Instruction) :
    Corresponds place (complete routines header code)
      (complete routines { header with line := place header.line } code) := by
  unfold complete
  cases Routine.new header.kind header.name header.params code.reverse with
  | error e => exact .error rfl (.refl _)
  | ok routine =>
    by_cases hname : routine.name ∈ routines.map Routine.name
    · simpa only [if_pos hname] using .error rfl (.refl _)
    · simpa only [if_neg hname] using .ok (between (routine :: routines))

section

variable {line newLine : Nat} (hline : newLine = place line)

include hline

/-- What is reported of a line is reported of the line that corresponds to it. -/
theorem corresponds_located {α β : Type} {change : α → β} {old : Except ObjectProblem α}
    {new : Except ObjectProblem β} (h : Reported change old new) {f : α → Except ObjectError Reader}
    {g : β → Except ObjectError Reader}
    (hf : ∀ a, old = .ok a → Corresponds place (f a) (g (change a))) :
    Corresponds place (located line old >>= f) (located newLine new >>= g) := by
  cases h with
  | ok a => exact hf a rfl
  | error h => exact .error hline h

/-- Lines with the same tokens, up to the spelling of the first one, take both readers on alike. -/
theorem corresponds_stepTokens (reader : Reader) {first other : Token} (h : SameFirst first other)
    (operands : List Token) :
    Corresponds place (reader.stepTokens line first operands)
      ((reader.moved place).stepTokens newLine other operands) := by
  cases reader with
  | start =>
    simp only [moved, stepTokens, h.header_iff]
    split
    · exact .ok (between [])
    · exact .error hline (.missingHeader _ _)
  | between routines =>
    simp only [moved, stepTokens, h.terminator_iff]
    split
    · exact corresponds_located hline (.refl _) fun _ _ => .ok (done routines)
    · refine corresponds_located hline (h.reported_readHeader line newLine operands) ?_
      intro header hheader
      obtain ⟨keyword, kind, name, params, -, -, -, rfl⟩ := readHeader_eq_ok hheader
      exact hline ▸ .ok (within routines { line, kind, name := unmarked name, params } [])
  | within routines header code =>
    simp only [moved, stepTokens, h.isClosing_eq]
    split
    · exact corresponds_located hline (.refl _) fun _ _ => corresponds_complete routines header code
    · exact corresponds_located hline (h.reported_readInstruction operands) fun instruction _ =>
        .ok (within routines header (instruction :: code))
  | done routines => exact .ok (done routines)

/-- An edited line takes the new reader on like the old line the old one. -/
theorem corresponds_step (reader : Reader) {old new : List Char} (h : Edited old new) :
    Corresponds place (reader.step line old) ((reader.moved place).step newLine new) := by
  by_cases hdone : ∃ routines, reader = done routines
  · obtain ⟨routines, rfl⟩ := hdone
    exact .ok (done routines)
  have hreader : ∀ routines, reader ≠ done routines := fun routines heq => hdone ⟨routines, heq⟩
  have hmoved : ∀ routines, reader.moved place ≠ done routines := by
    intro routines
    cases reader with
    | done others => exact absurd rfl (hreader others)
    | _ => simp [moved]
  have htokens := h.tokens
  revert htokens
  cases hold : Token.ofLine? old with
  | none =>
    intro htokens
    cases hnew : Token.ofLine? new with
    | some tokens => rw [hnew] at htokens; cases htokens
    | none =>
      rw [step_of_unterminated hold hreader, step_of_unterminated hnew hmoved]
      exact .error hline (.refl _)
  | some tokens =>
    intro htokens
    cases hnew : Token.ofLine? new with
    | none => rw [hnew] at htokens; cases htokens
    | some others =>
      rw [hnew] at htokens
      cases htokens with
      | some hsame =>
        cases hsame with
        | nil =>
          rw [step_of_no_tokens hold, step_of_no_tokens hnew]
          exact .ok reader
        | cons hfirst operands =>
          rw [step_of_tokens hold hreader, step_of_tokens hnew hmoved]
          exact corresponds_stepTokens hline reader hfirst operands

end

/-- Both readers go on with corresponding lines.  The lines from {lit}`line` on are numbered alike
in {lit}`place` and by the revisions that are left. -/
theorem corresponds_run {revisions : List Revision}
    (hharmless : ∀ revision ∈ revisions, revision.Harmless) {line newLine : Nat}
    (hplace : ∀ i, i ≠ 0 → place (line + i) = newLine + Revision.place revisions i)
    (reader : Reader) :
    Corresponds place (reader.run (line + 1) (Revision.oldLines revisions))
      ((reader.moved place).run (newLine + 1) (Revision.newLines revisions)) := by
  induction revisions generalizing line newLine reader with
  | nil => exact .ok reader
  | cons revision rest ih =>
    rw [List.forall_mem_cons] at hharmless
    cases revision with
    | inserted cs =>
      have hskip := step_of_no_tokens (Relaid.ofLine?_of_nil hharmless.1) (reader.moved place)
        (newLine + 1)
      rw [Revision.oldLines, Revision.newLines, run_cons_of_step hskip]
      refine ih hharmless.2 (fun i hi => ?_) reader
      rw [hplace i hi, Revision.place_inserted cs rest hi]
      omega
    | edited old new =>
      have hline : newLine + 1 = place (line + 1) := by
        rw [hplace 1 (by decide), Revision.place, Revision.place_zero]
      have hrest : ∀ i, i ≠ 0 → place (line + 1 + i) = newLine + 1 + Revision.place rest i := by
        intro i hi
        have hnext := hplace (i + 1) (Nat.succ_ne_zero i)
        rw [Revision.place] at hnext
        rw [Nat.add_assoc, Nat.add_comm 1 i, hnext]
        omega
      have hstep := corresponds_step hline reader hharmless.1
      rw [Revision.oldLines, Revision.newLines]
      cases hold : reader.step (line + 1) old with
      | error problem =>
        rw [hold] at hstep
        obtain ⟨other, hnew, hother, halike⟩ := hstep.exists_error
        rw [run, run, hold, hnew]
        exact .error hother halike
      | ok next =>
        rw [hold] at hstep
        rw [run_cons_of_step hold, run_cons_of_step hstep.eq_moved]
        exact ih hharmless.2 hrest next

end Reader

/-! ## Revised texts -/

/-- What a text is read as depends on its tokens and the meaning of their spellings alone.  If a
text arises from another one by revisions, the same program is read from both, or both have the
same problem: an early end on their last lines, and any other on corresponding lines, one of which
is an edited form of the other. -/
theorem readObject_revised {revisions : List Revision} {text other : String}
    (h : Revises revisions text other) :
    (∀ program, readObject text = .ok program ↔ readObject other = .ok program) ∧
    ∀ error, readObject text = .error error → ∃ found, readObject other = .error found ∧
      error.problem.Alike found.problem ∧
      if error.problem.extent = .text then found.line = (lines other).length
      else found.line = Revision.place revisions error.line ∧
        ∃ old new, (lines text)[error.line - 1]? = some old ∧
          (lines other)[found.line - 1]? = some new ∧ Edited old new := by
  have hruns : Reader.Corresponds (Revision.place revisions)
      (Reader.start.run 1 (Revision.oldLines revisions))
      (Reader.start.run 1 (Revision.newLines revisions)) :=
    Reader.corresponds_run h.harmless (by simp) .start
  rw [h.old, h.new] at hruns
  rcases readObject_cases text with ⟨error, hrun, hread⟩ | ⟨reader, expected, hrun, hawaits, hread⟩ |
    ⟨routines, program, hrun, hnew, hread⟩
  · rw [hrun] at hruns
    obtain ⟨found, hfound, hline, halike⟩ := hruns.exists_error
    have hother := readObject_of_run_error hfound
    refine ⟨fun program => by simp [hread, hother], fun problem hproblem => ?_⟩
    obtain rfl := Except.error.inj (hread.symm.trans hproblem)
    refine ⟨found, hother, halike, ?_⟩
    obtain ⟨last, hlast, -, hextent, hpos, hle, -⟩ := foundAt_of_run hrun
    rw [if_neg hextent]
    obtain ⟨old, hold⟩ : ∃ old, (lines text)[error.line - 1]? = some old :=
      ⟨_, List.getElem?_eq_getElem (by omega)⟩
    obtain ⟨new, hmem, hnew⟩ := Revision.exists_edited_place (h.old ▸ hold)
    rw [Nat.sub_add_cancel hpos, h.new, ← hline] at hnew
    exact ⟨hline, old, new, hold, hnew, h.harmless _ hmem⟩
  · rw [hrun] at hruns
    have hother := readObject_of_run_awaits hruns.eq_moved
      ((Reader.awaits?_moved _ reader).trans hawaits)
    refine ⟨fun program => by simp [hread, hother], fun problem hproblem => ?_⟩
    obtain rfl := Except.error.inj (hread.symm.trans hproblem)
    exact ⟨_, hother, .refl _, rfl⟩
  · rw [hrun] at hruns
    have hother : readObject other = .ok program := readObject_of_run_done hruns.eq_moved hnew
    refine ⟨fun found => by rw [hread, hother], fun problem hproblem => ?_⟩
    cases hread.symm.trans hproblem

namespace Handwritten

/-- A text with a problem on its fourth line: a keyword stands where an instruction should. -/
def text : String :=
  "GBO/1.0\nprocedure Go\n  enter\nfunction \"no;\" 3\n"

/-- The same text with other spellings, blanks and comments. -/
def other : String :=
  "; by hand\nGBO/1.0;\n\nP  Go\ne\n\tF\"no;\" 3 ; what\n"

/-- How the lines of the second text arise from those of the first. -/
def revisions : List Revision :=
  [.inserted "; by hand".toList, .edited "GBO/1.0".toList "GBO/1.0;".toList, .inserted [],
    .edited "procedure Go".toList "P  Go".toList, .edited "  enter".toList "e".toList,
    .edited "function \"no;\" 3".toList "\tF\"no;\" 3 ; what".toList]

theorem revises : Revises revisions text other where
  harmless := by
    have hblank : Text.isBlank ' ' ∧ Text.isBlank '\t' := by decide
    have hinside : Token.Inside "no;".toList :=
      .plain (by decide) (by decide) (.plain (by decide) (by decide)
        (.plain (by decide) (by decide) .nil))
    have hnumber : Relaid "3".toList "3 ; what".toList :=
      @Relaid.word "3" [] " ; what".toList (by decide) (by decide) (by decide)
        (.added hblank.1 (.commented " what".toList))
    simp only [revisions, List.forall_mem_cons, List.not_mem_nil, false_implies, implies_true,
      and_true]
    refine ⟨.commented " by hand".toList, ?_, .nil, ?_, ?_, ?_⟩
    · exact .relaid (@Relaid.word "GBO/1.0" [] [';'] (by decide) (by decide) (by decide)
        (.commented []))
    · exact @Edited.respelled [] [] (by simp) (by simp) "procedure" "P"
        (.keyword .procedure .verbose .compact) " Go".toList "  Go".toList (by decide) (by decide)
        (.removed hblank.1 (.added hblank.1 (.added hblank.1 (.refl "Go".toList))))
    · exact @Edited.respelled [' ', ' '] [] (by simp [hblank.1]) (by simp) "enter" "e"
        (.opcode .enter .verbose .compact) [] [] (by decide) (by decide) .nil
    · exact @Edited.respelled [] ['\t'] (by simp) (by simp [hblank.2]) "function" "F"
        (.keyword .function .verbose .compact) " \"no;\" 3".toList "\"no;\" 3 ; what".toList
        (by decide) (by decide)
        (.removed hblank.1 (.quoted hinside (.removed hblank.1 (.added hblank.1 hnumber))))
  old := by decide +kernel
  new := by decide +kernel

end Handwritten

theorem readObject_revised_handwritten :
    Revises Handwritten.revisions Handwritten.text Handwritten.other ∧
      readObject Handwritten.text = .error ⟨4, .unknownOpcode "function"⟩ ∧
      ∃ found, readObject Handwritten.other = .error found ∧ found.line = 6 ∧
        (ObjectProblem.unknownOpcode "function").Alike found.problem := by
  have hread : readObject Handwritten.text = .error ⟨4, .unknownOpcode "function"⟩ :=
    eq_error_of_errorOf? (by decide +kernel)
  obtain ⟨found, hfound, halike, hline, -⟩ := (readObject_revised Handwritten.revises).2 _ hread
  exact ⟨Handwritten.revises, hread, found, hfound, hline, halike⟩

end Gobstones
