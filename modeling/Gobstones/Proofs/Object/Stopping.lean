import Mathlib.Data.List.Nodup
import Gobstones.Proofs.Object.Steps
/-!
# Where reading stops

This module says how much of a text is read.  Reading stops at the terminator and at the first
problem, and what follows makes no difference.  A problem is reported on the line where it is
found; only repeated names and unresolved labels are reported at the header of their routine,
although they are found at its closing line.

Main definitions:

- {lit}`ObjectText.lines`: the lines of a text.
- {lit}`Token.leading?`: the text of the first token of a line.
- {lit}`ObjectText.Closing`: the closing line of the routine with a header.
- {lit}`Reader.Tracks`: what the reader knows of the lines that were read.

Main results:

- Theorem {lit}`Reader.tracks_of_run`: the reader knows where its routine starts.
- Theorem {lit}`readObject_cases`: the three ways in which reading ends.
- Theorem {lit}`readObject_stops`: reading does not look ahead.
-/

namespace Gobstones

/-! ## Lines -/

namespace Token

/-- The text of the first token of a line. -/
def leading? (cs : List Char) : Option String :=
  (ofLine? cs).bind fun tokens => tokens.head?.map text

theorem leading?_of_tokens {cs : List Char} {first : Token} {operands : List Token}
    (h : ofLine? cs = some (first :: operands)) : leading? cs = some first.text := by
  simp [leading?, h]

theorem leading?_of_no_tokens {cs : List Char} (h : ofLine? cs = some []) :
    leading? cs = none := by
  simp [leading?, h]

end Token

namespace ObjectText

/-- The lines of a text. -/
def lines (text : String) : List (List Char) :=
  splitLines text.toList

/-- A line that starts with the terminator. -/
def Terminates (cs : List Char) : Prop :=
  Token.leading? cs = some terminator

/-- A line that starts with the keyword of a kind of routine. -/
def Opens (cs : List Char) : Prop :=
  ∃ kind, (Token.leading? cs).bind RoutineKind.ofWord? = some kind

/-- A line that starts with a word that closes routines. -/
def Closes (cs : List Char) : Prop :=
  ∃ text, Token.leading? cs = some text ∧ Style.isClosing text

/-- The last line of the routine whose header stands on a line: the next one that closes a
routine.  Lines are counted from one. -/
structure Closing (lines : List (List Char)) (header last : Nat) : Prop where
  pos : 0 < header
  lt : header < last
  opens : ∃ cs, lines[header - 1]? = some cs ∧ Opens cs
  closes : ∃ cs, lines[last - 1]? = some cs ∧ Closes cs
  next : ∀ i cs, header ≤ i → i < last - 1 → lines[i]? = some cs → ¬Closes cs

end ObjectText

/-- A problem is found where it is reported, or at the last line of the routine at whose header it
is reported. -/
def ObjectError.FoundAt (error : ObjectError) (lines : List (List Char)) (last : Nat) : Prop :=
  match error.problem.extent with
  | .line => last = error.line
  | .routine => ObjectText.Closing lines error.line last
  | .text => last = lines.length

/-! ## What the reader knows of the lines -/

namespace Reader

open ObjectText

/-- What the reader knows of the lines that were read: none of them starts with the terminator,
and the routine that is being read starts on the line of its header and was not closed yet. -/
def Tracks (lines : List (List Char)) : Reader → Prop
  | start | between _ => ∀ cs ∈ lines, ¬Terminates cs
  | within _ header _ => (∀ cs ∈ lines, ¬Terminates cs) ∧ 0 < header.line ∧
      (∃ cs, lines[header.line - 1]? = some cs ∧ Opens cs) ∧
      ∀ cs ∈ lines.drop header.line, ¬Closes cs
  | done _ => True

theorem Tracks.not_terminates {lines : List (List Char)} {reader : Reader}
    (h : reader.Tracks lines) (hreader : ∀ routines, reader ≠ done routines) :
    ∀ cs ∈ lines, ¬Terminates cs := by
  cases reader with
  | start | between routines => exact h
  | within routines header code => exact h.1
  | done routines => exact absurd rfl (hreader routines)

/-- The header of the routine that is being read was read. -/
theorem Tracks.line_le {lines : List (List Char)} {routines : List Routine} {header : Header}
    {code : List Instruction} (h : (within routines header code).Tracks lines) :
    header.line ≤ lines.length := by
  obtain ⟨-, hpos, ⟨cs, hcs, -⟩, -⟩ := h
  have := (List.getElem?_eq_some_iff.1 hcs).1
  omega

/-- A line that does not start with the terminator or with a closing word is one more line. -/
theorem Tracks.append {lines : List (List Char)} {routines : List Routine} {header : Header}
    {code : List Instruction} (h : (within routines header code).Tracks lines) {cs : List Char}
    (hterminates : ¬Terminates cs) (hcloses : ¬Closes cs) (next : List Instruction) :
    (within routines header next).Tracks (lines ++ [cs]) := by
  have hle := h.line_le
  obtain ⟨hunterminated, hpos, ⟨opening, hopening, hopens⟩, hopen⟩ := h
  refine ⟨?_, hpos, ⟨opening, ?_, hopens⟩, ?_⟩
  · simpa [or_imp, forall_and] using ⟨hunterminated, hterminates⟩
  · rw [List.getElem?_append_left (by omega), hopening]
  · rw [List.drop_append_of_le_length hle]
    simpa [or_imp, forall_and] using ⟨hopen, hcloses⟩

/-- Opcodes are no terminators. -/
theorem ne_terminator_of_readInstruction {first : Token} {operands : List Token}
    {instruction : Instruction} (h : readInstruction first operands = .ok instruction) :
    first.text ≠ ObjectText.terminator := by
  intro heq
  have hword : Opcode.ofWord? ObjectText.terminator = none := by decide
  simp [readInstruction, heq, hword] at h

/-- The reader keeps track of every line. -/
theorem Tracks.step {before : List (List Char)} {reader next : Reader}
    (h : reader.Tracks before) {cs : List Char}
    (hstep : reader.step (before.length + 1) cs = .ok next) : next.Tracks (before ++ [cs]) := by
  by_cases hdone : ∃ routines, reader = done routines
  · obtain ⟨routines, rfl⟩ := hdone
    obtain rfl := Except.ok.inj hstep
    trivial
  have hreader : ∀ routines, reader ≠ done routines := fun routines heq => hdone ⟨routines, heq⟩
  have hbefore := h.not_terminates hreader
  rcases goes_of_step hreader hstep with ⟨htokens, rfl⟩ | ⟨first, operands, htokens, hgoes⟩
  · have hleading := Token.leading?_of_no_tokens htokens
    have hterminates : ¬Terminates cs := by simp [Terminates, hleading]
    have hcloses : ¬Closes cs := by simp [Closes, hleading]
    cases next with
    | start | between routines =>
      simpa [Tracks, or_imp, forall_and] using ⟨hbefore, hterminates⟩
    | within routines header code => exact h.append hterminates hcloses code
    | done routines => trivial
  · have hleading := Token.leading?_of_tokens htokens
    have hall (hfirst : first.text ≠ ObjectText.terminator) :
        ∀ cs' ∈ before ++ [cs], ¬Terminates cs' := by
      simpa [Terminates, hleading, or_imp, forall_and] using ⟨hbefore, hfirst⟩
    cases hgoes with
    | header => exact hall (by decide)
    | terminator hfirst => trivial
    | opens hfirst hheader =>
      obtain ⟨keyword, kind, name, params, rfl, hkind, -, rfl⟩ := readHeader_eq_ok hheader
      refine ⟨hall hfirst, Nat.succ_pos _, ⟨cs, by simp, kind, ?_⟩, by simp⟩
      rw [hleading]
      exact hkind
    | instruction hfirst hinstruction =>
      refine h.append ?_ ?_ _
      · simpa [Terminates, hleading] using ne_terminator_of_readInstruction hinstruction
      · simpa [Closes, hleading] using hfirst
    | closes hfirst hroutine hname =>
      refine hall fun heq => ?_
      rw [heq] at hfirst
      exact absurd hfirst (by decide)

/-- The reader keeps track of all lines. -/
theorem tracks_of_run {lines : List (List Char)} {reader : Reader}
    (h : start.run 1 lines = .ok reader) : reader.Tracks lines :=
  run_induction (List.forall_mem_nil _) (fun _ _ _ _ htracks hstep => htracks.step hstep) h

/-! ## Routines that were read -/

/-- The complete routines. -/
def routines : Reader → List Routine
  | start => []
  | between routines => routines
  | within routines _ _ => routines
  | done routines => routines

/-- What the reader still expects if the text ends. -/
def awaits? : Reader → Option String
  | start => some "header line \"GBO/1.0\""
  | between _ => some terminator
  | within .. => some Style.verbose.closing
  | done _ => none

/-- Complete routines have distinct names. -/
theorem nodup_of_run {lines : List (List Char)} {reader : Reader}
    (h : start.run 1 lines = .ok reader) : (reader.routines.map Routine.name).Nodup := by
  refine run_induction (motive := fun _ reader => (reader.routines.map Routine.name).Nodup)
    List.nodup_nil (fun _ reader _ next hnodup hstep => ?_) h
  by_cases hdone : ∃ routines, reader = done routines
  · obtain ⟨routines, rfl⟩ := hdone
    obtain rfl := Except.ok.inj hstep
    exact hnodup
  rcases goes_of_step (fun routines heq => hdone ⟨routines, heq⟩) hstep with
    ⟨-, rfl⟩ | ⟨first, operands, -, hgoes⟩
  · exact hnodup
  · cases hgoes with
    | closes hfirst hroutine hname => exact List.nodup_cons.2 ⟨hname, hnodup⟩
    | _ => exact hnodup

end Reader

/-! ## Texts -/

open ObjectText

/-- Reading ends with a problem on one of the lines, with the lines, or at the terminator. -/
theorem readObject_cases (text : String) :
    (∃ error, Reader.start.run 1 (lines text) = .error error ∧ readObject text = .error error) ∨
    (∃ reader expected, Reader.start.run 1 (lines text) = .ok reader ∧
      reader.awaits? = some expected ∧
      readObject text = .error ⟨(lines text).length, .unexpectedEnd expected⟩) ∨
    ∃ routines program, Reader.start.run 1 (lines text) = .ok (.done routines) ∧
      Program.new routines.reverse = .ok program ∧ readObject text = .ok program := by
  unfold readObject
  change (∃ error, _ ∧ (Reader.start.run 1 (lines text) >>= _) = _) ∨
    (∃ reader expected, _ ∧ _ ∧ (Reader.start.run 1 (lines text) >>= _) = _) ∨
    ∃ routines program, _ ∧ _ ∧ (Reader.start.run 1 (lines text) >>= _) = _
  cases hrun : Reader.start.run 1 (lines text) with
  | error error => exact .inl ⟨error, rfl, rfl⟩
  | ok reader =>
    cases reader with
    | start | between routines | within routines header code =>
      exact .inr (.inl ⟨_, _, rfl, rfl, rfl⟩)
    | done routines =>
      have hnodup : (routines.reverse.map Routine.name).Nodup :=
        List.map_reverse ▸ List.nodup_reverse.2 (Reader.nodup_of_run hrun)
      obtain ⟨program, hnew⟩ := Program.exists_new hnodup
      refine .inr (.inr ⟨routines, program, rfl, hnew, ?_⟩)
      change Reader.located _ ((Program.new routines.reverse).mapError _) = _
      rw [hnew]
      rfl

theorem readObject_of_run_error {text : String} {error : ObjectError}
    (h : Reader.start.run 1 (lines text) = .error error) : readObject text = .error error := by
  rcases readObject_cases text with ⟨other, hrun, hread⟩ | ⟨_, _, hrun, -⟩ | ⟨_, _, hrun, -⟩
  · obtain rfl := Except.error.inj (h.symm.trans hrun)
    exact hread
  · cases h.symm.trans hrun
  · cases h.symm.trans hrun

theorem readObject_of_run_awaits {text : String} {reader : Reader} {expected : String}
    (h : Reader.start.run 1 (lines text) = .ok reader) (hawaits : reader.awaits? = some expected) :
    readObject text = .error ⟨(lines text).length, .unexpectedEnd expected⟩ := by
  rcases readObject_cases text with ⟨_, hrun, -⟩ | ⟨other, _, hrun, hother, hread⟩ | ⟨_, _, hrun, -⟩
  · cases h.symm.trans hrun
  · obtain rfl := Except.ok.inj (h.symm.trans hrun)
    rw [hread, Option.some.inj (hother.symm.trans hawaits)]
  · obtain rfl := Except.ok.inj (h.symm.trans hrun)
    cases hawaits

theorem readObject_of_run_done {text : String} {routines : List Routine} {program : Program}
    (h : Reader.start.run 1 (lines text) = .ok (.done routines))
    (hnew : Program.new routines.reverse = .ok program) : readObject text = .ok program := by
  rcases readObject_cases text with ⟨_, hrun, -⟩ | ⟨reader, _, hrun, hawaits, -⟩ |
    ⟨_, other, hrun, hother, hread⟩
  · cases h.symm.trans hrun
  · obtain rfl := Except.ok.inj (h.symm.trans hrun)
    cases hawaits
  · obtain rfl := Reader.done.inj (Except.ok.inj (h.symm.trans hrun))
    rw [hread, Except.ok.inj (hnew.symm.trans hother)]

/-- The lines up to one of them. -/
theorem take_succ_length {α : Type} (before after : List α) (a : α) :
    (before ++ a :: after).take (before.length + 1) = before ++ [a] := by
  rw [List.take_length_add_append]
  simp

/-- A line at which the run stops is where the problem is found, and it is reported on one of the
lines. -/
theorem foundAt_of_run {lines : List (List Char)} {error : ObjectError}
    (h : Reader.start.run 1 lines = .error error) :
    ∃ last, last ≤ lines.length ∧ error.FoundAt lines last ∧ error.problem.extent ≠ .text ∧
      0 < error.line ∧ error.line ≤ last ∧
      Reader.start.run 1 (lines.take last) = .error error := by
  obtain ⟨before, cs, after, reader, rfl, hrun, hstep⟩ := Reader.exists_step_of_run_error h
  have hlast : Reader.start.run 1 (before ++ [cs]) = .error error := by
    rw [Reader.run_append, hrun]
    change reader.run (1 + before.length) [cs] = .error error
    rw [Reader.run, hstep]
    rfl
  rw [Nat.add_comm] at hstep
  refine ⟨before.length + 1, by simp, ?_⟩
  rw [take_succ_length]
  have hfound (hline : error.line = before.length + 1) (hextent : error.problem.extent = .line) :
      error.FoundAt (before ++ cs :: after) (before.length + 1) ∧ error.problem.extent ≠ .text ∧
        0 < error.line ∧ error.line ≤ before.length + 1 ∧
        Reader.start.run 1 (before ++ [cs]) = .error error := by
    refine ⟨?_, by simp [hextent], by omega, by omega, hlast⟩
    rw [ObjectError.FoundAt, hextent]
    exact hline.symm
  rcases Reader.stops_of_step hstep with rfl | ⟨first, operands, htokens, hstops⟩
  · exact hfound rfl rfl
  · cases hstops with
    | here hextent => exact hfound rfl hextent
    | @atHeader routines header code first problem hfirst hextent =>
      have htracks := Reader.tracks_of_run hrun
      have hle := htracks.line_le
      obtain ⟨-, hpos, ⟨opening, hopening, hopens⟩, hopen⟩ := htracks
      refine ⟨?_, by simp [hextent], hpos, Nat.le_succ_of_le hle, hlast⟩
      rw [ObjectError.FoundAt, hextent]
      change Closing _ header.line _
      refine ⟨hpos, Nat.lt_succ_of_le hle, ⟨opening, ?_, hopens⟩,
        ⟨cs, by simp, first.text, Token.leading?_of_tokens htokens, hfirst⟩, ?_⟩
      · rw [List.getElem?_append_left (by omega), hopening]
      · intro i other hi hlt hother
        rw [Nat.add_sub_cancel] at hlt
        rw [List.getElem?_append_left hlt] at hother
        refine hopen other (List.mem_of_getElem? (i := i - header.line) ?_)
        rwa [List.getElem?_drop, Nat.add_sub_cancel' hi]

/-- The terminator is the first line that starts like one. -/
theorem terminates_of_run {lines : List (List Char)} {routines : List Routine}
    (h : Reader.start.run 1 lines = .ok (.done routines)) :
    ∃ last, 0 < last ∧ (∃ cs, lines[last - 1]? = some cs ∧ Terminates cs) ∧
      (∀ cs ∈ lines.take (last - 1), ¬Terminates cs) ∧
      Reader.start.run 1 (lines.take last) = .ok (.done routines) := by
  obtain ⟨before, cs, after, reader, rfl, hrun, hreader, hstep⟩ :=
    Reader.exists_step_of_run_done (by simp) h
  have hterminates : Terminates cs := by
    rcases Reader.goes_of_step hreader hstep with ⟨-, heq⟩ | ⟨first, operands, htokens, hgoes⟩
    · exact absurd heq.symm (hreader routines)
    · cases hgoes with
      | terminator hfirst => rw [Terminates, Token.leading?_of_tokens htokens, hfirst]
  refine ⟨before.length + 1, Nat.succ_pos _, ⟨cs, by simp, hterminates⟩, ?_, ?_⟩
  · simpa using (Reader.tracks_of_run hrun).not_terminates hreader
  · rw [take_succ_length, Reader.run_append, hrun]
    exact Reader.run_cons_of_step hstep []

/-- Reading does not look ahead.  A text that is read is read up to the first line that starts with
the terminator, whatever follows.  A problem that is not an early end is found at a line, and every
text with the same lines up to there has it too.  An early end is reported on the last line, and
every problem on one of the lines, if there are any. -/
theorem readObject_stops (text : String) :
    (∀ program, readObject text = .ok program →
      ∃ last, 0 < last ∧ (∃ cs, (lines text)[last - 1]? = some cs ∧ Terminates cs) ∧
        (∀ cs ∈ (lines text).take (last - 1), ¬Terminates cs) ∧
        ∀ other, (lines text).take last <+: lines other → readObject other = .ok program) ∧
    ∀ error, readObject text = .error error →
      (if error.problem.extent = .text then error.line = (lines text).length
        else ∃ last, last ≤ (lines text).length ∧ error.FoundAt (lines text) last ∧
          ∀ other, (lines text).take last <+: lines other → readObject other = .error error) ∧
      (0 < error.line ∧ error.line ≤ (lines text).length ∨ error.line = 0 ∧ lines text = []) := by
  have hprefix {other : String} {last : Nat} {outcome : Except ObjectError Reader}
      (h : Reader.start.run 1 ((lines text).take last) = outcome)
      (hother : (lines text).take last <+: lines other) :
      ∃ rest, Reader.start.run 1 (lines other) =
        outcome.bind fun next => next.run (1 + ((lines text).take last).length) rest := by
    obtain ⟨rest, hrest⟩ := hother
    exact ⟨rest, by rw [← hrest, Reader.run_append, h]⟩
  rcases readObject_cases text with ⟨error, hrun, hread⟩ | ⟨reader, expected, hrun, -, hread⟩ |
    ⟨routines, program, hrun, hnew, hread⟩
  · refine ⟨(fun program h => nomatch hread.symm.trans h), fun other h => ?_⟩
    obtain rfl := Except.error.inj (hread.symm.trans h)
    obtain ⟨last, hle, hfound, hextent, hpos, hline, hlast⟩ := foundAt_of_run hrun
    refine ⟨?_, .inl ⟨hpos, hline.trans hle⟩⟩
    rw [if_neg hextent]
    refine ⟨last, hle, hfound, fun other hother => ?_⟩
    obtain ⟨rest, hrest⟩ := hprefix hlast hother
    exact readObject_of_run_error hrest
  · refine ⟨(fun program h => nomatch hread.symm.trans h), fun other h => ?_⟩
    obtain rfl := Except.error.inj (hread.symm.trans h)
    refine ⟨rfl, ?_⟩
    rcases Nat.eq_zero_or_pos (lines text).length with hzero | hpos
    · exact .inr ⟨hzero, List.eq_nil_of_length_eq_zero hzero⟩
    · exact .inl ⟨hpos, Nat.le_refl _⟩
  · refine ⟨fun other h => ?_, fun error h => nomatch hread.symm.trans h⟩
    obtain rfl := Except.ok.inj (hread.symm.trans h)
    obtain ⟨last, hpos, hterminates, hbefore, hlast⟩ := terminates_of_run hrun
    refine ⟨last, hpos, hterminates, hbefore, fun other hother => ?_⟩
    obtain ⟨rest, hrest⟩ := hprefix hlast hother
    exact readObject_of_run_done (hrest.trans (Reader.run_done ..)) hnew

namespace Rivals

/-- A routine whose name differs from an earlier one by its mark alone. -/
def text : String :=
  "GBO/1.0\nprocedure P\nend\n\nprocedure $P\n  enter\nX ; too late\n%%"

/-- A text that goes on behind its terminator. -/
def excess : String :=
  "GBO/1.0\nP $P\nX\n\"%%\" ; over\nprocedure P \"unread"

end Rivals

theorem readObject_stops_rivals :
    (∃ program, readObject Rivals.excess = .ok program ∧
      ∃ last, 0 < last ∧ ∀ other, (lines Rivals.excess).take last <+: lines other →
        readObject other = .ok program) ∧
    readObject Rivals.text = .error ⟨5, .duplicateRoutine "P"⟩ ∧
      ∃ last, Closing (lines Rivals.text) 5 last ∧
        ∀ other, (lines Rivals.text).take last <+: lines other →
          readObject other = .error ⟨5, .duplicateRoutine "P"⟩ := by
  have hread : readObject Rivals.text = .error ⟨5, .duplicateRoutine "P"⟩ :=
    eq_error_of_errorOf? (by decide +kernel)
  have hexcess : (readObject Rivals.excess).toOption.any fun _ => true := by decide +kernel
  obtain ⟨program, hprogram, -⟩ := exists_of_any_toOption hexcess
  obtain ⟨last, hpos, -, -, hother⟩ := (readObject_stops Rivals.excess).1 program hprogram
  refine ⟨⟨program, hprogram, last, hpos, hother⟩, hread, ?_⟩
  obtain ⟨last, -, hfound, hother⟩ := ((readObject_stops Rivals.text).2 _ hread).1
  exact ⟨last, hfound, hother⟩

end Gobstones
