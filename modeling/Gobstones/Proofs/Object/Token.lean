import Gobstones.Object.Writer
import Gobstones.Proofs.Value.Literal
/-!
# Written lines read back

This module shows that written tokens are read back.  Words are separated by blanks,
which they do not contain, and quoted strings by their escapes; a written line has no
line feed inside and no carriage return at its end, so the lines of a text are found
again.

Main definitions:

- {lit}`Token.IsWord`: the texts that can be written as words.
- {lit}`Token.Legible` and {lit}`Token.Unbroken`: the tokens that can be written, and those that
  at least stay in one piece.
- {lit}`IsLine`: the lines that are found again in a text.

Main results:

- Theorem {lit}`Token.ofLine?_spaced`: the tokens of a line are read back.
- Theorem {lit}`splitLines_flatMap`: the lines of a text are found again.
- Theorem {lit}`Value.text_readable`: literals are single words, and no two values share one.
-/

namespace Gobstones

/-! ## Tokens -/

namespace Token

/-- A nonempty text without blanks, semicolons and quotes. -/
def IsWord (text : String) : Prop :=
  text.toList ≠ [] ∧ ∀ c ∈ text.toList, isWordChar c

/-- A token that can be written: a string can hold every text. -/
def Legible : Token → Prop
  | word text => IsWord text
  | quoted _ => True

/-- A token that stays in one piece.  A word may also be empty. -/
def Unbroken : Token → Prop
  | word text => ∀ c ∈ text.toList, isWordChar c
  | quoted _ => True

instance (text : String) : Decidable (IsWord text) :=
  decidable_of_iff (text.toList ≠ [] ∧ text.toList.all isWordChar)
    (and_congr_right' List.all_eq_true)

@[simp]
theorem legible_word {text : String} : (word text).Legible ↔ IsWord text :=
  Iff.rfl

@[simp]
theorem legible_quoted (text : String) : (quoted text).Legible :=
  trivial

theorem Legible.unbroken {token : Token} (h : token.Legible) : token.Unbroken := by
  cases token with
  | word text => exact h.2
  | quoted text => trivial

theorem Legible.ne_empty {token : Token} (h : token.Legible) : token ≠ .word "" := by
  rintro rfl
  exact h.1 rfl

theorem Unbroken.legible {token : Token} (h : token.Unbroken) (hne : token ≠ .word "") :
    token.Legible := by
  cases token with
  | word text => exact ⟨by simpa using hne, h⟩
  | quoted text => trivial

/-- A character is found again behind its escape. -/
theorem quotedText?_escape (c : Char) (rest : List Char) :
    quotedText? (escape c ++ rest) =
      (quotedText? rest).map fun found => (c :: found.1, found.2) := by
  unfold escape
  split
  · simp [quotedText?, unescape]
  · simp [quotedText?, unescape]
  · simp [quotedText?, unescape]
  · next hquote hslash _ =>
    rw [List.singleton_append, quotedText?]
    · exact hquote
    · exact fun hc _ => hslash hc
    · exact fun _ _ hc _ => hslash hc

/-- A quoted text is read up to its closing quote. -/
theorem quotedText?_quote (cs rest : List Char) :
    quotedText? (cs.flatMap escape ++ '"' :: rest) = some (cs, rest) := by
  induction cs with
  | nil => rfl
  | cons c cs ih =>
    rw [List.flatMap_cons, List.append_assoc, quotedText?_escape, ih, Option.map_some]

theorem ofLine?_blank {c : Char} (h : Text.isBlank c) (rest : List Char) :
    ofLine? (c :: rest) = ofLine? rest := by
  have hne : c ≠ ';' := by
    rintro rfl
    exact absurd h (by decide)
  rw [ofLine?, if_neg hne, if_pos h]

/-- A string is read up to its closing quote. -/
theorem ofLine?_of_quotedText? {rest text after : List Char}
    (h : quotedText? rest = some (text, after)) :
    ofLine? ('"' :: rest) = (ofLine? after).map (quoted (String.ofList text) :: ·) := by
  rw [ofLine?, if_neg (by decide), if_neg (by decide), if_pos rfl]
  split
  · next hnone => simp [h] at hnone
  · next found behind hfound =>
    obtain ⟨rfl, rfl⟩ : text = found ∧ after = behind := by simpa [h] using hfound
    rfl

/-- A string is read before what follows it. -/
theorem ofLine?_quoted (text : String) (rest : List Char) :
    ofLine? ((quoted text).chars ++ rest) = (ofLine? rest).map (quoted text :: ·) := by
  have hchars :
      (quoted text).chars ++ rest = '"' :: (text.toList.flatMap escape ++ '"' :: rest) := by
    simp [chars, quote]
  rw [hchars, ofLine?_of_quotedText? (quotedText?_quote ..), String.ofList_toList]

/-- A word is read before what follows it, which must not continue the word. -/
theorem ofLine?_word {text : String} (h : IsWord text) {rest : List Char}
    (hrest : ∀ c ∈ rest.head?, isWordChar c = false) :
    ofLine? ((word text).chars ++ rest) = (ofLine? rest).map (word text :: ·) := by
  obtain ⟨hne, hall⟩ := h
  obtain ⟨c, cs, hcs⟩ := List.exists_cons_of_ne_nil hne
  have hword : ∀ c ∈ cs, isWordChar c := fun c hc => hall c (by simp [hcs, hc])
  have hstop : rest.takeWhile isWordChar = [] ∧ rest.dropWhile isWordChar = rest := by
    cases rest with
    | nil => simp
    | cons c rest => simp [hrest c (by simp)]
  have htake : (cs ++ rest).takeWhile isWordChar = cs := by
    rw [List.takeWhile_append_of_pos hword, hstop.1, List.append_nil]
  have hdrop : (cs ++ rest).dropWhile isWordChar = rest := by
    rw [List.dropWhile_append_of_pos hword, hstop.2]
  have hc : (Text.isBlank c = false ∧ c ≠ ';') ∧ c ≠ '"' := by
    simpa [isWordChar] using hall c (by simp [hcs])
  rw [chars, hcs, List.cons_append, ofLine?, if_neg hc.1.2, if_neg (by simp [hc.1.1]), if_neg hc.2,
    htake, hdrop, ← hcs, String.ofList_toList]

/-- A token is read before a blank. -/
theorem ofLine?_token {token : Token} (h : token.Legible) {rest : List Char}
    (hrest : ∀ c ∈ rest.head?, isWordChar c = false) :
    ofLine? (token.chars ++ rest) = (ofLine? rest).map (token :: ·) := by
  cases token with
  | word text => exact ofLine?_word h hrest
  | quoted text => exact ofLine?_quoted text rest

theorem spaced_cons_cons (first second : Token) (tokens : List Token) :
    spaced (first :: second :: tokens) = first.chars ++ ' ' :: spaced (second :: tokens) := by
  simp [spaced, List.intercalate]

/-- Up to where it ends, a word is one. -/
theorem isWord_takeWhile {c : Char} (h : isWordChar c) (rest : List Char) :
    IsWord (String.ofList (c :: rest.takeWhile isWordChar)) := by
  refine ⟨by simp, fun d hd => ?_⟩
  rw [String.toList_ofList] at hd
  rcases List.mem_cons.1 hd with rfl | hd
  · exact h
  · exact List.all_eq_true.1 List.all_takeWhile d hd

/-- Whatever is read as a token can be written as one. -/
theorem legible_of_ofLine? {cs : List Char} {tokens : List Token} (h : ofLine? cs = some tokens) :
    ∀ token ∈ tokens, token.Legible := by
  fun_induction ofLine? cs generalizing tokens with
  | case1 | case2 =>
    obtain rfl := Option.some.inj h
    simp
  | case3 c rest hcomment hblank ih => exact ih h
  | case4 => cases h
  | case5 rest text after hsome _ _ _ ih =>
    obtain ⟨others, hothers, rfl⟩ := Option.map_eq_some_iff.1 h
    exact List.forall_mem_cons.2 ⟨trivial, ih hothers⟩
  | case6 c rest hcomment hblank hquote _ ih =>
    obtain ⟨others, hothers, rfl⟩ := Option.map_eq_some_iff.1 h
    have hword : isWordChar c := by simp [isWordChar, hcomment, hblank, hquote]
    exact List.forall_mem_cons.2 ⟨isWord_takeWhile hword rest, ih hothers⟩

/-- The tokens of a line are read back, except that an empty word leaves nothing to read. -/
theorem ofLine?_spaced_of_unbroken {tokens : List Token} (h : ∀ token ∈ tokens, token.Unbroken) :
    ofLine? (spaced tokens) = some (tokens.filter (· ≠ .word "")) := by
  have htoken {first : Token} (hfirst : first.Unbroken) {rest : List Char}
      (hrest : ∀ c ∈ rest.head?, isWordChar c = false) {others : List Token}
      (hothers : ofLine? rest = some others) :
      ofLine? (first.chars ++ rest) = some ([first].filter (· ≠ .word "") ++ others) := by
    by_cases hempty : first = .word ""
    · simpa [hempty, chars] using hothers
    · rw [ofLine?_token (hfirst.legible hempty) hrest, hothers]
      simp [hempty]
  induction tokens with
  | nil => simp [spaced, ofLine?]
  | cons first rest ih =>
    rw [List.forall_mem_cons] at h
    cases rest with
    | nil =>
      have hnothing : ofLine? [] = some [] := by rw [ofLine?]
      simpa [spaced] using htoken h.1 (by simp) hnothing
    | cons second rest =>
      have hblank : ofLine? (' ' :: spaced (second :: rest)) =
          some ((second :: rest).filter (· ≠ .word "")) := by
        rw [ofLine?_blank (by decide), ih h.2]
      rw [spaced_cons_cons, htoken h.1 (by simp; decide) hblank, ← List.filter_append,
        List.singleton_append]

/-- The tokens of a line are read back. -/
theorem ofLine?_spaced {tokens : List Token} (h : ∀ token ∈ tokens, token.Legible) :
    ofLine? (spaced tokens) = some tokens := by
  rw [ofLine?_spaced_of_unbroken fun token hmem => (h token hmem).unbroken,
    List.filter_eq_self.2 fun token hmem => by simpa using (h token hmem).ne_empty]

/-- A line may consist of one word. -/
theorem ofLine?_toList {text : String} (h : IsWord text) :
    ofLine? text.toList = some [.word text] := by
  have hline : ofLine? ((word text).chars ++ []) = (ofLine? []).map (word text :: ·) :=
    ofLine?_word h (by simp)
  simpa [chars, ofLine?] using hline

/-- Blanks in front of a line do not matter. -/
theorem ofLine?_blanks {blanks : List Char} (h : ∀ c ∈ blanks, Text.isBlank c) (cs : List Char) :
    ofLine? (blanks ++ cs) = ofLine? cs := by
  induction blanks with
  | nil => rfl
  | cons c blanks ih =>
    rw [List.forall_mem_cons] at h
    rw [List.cons_append, ofLine?_blank h.1, ih h.2]

end Token

/-! ## Lines -/

/-- A text without line feeds that does not end in a carriage return. -/
def IsLine (cs : List Char) : Prop :=
  '\n' ∉ cs ∧ cs.getLast? ≠ some '\r'

instance (cs : List Char) : Decidable (IsLine cs) :=
  inferInstanceAs (Decidable (_ ∧ _))

theorem IsLine.append {first second : List Char} (h : IsLine first) (hsecond : IsLine second) :
    IsLine (first ++ second) := by
  constructor
  · simpa using ⟨h.1, hsecond.1⟩
  · rw [List.getLast?_append]
    cases hlast : second.getLast? with
    | none => simpa [hlast] using h.2
    | some c => simpa [hlast] using hsecond.2

theorem splitLinesFrom_append {cs : List Char} (h : '\n' ∉ cs) (line rest : List Char) :
    splitLinesFrom line (cs ++ '\n' :: rest) =
      (dropReturn (cs.reverse ++ line)).reverse :: splitLinesFrom [] rest := by
  induction cs generalizing line with
  | nil => simp [splitLinesFrom]
  | cons c cs ih =>
    rw [List.mem_cons, not_or] at h
    rw [List.cons_append, splitLinesFrom, if_neg (Ne.symm h.1), ih h.2, List.reverse_cons,
      List.append_assoc, List.singleton_append]

/-- The lines of a text are found again. -/
theorem splitLines_flatMap {lines : List (List Char)} (h : ∀ line ∈ lines, IsLine line) :
    splitLines (lines.flatMap (· ++ ['\n'])) = lines := by
  unfold splitLines
  induction lines with
  | nil => rfl
  | cons line lines ih =>
    rw [List.forall_mem_cons] at h
    obtain ⟨⟨hfeed, hreturn⟩, hlines⟩ := h
    rw [List.flatMap_cons, List.append_assoc, List.singleton_append, splitLinesFrom_append hfeed,
      ih hlines, List.append_nil]
    congr 1
    unfold dropReturn
    split
    · next rest heq =>
      rw [← List.head?_reverse, heq] at hreturn
      simp at hreturn
    · simp

namespace Token

/-- Characters of words stay on a line. -/
theorem isLine_of_isWordChar {cs : List Char} (h : ∀ c ∈ cs, isWordChar c) : IsLine cs := by
  have hne {c d : Char} (hc : c ∈ cs) (hd : isWordChar d = false) : c ≠ d := by
    rintro rfl
    simp [h c hc] at hd
  exact ⟨fun hfeed => hne hfeed (by decide) rfl,
    fun hreturn => hne (List.mem_of_getLast? hreturn) (by decide) rfl⟩

/-- No character is escaped with a line feed. -/
theorem not_mem_escape (c : Char) : '\n' ∉ escape c := by
  unfold escape
  split
  · simp
  · simp
  · simp
  · next hfeed => simpa using Ne.symm hfeed

/-- A written token stays on its line. -/
theorem Unbroken.isLine {token : Token} (h : token.Unbroken) : IsLine token.chars := by
  cases token with
  | word text => exact isLine_of_isWordChar h
  | quoted text =>
    constructor
    · simpa [chars, quote] using fun c _ => not_mem_escape c
    · rw [chars, quote, List.getLast?_append]
      simp

/-- Written tokens stay on their line. -/
theorem isLine_spaced {tokens : List Token} (h : ∀ token ∈ tokens, token.Unbroken) :
    IsLine (spaced tokens) := by
  induction tokens with
  | nil => simp [spaced, IsLine]
  | cons first rest ih =>
    rw [List.forall_mem_cons] at h
    cases rest with
    | nil => simpa [spaced] using h.1.isLine
    | cons second rest =>
      rw [spaced_cons_cons]
      have hblank : IsLine [' '] := by decide
      exact h.1.isLine.append (hblank.append (ih h.2))

end Token

/-! ## Literals as words -/

/-- What is written for a value is a word. -/
theorem Token.isWord_text (value : Value) : Token.IsWord value.text := by
  constructor
  · simpa [Value.text] using value.chars_ne_nil
  · simpa [Value.text] using value.isWordChar_of_mem_chars

namespace Value

/-- Written literals are told apart: each is read back as the value that it was written for.  In a
line a literal is one word, up to whatever cannot continue it, since it has no blanks, semicolons
and quotes. -/
theorem text_readable :
    (∀ v : Value, ofText? v.text = some v) ∧
    (∀ v : Value, ∀ c ∈ v.text.toList, Text.isBlank c = false ∧ c ≠ ';' ∧ c ≠ '"') ∧
    (∀ v : Value, Token.ofLine? v.text.toList = some [.word v.text]) ∧
    (∀ (v : Value) (rest : List Char), (∀ c ∈ rest.head?, Token.isWordChar c = false) →
      Token.ofLine? (v.text.toList ++ rest) = (Token.ofLine? rest).map (.word v.text :: ·)) ∧
    Function.Injective text := by
  refine ⟨ofText?_text, fun v c hc => ?_, fun v => Token.ofLine?_toList (Token.isWord_text v),
    fun v rest hrest => Token.ofLine?_word (Token.isWord_text v) hrest, fun v w htext => ?_⟩
  · have hword := (Token.isWord_text v).2 c hc
    simpa [Token.isWordChar, and_assoc] using hword
  · have hread : ofText? v.text = ofText? w.text := congrArg ofText? htext
    rw [ofText?_text, ofText?_text] at hread
    exact Option.some.inj hread

theorem text_readable_nested :
    ofText? "((),(-9223372036854775808),(()))" =
        some (tuple [.tuple [], .tuple [.int Int64.minValue], .tuple [.tuple []]]) ∧
      (∀ c ∈ [';'].head?, Token.isWordChar c = false) ∧
      Token.ofLine? ("((),(-9223372036854775808),(()))".toList ++ [';']) =
        some [.word "((),(-9223372036854775808),(()))"] := by
  have htext : (tuple [.tuple [], .tuple [.int Int64.minValue], .tuple [.tuple []]]).text =
      "((),(-9223372036854775808),(()))" := by decide +kernel
  have hcomment : Token.ofLine? [';'] = some [] := by rw [Token.ofLine?, if_pos rfl]
  have hstop : ∀ c ∈ [';'].head?, Token.isWordChar c = false := by
    intro c hc
    obtain rfl : ';' = c := Option.some.inj hc
    decide
  obtain ⟨hread, -, -, hline, -⟩ := text_readable
  rw [← htext]
  refine ⟨hread _, hstop, ?_⟩
  rw [hline _ _ hstop, hcomment, Option.map_some]

end Value
end Gobstones
