import Mathlib.Data.List.TakeWhile
import Gobstones.Proofs.Object.Token
/-!
# Layout of lines

This module says which changes of a line leave its tokens as they are.  Blanks around tokens may
come and go, as long as two words stay apart, and a comment may be added to a line in which every
string is closed.  The first word may be replaced by its other spelling.

Main definitions:

- {lit}`Token.Inside`: what stands between the quotes of a string.
- {lit}`Relaid`: a line under another layout.
- {lit}`Respelled`: two spellings of an opcode, a keyword or a closing word.
- {lit}`Edited`: a line under another layout, and perhaps with another spelling.
- {lit}`SameTokens`: the same tokens, up to the spelling of the first one.

Main results:

- Theorem {lit}`Relaid.refl`: every line has a layout.
- Theorem {lit}`Relaid.ofLine?_eq`: the layout does not change the tokens.
- Theorem {lit}`Edited.tokens`: an edited line has the same tokens, up to the spelling of its
  first word.
-/

namespace Gobstones

/-! ## Strings -/

namespace Token

/-- What stands between the quotes of a string: no quote, unless it is escaped. -/
inductive Inside : List Char → Prop
  | nil : Inside []
  | plain {c : Char} {cs : List Char} (hquote : c ≠ '"') (hslash : c ≠ '\\') (h : Inside cs) :
      Inside (c :: cs)
  | escaped {c : Char} {cs : List Char} (h : Inside cs) : Inside ('\\' :: c :: cs)

/-- What stands behind the quote of a string that is not closed.  It may end within an escape. -/
def Unclosed (cs : List Char) : Prop :=
  Inside cs ∨ ∃ inside, Inside inside ∧ cs = inside ++ ['\\']

theorem quotedText?_cons {c : Char} (hquote : c ≠ '"') (hslash : c ≠ '\\') (rest : List Char) :
    quotedText? (c :: rest) = (quotedText? rest).map fun found => (c :: found.1, found.2) := by
  rw [quotedText?]
  · exact hquote
  · exact fun hc _ => hslash hc
  · exact fun _ _ hc _ => hslash hc

/-- A string is read up to the quote that closes it. -/
theorem Inside.exists_quotedText? {inside : List Char} (h : Inside inside) :
    ∃ text, ∀ rest, quotedText? (inside ++ '"' :: rest) = some (text, rest) := by
  induction h with
  | nil => exact ⟨[], fun rest => rfl⟩
  | @plain c cs hquote hslash _ ih =>
    obtain ⟨text, htext⟩ := ih
    refine ⟨c :: text, fun rest => ?_⟩
    rw [List.cons_append, quotedText?_cons hquote hslash, htext, Option.map_some]
  | @escaped c cs _ ih =>
    obtain ⟨text, htext⟩ := ih
    refine ⟨unescape c :: text, fun rest => ?_⟩
    rw [List.cons_append, List.cons_append, quotedText?, htext, Option.map_some]

/-- A string is closed, or it is not. -/
theorem inside_or_unclosed (cs : List Char) :
    (∃ inside rest, Inside inside ∧ cs = inside ++ '"' :: rest) ∨ Unclosed cs := by
  fun_induction quotedText? cs with
  | case1 => exact .inr (.inl .nil)
  | case2 rest => exact .inl ⟨[], rest, .nil, rfl⟩
  | case3 => exact .inr (.inr ⟨[], .nil, rfl⟩)
  | case4 c cs ih =>
    rcases ih with ⟨inside, rest, hinside, rfl⟩ | hinside | ⟨inside, hinside, rfl⟩
    · exact .inl ⟨_, rest, hinside.escaped, rfl⟩
    · exact .inr (.inl hinside.escaped)
    · exact .inr (.inr ⟨_, hinside.escaped, rfl⟩)
  | case5 c cs hquote hlast hslash ih =>
    have hplain : c ≠ '\\' := by
      rintro rfl
      cases cs with
      | nil => exact hlast rfl rfl
      | cons d cs => exact hslash d cs rfl rfl
    rcases ih with ⟨inside, rest, hinside, rfl⟩ | hinside | ⟨inside, hinside, rfl⟩
    · exact .inl ⟨_, rest, hinside.plain hquote hplain, rfl⟩
    · exact .inr (.inl (hinside.plain hquote hplain))
    · exact .inr (.inr ⟨_, hinside.plain hquote hplain, rfl⟩)

/-- What follows a word: it does not go on with one more character of it. -/
def Ends (cs : List Char) : Prop :=
  ∀ c ∈ cs.head?, isWordChar c = false

instance (cs : List Char) : Decidable (Ends cs) :=
  decidable_of_iff (cs.head?.all fun c => !isWordChar c) (by cases cs <;> simp [Ends])

theorem ends_dropWhile (cs : List Char) : Ends (cs.dropWhile isWordChar) := by
  intro c hc
  have hnot := List.head?_dropWhile_not isWordChar cs
  rw [Option.mem_def.1 hc] at hnot
  simpa using hnot

end Token

/-! ## Layout -/

open Token

/-- A line under another layout.  Words and strings stay as they are, and so does a string that is
not closed. -/
inductive Relaid : List Char → List Char → Prop
  | nil : Relaid [] []
  | removed {c : Char} {old new : List Char} (hblank : Text.isBlank c) (h : Relaid old new) :
      Relaid (c :: old) new
  | added {c : Char} {old new : List Char} (hblank : Text.isBlank c) (h : Relaid old new) :
      Relaid old (c :: new)
  | word {text : String} {old new : List Char} (hword : IsWord text) (hold : Ends old)
      (hnew : Ends new) (h : Relaid old new) : Relaid (text.toList ++ old) (text.toList ++ new)
  | quoted {inside old new : List Char} (hinside : Inside inside) (h : Relaid old new) :
      Relaid ('"' :: inside ++ '"' :: old) ('"' :: inside ++ '"' :: new)
  | unclosed {cs : List Char} (hcs : Unclosed cs) : Relaid ('"' :: cs) ('"' :: cs)
  | commented (note : List Char) : Relaid [] (';' :: note)
  | comment (note more : List Char) : Relaid (';' :: note) (';' :: note ++ more)

namespace Relaid

/-- Every line has a layout. -/
theorem refl (cs : List Char) : Relaid cs cs := by
  fun_induction ofLine? cs with
  | case1 => exact .nil
  | case2 rest => simpa using comment rest []
  | case3 c rest hcomment hblank ih => exact .removed hblank (.added hblank ih)
  | case4 rest hnone =>
    rcases inside_or_unclosed rest with ⟨inside, after, hinside, rfl⟩ | hunclosed
    · obtain ⟨text, htext⟩ := hinside.exists_quotedText?
      simp [htext] at hnone
    · exact .unclosed hunclosed
  | case5 rest text after hsome _ _ _ ih =>
    rcases inside_or_unclosed rest with ⟨inside, behind, hinside, rfl⟩ | hunclosed
    · obtain ⟨found, hfound⟩ := hinside.exists_quotedText?
      obtain ⟨-, rfl⟩ : found = text ∧ behind = after := by simpa [hfound] using hsome
      exact .quoted hinside ih
    · exact .unclosed hunclosed
  | case6 c rest hcomment hblank hquote _ ih =>
    have hword : isWordChar c := by simp [isWordChar, hcomment, hblank, hquote]
    have hsplit : (String.ofList (c :: rest.takeWhile isWordChar)).toList ++
        rest.dropWhile isWordChar = c :: rest := by
      simp [List.takeWhile_append_dropWhile]
    rw [← hsplit]
    exact .word (isWord_takeWhile hword rest) (ends_dropWhile rest) (ends_dropWhile rest) ih

theorem ofLine?_comment (note : List Char) : ofLine? (';' :: note) = some [] := by
  rw [ofLine?, if_pos rfl]

/-- The layout does not change the tokens. -/
theorem ofLine?_eq {old new : List Char} (h : Relaid old new) : ofLine? new = ofLine? old := by
  induction h with
  | nil => rfl
  | removed hblank _ ih => rw [ofLine?_blank hblank, ih]
  | added hblank _ ih => rw [ofLine?_blank hblank, ih]
  | @word text old new hword hold hnew _ ih =>
    calc
      ofLine? (text.toList ++ new) = (ofLine? new).map (.word text :: ·) :=
        ofLine?_word hword hnew
      _ = (ofLine? old).map (.word text :: ·) := by rw [ih]
      _ = ofLine? (text.toList ++ old) := (ofLine?_word hword hold).symm
  | quoted hinside _ ih =>
    obtain ⟨text, htext⟩ := hinside.exists_quotedText?
    rw [List.cons_append, List.cons_append, ofLine?_of_quotedText? (htext _),
      ofLine?_of_quotedText? (htext _), ih]
  | unclosed => rfl
  | commented note => rw [ofLine?_comment, ofLine?]
  | comment note more => rw [List.cons_append, ofLine?_comment, ofLine?_comment]

/-- A line that consists of blanks and a comment has no tokens. -/
theorem ofLine?_of_nil {cs : List Char} (h : Relaid [] cs) : ofLine? cs = some [] := by
  rw [h.ofLine?_eq, ofLine?]

end Relaid

/-! ## Spellings -/

/-- Two spellings of an opcode, of the keyword of a kind of routine, or of the word that closes a
routine. -/
inductive Respelled : String → String → Prop
  | opcode (opcode : Opcode) (old new : Style) :
      Respelled (opcode.spelling old) (opcode.spelling new)
  | keyword (kind : RoutineKind) (old new : Style) :
      Respelled (kind.spelling old) (kind.spelling new)
  | closing (old new : Style) : Respelled old.closing new.closing

/-- An edited line: a line under another layout, the first word of which may have another
spelling. -/
inductive Edited : List Char → List Char → Prop
  | relaid {old new : List Char} (h : Relaid old new) : Edited old new
  | respelled {blanks others : List Char} (hblanks : ∀ c ∈ blanks, Text.isBlank c)
      (hothers : ∀ c ∈ others, Text.isBlank c) {word other : String}
      (hword : Respelled word other) {old new : List Char} (hold : Ends old) (hnew : Ends new)
      (h : Relaid old new) : Edited (blanks ++ word.toList ++ old) (others ++ other.toList ++ new)

/-- The first token of a line, which may have another spelling if it is a word. -/
inductive SameFirst : Token → Token → Prop
  | refl (first : Token) : SameFirst first first
  | respelled {word other : String} (h : Respelled word other) :
      SameFirst (.word word) (.word other)

/-- The tokens of a line, up to the spelling of the first one. -/
inductive SameTokens : List Token → List Token → Prop
  | nil : SameTokens [] []
  | cons {first other : Token} (h : SameFirst first other) (operands : List Token) :
      SameTokens (first :: operands) (other :: operands)

theorem SameTokens.refl (tokens : List Token) : SameTokens tokens tokens := by
  cases tokens with
  | nil => exact .nil
  | cons first operands => exact .cons (.refl first) operands

namespace Respelled

theorem symm {word other : String} (h : Respelled word other) : Respelled other word := by
  cases h with
  | opcode opcode old new => exact .opcode opcode new old
  | keyword kind old new => exact .keyword kind new old
  | closing old new => exact .closing new old

theorem isWord {word other : String} (h : Respelled word other) : IsWord word := by
  cases h with
  | opcode opcode old _ => cases opcode <;> cases old <;> decide
  | keyword kind old _ => cases kind <;> cases old <;> decide
  | closing old _ => cases old <;> decide

end Respelled

namespace Edited

/-- An edited line has the same tokens, up to the spelling of its first word. -/
theorem tokens {old new : List Char} (h : Edited old new) :
    Option.Rel SameTokens (ofLine? old) (ofLine? new) := by
  cases h with
  | relaid h =>
    rw [h.ofLine?_eq]
    cases ofLine? old with
    | none => exact .none
    | some tokens => exact .some (.refl tokens)
  | @respelled blanks others hblanks hothers word other hword old new hold hnew h =>
    have holdLine : ofLine? (word.toList ++ old) = (ofLine? old).map (.word word :: ·) :=
      ofLine?_word hword.isWord hold
    have hnewLine : ofLine? (other.toList ++ new) = (ofLine? old).map (.word other :: ·) :=
      h.ofLine?_eq ▸ ofLine?_word hword.symm.isWord hnew
    rw [List.append_assoc, List.append_assoc, ofLine?_blanks hblanks, ofLine?_blanks hothers,
      holdLine, hnewLine]
    cases ofLine? old with
    | none => exact .none
    | some operands => exact .some (.cons (.respelled hword) operands)

end Edited
end Gobstones
