import Gobstones.Object.Token
import Gobstones.Proofs.Value.Grammar
/-!
# Written literals

This module shows that what is written for a value is a literal of it, so it is read back
as the value.  A written literal is one word of object text: it has no blanks, quotes or
semicolons.

Main results:

- Theorem {lit}`Value.isWordChar_of_mem_chars`: a written literal is one word.
- Theorem {lit}`Value.isElement_chars`: what is written for a value is a literal of it.
- Theorem {lit}`Value.ofText?_text`: a written literal is read back.
-/

namespace Gobstones

theorem Token.isWordChar_of_isDigit {c : Char} (h : c.isDigit) : isWordChar c := by
  have hne (d : Char) (hd : d.isDigit = false) : c ≠ d := by
    rintro rfl
    simp [h] at hd
  simp [isWordChar, Value.isBlank_of_isDigit h, hne ';' (by decide), hne '"' (by decide)]

namespace Value

/-! ## Characters of literals -/

theorem isWordChar_of_isDigit_or {c : Char} (h : c.isDigit ∨ c = '-') : Token.isWordChar c := by
  rcases h with h | rfl
  · exact Token.isWordChar_of_isDigit h
  · decide

mutual
/-- A literal is one word. -/
theorem isWordChar_of_mem_chars : ∀ (v : Value), ∀ c ∈ v.chars, Token.isWordChar c
  | .int n, c, h =>
    isWordChar_of_isDigit_or (Numeral.isDigit_or_of_mem_ofInt (by simpa [chars] using h))
  | .bool true, c, h => List.all_eq_true.1 (by decide) c h
  | .bool false, c, h => List.all_eq_true.1 (by decide) c h
  | .color shade, c, h => List.all_eq_true.1 (by cases shade <;> decide) c h
  | .dir heading, c, h => List.all_eq_true.1 (by cases heading <;> decide) c h
  | .tuple items, c, h => by
    simp only [chars, List.cons_append, List.mem_cons, List.mem_append, List.not_mem_nil,
      or_false] at h
    rcases h with rfl | h | rfl
    · decide
    · exact isWordChar_of_mem_itemChars items c h
    · decide

theorem isWordChar_of_mem_itemChars : ∀ (items : List Value), ∀ c ∈ itemChars items,
    Token.isWordChar c
  | [], c, h => by simp [itemChars] at h
  | [v], c, h => isWordChar_of_mem_chars v c (by simpa [itemChars] using h)
  | v :: w :: rest, c, h => by
    simp only [itemChars, List.mem_append, List.mem_cons] at h
    rcases h with h | rfl | h
    · exact isWordChar_of_mem_chars v c h
    · decide
    · exact isWordChar_of_mem_itemChars (w :: rest) c h
end

/-! ## Reading written literals -/

/-- Elements are literals with no blanks around them. -/
theorem IsElement.isLiteral {cs : List Char} {v : Value} (h : IsElement cs v) : IsLiteral cs v := by
  have hpadded : IsLiteral ([] ++ cs ++ []) v := .padded rfl h rfl
  simpa using hpadded

mutual
/-- What is written for a value is a literal of it. -/
theorem isElement_chars : ∀ v : Value, IsElement v.chars v
  | .int n => .scalar (.int (Numeral.integer?_eq_some_iff.1 (Numeral.integer?_ofInt n.toInt)))
  | .bool true => .scalar (.bool true)
  | .bool false => .scalar (.bool false)
  | .color shade => .scalar (.color shade)
  | .dir heading => .scalar (.dir heading)
  | .tuple items => by
    rw [chars]
    by_cases hitems : items = []
    · subst hitems
      exact @IsElement.unit [] rfl
    · exact .tuple (areItems_itemChars items hitems)

theorem areItems_itemChars : ∀ items : List Value, items ≠ [] → AreItems (itemChars items) items
  | [], h => absurd rfl h
  | [v], _ => .last (isElement_chars v).isLiteral
  | v :: w :: rest, _ =>
    .cons (isElement_chars v).isLiteral (areItems_itemChars (w :: rest) (by simp))
end

theorem chars_ne_nil (v : Value) : v.chars ≠ [] := by
  obtain ⟨c, hc, -⟩ := (isElement_chars v).bounded.head
  rintro hnil
  simp [hnil] at hc

/-- A written literal is read back as the value that it was written for. -/
@[simp]
theorem ofText?_text (v : Value) : ofText? v.text = some v := by
  rw [ofText?, text, String.toList_ofList]
  exact (isElement_chars v).isLiteral.ofChars?_eq_some

end Value
end Gobstones
