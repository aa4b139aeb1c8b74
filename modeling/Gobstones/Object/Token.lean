import Gobstones.Text.Blank
/-!
# Tokens of object text

This module splits a line of object text into words and quoted strings, and quotes
strings so that they are read back unchanged.  A semicolon outside a string starts
a comment, which lasts to the end of the line.

Main definitions:

- {lit}`Token`: words and strings.
- {lit}`Token.ofLine?`: the tokens of a line.
- {lit}`Token.chars`: the written form of a token.
- {lit}`splitLines`: the lines of a text.
-/

namespace Gobstones

/-- A bare word, or a quoted string with its escapes resolved. -/
inductive Token where
  | word (text : String)
  | quoted (text : String)
deriving DecidableEq, Repr

namespace Token

/-- The text of a token. -/
def text : Token → String
  | word text => text
  | quoted text => text

/-! ## Writing -/

/-- A character inside quotes: quotes, backslashes and line feeds are escaped. -/
def escape : Char → List Char
  | '"' => ['\\', '"']
  | '\\' => ['\\', '\\']
  | '\n' => ['\\', 'n']
  | c => [c]

/-- A text in quotes. -/
def quote (cs : List Char) : List Char :=
  '"' :: cs.flatMap escape ++ ['"']

/-- The written form of a token. -/
def chars : Token → List Char
  | word text => text.toList
  | quoted text => quote text.toList

/-! ## Reading -/

/-- The character that an escape stands for: {lit}`n` is a line feed and every other
character is itself. -/
def unescape (c : Char) : Char :=
  if c = 'n' then '\n' else c

/-- Read the inside of a quoted string up to its closing quote, and what follows it. -/
def quotedText? : List Char → Option (List Char × List Char)
  | [] => none
  | '"' :: rest => some ([], rest)
  | ['\\'] => none
  | '\\' :: c :: rest => (quotedText? rest).map fun found => (unescape c :: found.1, found.2)
  | c :: rest => (quotedText? rest).map fun found => (c :: found.1, found.2)

theorem length_lt_of_quotedText? {cs text rest : List Char}
    (h : quotedText? cs = some (text, rest)) : rest.length < cs.length := by
  fun_induction quotedText? cs generalizing text rest with
  | case1 => simp at h
  | case2 => simp_all
  | case3 => simp at h
  | case4 c cs ih =>
    obtain ⟨found, hfound, heq⟩ := Option.map_eq_some_iff.1 h
    obtain ⟨-, rfl⟩ := Prod.mk.inj heq
    have := ih hfound
    simp only [List.length_cons]
    omega
  | case5 c cs _ _ _ ih =>
    obtain ⟨found, hfound, heq⟩ := Option.map_eq_some_iff.1 h
    obtain ⟨-, rfl⟩ := Prod.mk.inj heq
    have := ih hfound
    simp only [List.length_cons]
    omega

/-- The characters of which words consist. -/
def isWordChar (c : Char) : Bool :=
  !Text.isBlank c && c ≠ ';' && c ≠ '"'

/-- The tokens of a line, unless a string in it is not closed. -/
def ofLine? (cs : List Char) : Option (List Token) :=
  match cs with
  | [] => some []
  | c :: rest =>
    if c = ';' then some []
    else if Text.isBlank c then ofLine? rest
    else if c = '"' then
      match h : quotedText? rest with
      | none => none
      | some (text, after) =>
        have : after.length < rest.length := length_lt_of_quotedText? h
        (ofLine? after).map (quoted (String.ofList text) :: ·)
    else
      have : (rest.dropWhile isWordChar).length ≤ rest.length :=
        (List.dropWhile_suffix isWordChar).length_le
      (ofLine? (rest.dropWhile isWordChar)).map
        (word (String.ofList (c :: rest.takeWhile isWordChar)) :: ·)
termination_by cs.length
decreasing_by all_goals simp only [List.length_cons]; omega

end Token

/-! ## Lines -/

/-- Drop the carriage return at the end of a line, given in reverse. -/
def dropReturn : List Char → List Char
  | '\r' :: rest => rest
  | cs => cs

/-- The lines of a text of which {lit}`line` was read already, in reverse. -/
def splitLinesFrom (line : List Char) : List Char → List (List Char)
  | [] => if line.isEmpty then [] else [line.reverse]
  | c :: rest =>
    if c = '\n' then (dropReturn line).reverse :: splitLinesFrom [] rest
    else splitLinesFrom (c :: line) rest

/-- The lines of a text.  A line feed ends a line, together with a carriage return in
front of it, and nothing follows the last one. -/
def splitLines (cs : List Char) : List (List Char) :=
  splitLinesFrom [] cs

end Gobstones
