import Gobstones.Text.Blank
import Gobstones.Text.Numeral
import Gobstones.Value.Basic
/-!
# Literals

This module writes values as literals and reads literals back.  A literal is an
integer numeral, the name of a boolean, a color or a direction, or a
parenthesised list of literals with commas between them.  Blanks may surround
every element; a written literal has none.

Main definitions:

- {lit}`Value.chars` and {lit}`Value.text`: the literal of a value.
- {lit}`Value.ofChars?` and {lit}`Value.ofText?`: the value of a literal.
-/

namespace Gobstones
namespace Value

/-! ## Writing -/

mutual
/-- The literal of a value. -/
def chars : Value → List Char
  | .int n => Numeral.ofInt n.toInt
  | .bool true => "True".toList
  | .bool false => "False".toList
  | .color c => c.name.toList
  | .dir d => d.name.toList
  | .tuple items => '(' :: itemChars items ++ [')']

/-- The literals of the items of a tuple, with commas between them. -/
def itemChars : List Value → List Char
  | [] => []
  | [v] => chars v
  | v :: w :: rest => chars v ++ ',' :: itemChars (w :: rest)
end

/-- The literal of a value as a string. -/
def text (v : Value) : String :=
  String.ofList v.chars

/-! ## Reading -/

/-- The text between the parentheses of a parenthesised text. -/
def unparenthesize? : List Char → Option (List Char)
  | '(' :: rest => if rest.getLast? = some ')' then some rest.dropLast else none
  | _ => none

/-- Split a text at the commas outside parentheses.  {lit}`depth` counts the
parentheses still open and {lit}`part` holds the current part in reverse; a closing
parenthesis without an opening one does not count. -/
def splitFrom (depth : Nat) (part : List Char) : List Char → List (List Char)
  | [] => [part.reverse]
  | c :: cs =>
    if c = ',' ∧ depth = 0 then part.reverse :: splitFrom 0 [] cs
    else if c = '(' then splitFrom (depth + 1) (c :: part) cs
    else if c = ')' then splitFrom (depth - 1) (c :: part) cs
    else splitFrom depth (c :: part) cs

/-- Split the inside of a tuple literal at its own commas. -/
def splitItems (cs : List Char) : List (List Char) :=
  splitFrom 0 [] cs

theorem length_le_of_mem_splitFrom {depth : Nat} {part cs item : List Char}
    (h : item ∈ splitFrom depth part cs) : item.length ≤ part.length + cs.length := by
  induction cs generalizing depth part with
  | nil =>
    simp only [splitFrom, List.mem_singleton] at h
    simp [h]
  | cons c cs ih =>
    simp only [splitFrom] at h
    split at h
    · rcases List.mem_cons.1 h with rfl | h
      · simp
      · have := ih h
        simp only [List.length_nil, List.length_cons] at *
        omega
    · split at h
      · have := ih h
        simp only [List.length_cons] at *
        omega
      · split at h <;>
        · have := ih h
          simp only [List.length_cons] at *
          omega

/-- No item of a tuple literal is longer than what lies between the parentheses. -/
theorem length_le_of_mem_splitItems {cs item : List Char} (h : item ∈ splitItems cs) :
    item.length ≤ cs.length := by
  simpa using length_le_of_mem_splitFrom h

theorem length_lt_of_unparenthesize? {cs inner : List Char}
    (h : unparenthesize? cs = some inner) : inner.length < cs.length := by
  unfold unparenthesize? at h
  split at h
  · split at h
    · obtain rfl := Option.some.inj h
      simp only [List.length_dropLast, List.length_cons]
      omega
    · simp at h
  · simp at h

/-- The scalars that are written as a name.  Colors also have numbered names. -/
def ofName? : String → Option Value
  | "True" => some (.bool true)
  | "False" => some (.bool false)
  | "North" => some (.dir .north)
  | "East" => some (.dir .east)
  | "South" => some (.dir .south)
  | "West" => some (.dir .west)
  | "Blue" | "Color0" => some (.color .blue)
  | "Black" | "Color1" => some (.color .black)
  | "Red" | "Color2" => some (.color .red)
  | "Green" | "Color3" => some (.color .green)
  | _ => none

/-- The scalar of a literal without blanks around it. -/
def scalar? (cs : List Char) : Option Value :=
  match ofName? (String.ofList cs) with
  | some v => some v
  | none => (Numeral.int64? cs).map .int

/-- The value of a literal. -/
def ofChars? (cs : List Char) : Option Value :=
  match h : unparenthesize? (Text.trim cs) with
  | none => scalar? (Text.trim cs)
  | some inner =>
    if Text.allBlank inner then some (.tuple [])
    else
      let items := (splitItems inner).attach.mapM (m := Option)
        fun (item : { part // part ∈ splitItems inner }) =>
          have : item.val.length < cs.length :=
            Nat.lt_of_le_of_lt (length_le_of_mem_splitItems item.property)
              (Nat.lt_of_lt_of_le (length_lt_of_unparenthesize? h) (Text.length_trim_le cs))
          ofChars? item.val
      items.map .tuple
termination_by cs.length

/-- The value of a literal given as a string. -/
def ofText? (text : String) : Option Value :=
  ofChars? text.toList

end Value
end Gobstones
