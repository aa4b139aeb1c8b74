/-!
# Values

This module defines the data that programs compute with: integers, booleans,
stone colors, head directions and tuples of values.  Scalars have a form as one
64-bit word; tuples have none.

Main definitions:

- {lit}`Color` and {lit}`Direction`: the two cyclic enumerations.
- {lit}`Value`: the values, with their types {lit}`ValueType`.
- {lit}`Value.compare`: the order of values of one type.
- {lit}`Value.toWord?` and {lit}`Value.ofWord?`: scalars as words.
-/

namespace Gobstones

/-! ## Colors -/

/-- The four stone colors, in the order of the counters of a cell. -/
inductive Color where
  | blue
  | black
  | red
  | green
deriving DecidableEq, Repr, Inhabited

namespace Color

/-- Every color, in order. -/
def all : List Color :=
  [blue, black, red, green]

/-- The place of a color in the order. -/
def index : Color → Nat
  | blue => 0
  | black => 1
  | red => 2
  | green => 3

/-- The color at a place counted modulo four. -/
def ofIndex (i : Int) : Color :=
  match (i % 4).toNat with
  | 0 => blue
  | 1 => black
  | 2 => red
  | _ => green

/-- The color after this one, cyclically. -/
def next (c : Color) : Color :=
  ofIndex (c.index + 1)

/-- The color before this one, cyclically. -/
def prev (c : Color) : Color :=
  ofIndex (c.index - 1)

/-- The name of a color. -/
def name : Color → String
  | blue => "Blue"
  | black => "Black"
  | red => "Red"
  | green => "Green"

@[simp]
theorem ofIndex_index (c : Color) : ofIndex c.index = c := by
  cases c <;> rfl

end Color

/-! ## Directions -/

/-- The four directions of the head, clockwise from north.  North increases the
second coordinate and east the first. -/
inductive Direction where
  | north
  | east
  | south
  | west
deriving DecidableEq, Repr, Inhabited

namespace Direction

/-- Every direction, in order. -/
def all : List Direction :=
  [north, east, south, west]

/-- The place of a direction in the order. -/
def index : Direction → Nat
  | north => 0
  | east => 1
  | south => 2
  | west => 3

/-- The direction at a place counted modulo four. -/
def ofIndex (i : Int) : Direction :=
  match (i % 4).toNat with
  | 0 => north
  | 1 => east
  | 2 => south
  | _ => west

/-- The direction after this one, clockwise. -/
def next (d : Direction) : Direction :=
  ofIndex (d.index + 1)

/-- The direction before this one, clockwise. -/
def prev (d : Direction) : Direction :=
  ofIndex (d.index - 1)

/-- The direction half a turn away. -/
def opposite (d : Direction) : Direction :=
  ofIndex (d.index + 2)

/-- The displacement of one step. -/
def delta : Direction → Int × Int
  | north => (0, 1)
  | east => (1, 0)
  | south => (0, -1)
  | west => (-1, 0)

/-- The name of a direction. -/
def name : Direction → String
  | north => "North"
  | east => "East"
  | south => "South"
  | west => "West"

@[simp]
theorem ofIndex_index (d : Direction) : ofIndex d.index = d := by
  cases d <;> rfl

@[simp]
theorem opposite_opposite (d : Direction) : d.opposite.opposite = d := by
  cases d <;> rfl

end Direction

/-! ## Types of values -/

/-- The types of values. -/
inductive ValueType where
  | int
  | bool
  | color
  | dir
  | tuple
deriving DecidableEq, Repr

namespace ValueType

/-- The name of a type. -/
def name : ValueType → String
  | int => "Int"
  | bool => "Bool"
  | color => "Color"
  | dir => "Dir"
  | tuple => "Tuple"

/-- The type with a given name.  Directions have a long name too. -/
def ofName? : String → Option ValueType
  | "Int" => some int
  | "Bool" => some bool
  | "Color" => some color
  | "Dir" => some dir
  | "Direction" => some dir
  | "Tuple" => some tuple
  | _ => none

@[simp]
theorem ofName?_name (t : ValueType) : ofName? t.name = some t := by
  cases t <;> rfl

end ValueType

/-! ## Values -/

/-- The values of the language. -/
inductive Value where
  | int (n : Int64)
  | bool (b : Bool)
  | color (c : Color)
  | dir (d : Direction)
  | tuple (items : List Value)
deriving Repr, Inhabited

namespace Value

mutual
/-- Values are equal when they have one type and equal contents. -/
def decEq : (a b : Value) → Decidable (a = b)
  | .int a, .int b => decidable_of_iff (a = b) (by simp)
  | .bool a, .bool b => decidable_of_iff (a = b) (by simp)
  | .color a, .color b => decidable_of_iff (a = b) (by simp)
  | .dir a, .dir b => decidable_of_iff (a = b) (by simp)
  | .tuple a, .tuple b =>
    match decEqList a b with
    | isTrue h => isTrue (by rw [h])
    | isFalse h => isFalse (by simpa using h)
  | .int _, .bool _ | .int _, .color _ | .int _, .dir _ | .int _, .tuple _
  | .bool _, .int _ | .bool _, .color _ | .bool _, .dir _ | .bool _, .tuple _
  | .color _, .int _ | .color _, .bool _ | .color _, .dir _ | .color _, .tuple _
  | .dir _, .int _ | .dir _, .bool _ | .dir _, .color _ | .dir _, .tuple _
  | .tuple _, .int _ | .tuple _, .bool _ | .tuple _, .color _ | .tuple _, .dir _ =>
    isFalse (by simp)

/-- Tuples are equal when they have equal items. -/
def decEqList : (a b : List Value) → Decidable (a = b)
  | [], [] => isTrue rfl
  | [], _ :: _ => isFalse (by simp)
  | _ :: _, [] => isFalse (by simp)
  | a :: as, b :: bs =>
    match decEq a b, decEqList as bs with
    | isTrue h, isTrue hs => isTrue (by rw [h, hs])
    | isFalse h, _ => isFalse (by simp [h])
    | _, isFalse hs => isFalse (by simp [hs])
end

instance : DecidableEq Value :=
  decEq

/-- The type of a value. -/
def type : Value → ValueType
  | int _ => .int
  | bool _ => .bool
  | color _ => .color
  | dir _ => .dir
  | tuple _ => .tuple

mutual
/-- Compare two values of one type.  Values of different types are incomparable, and
so are tuples of different lengths. -/
def compare : Value → Value → Option Ordering
  | .int a, .int b => some (Ord.compare a b)
  | .bool a, .bool b => some (Ord.compare a b)
  | .color a, .color b => some (Ord.compare a.index b.index)
  | .dir a, .dir b => some (Ord.compare a.index b.index)
  | .tuple a, .tuple b => if a.length = b.length then compareItems a b else none
  | _, _ => none

/-- Compare two tuples of one length item by item: the first unequal pair decides. -/
def compareItems : List Value → List Value → Option Ordering
  | a :: as, b :: bs =>
    match compare a b with
    | some .eq => compareItems as bs
    | unequal => unequal
  | _, _ => some .eq
end

/-! ## Scalars as words -/

/-- The word of a scalar.  Tuples have none. -/
def toWord? : Value → Option Int64
  | int n => some n
  | bool b => some (if b then 1 else 0)
  | color c => some (Int64.ofNat c.index)
  | dir d => some (Int64.ofNat d.index)
  | tuple _ => none

/-- The scalar of a type that a word stands for: any nonzero word is true, and
enumerations are read modulo four. -/
def ofWord? (word : Int64) : ValueType → Option Value
  | .int => some (int word)
  | .bool => some (bool (word != 0))
  | .color => some (color (.ofIndex word.toInt))
  | .dir => some (dir (.ofIndex word.toInt))
  | .tuple => none

end Value
end Gobstones
