import Mathlib.Data.List.Nodup
import Gobstones.Builtin
/-!
# Answers of builtin functions

This module says what a table has under a name and what it means that a builtin function of the
standard table answers or refuses its arguments, and tells the answers of the functions that
relate two values or compute with two integers.  None of them changes the board.

Main definitions:

- {lit}`Relation.negation`: the relation that holds where another does not.
- {lit}`Builtin.Answers`: the function of a name has a value.
- {lit}`Builtin.Refuses`: the function of a name fails.
- {lit}`Builtin.Computes`: the function of a name is an operation on integers.

Main results:

- Theorem {lit}`BuiltinTable.get?_eq_some_iff`: builtins are found under their names.
- Theorem {lit}`Builtin.answers_relation` and {lit}`Builtin.refuses_relation`: relations.
- Theorem {lit}`Builtin.Computes.answers` and {lit}`Builtin.Computes.refuses`: operations on
  integers.
-/

namespace Gobstones

namespace BuiltinTable

variable {table : BuiltinTable} {name : String} {builtin : Builtin}

/-- A table has one builtin under each of its names, and that is the one which is found. -/
theorem get?_eq_some_iff :
    table.get? name = some builtin ↔ builtin ∈ table.entries ∧ builtin.name = name := by
  constructor
  · intro h
    exact ⟨List.mem_of_find?_eq_some h, by simpa using List.find?_some h⟩
  · rintro ⟨hmem, rfl⟩
    cases hfound : table.get? builtin.name with
    | none => simpa using List.find?_eq_none.1 hfound builtin hmem
    | some other =>
      have hname : other.name = builtin.name := by simpa using List.find?_some hfound
      rw [List.inj_on_of_nodup_map table.distinct (List.mem_of_find?_eq_some hfound) hmem hname]

theorem exists_mem_of_contains (h : table.contains name) :
    ∃ builtin ∈ table.entries, builtin.name = name := by
  obtain ⟨builtin, hbuiltin⟩ := Option.isSome_iff_exists.1 h
  exact ⟨builtin, get?_eq_some_iff.1 hbuiltin⟩

end BuiltinTable

namespace Relation

/-- The relation that holds where another does not. -/
def negation : Relation → Relation
  | eq => ne
  | ne => eq
  | lt => ge
  | le => gt
  | ge => lt
  | gt => le

theorem holds_negation (r : Relation) (order : Ordering) :
    r.negation.holds order = !r.holds order := by
  cases r <;> cases order <;> rfl

/-- Exactly one of the relations below, equal and above holds. -/
theorem holds_exactly_one (order : Ordering) :
    (lt.holds order).toNat + (eq.holds order).toNat + (gt.holds order).toNat = 1 := by
  cases order <;> rfl

end Relation

namespace Builtin

/-- The function of a name takes so many arguments, has a value at them and leaves every board
as it was. -/
def Answers (name : String) (args : List Value) (value : Value) : Prop :=
  ∃ builtin, BuiltinTable.standard.get? name = some builtin ∧ builtin.kind = .function ∧
    builtin.arity = args.length ∧
    ∀ board, builtin.operation.perform args board = .ok (some value) board

/-- The function of a name takes so many arguments, fails at them and leaves every board as it
was. -/
def Refuses (name : String) (args : List Value) (e : PrimitiveError) : Prop :=
  ∃ builtin, BuiltinTable.standard.get? name = some builtin ∧ builtin.kind = .function ∧
    builtin.arity = args.length ∧ ∀ board, builtin.operation.perform args board = .error e board

/-! ## Relations -/

section Relations

variable {name : String} {r : Relation} {a b : Value}

/-- A relation between comparable values holds or does not. -/
theorem answers_relation
    (hname : BuiltinTable.standard.get? name = some (.mk name .function ["x", "y"] (.relation r)))
    {order : Ordering} (h : a.compare b = some order) :
    Answers name [a, b] (.bool (r.holds order)) := by
  refine ⟨_, hname, rfl, rfl, fun board => ?_⟩
  simp only [Operation.perform, Operation.related, Operation.pairArgument, bind, Except.bind, h]
  rfl

/-- The function of a relation answers the opposite of the function of its negation. -/
theorem answers_negation
    (hname : BuiltinTable.standard.get? name =
      some (.mk name .function ["x", "y"] (.relation r.negation)))
    {order : Ordering} (h : a.compare b = some order) :
    Answers name [a, b] (.bool !r.holds order) := by
  rw [← Relation.holds_negation]
  exact answers_relation hname h

/-- There is no relation between values that cannot be compared. -/
theorem refuses_relation
    (hname : BuiltinTable.standard.get? name = some (.mk name .function ["x", "y"] (.relation r)))
    (h : a.compare b = none) : Refuses name [a, b] .incomparable := by
  refine ⟨_, hname, rfl, rfl, fun board => ?_⟩
  simp only [Operation.perform, Operation.related, Operation.pairArgument, bind, Except.bind, h]
  rfl

end Relations

/-! ## Integer operations -/

/-- The function of a name takes two integers to an integer or to a failure. -/
def Computes (name : String) (f : Int64 → Int64 → Except ArithmeticError Int64) : Prop :=
  ∃ builtin, BuiltinTable.standard.get? name = some builtin ∧ builtin.kind = .function ∧
    builtin.arity = 2 ∧
    ∀ args, builtin.operation.perform args = Operation.answer (Operation.computed f args)

theorem computes_div : Computes "div" Arithmetic.floorDiv :=
  ⟨.mk "div" .function ["x", "y"] .div, rfl, rfl, rfl, fun _ => rfl⟩

theorem computes_mod : Computes "mod" Arithmetic.floorMod :=
  ⟨.mk "mod" .function ["x", "y"] .mod, rfl, rfl, rfl, fun _ => rfl⟩

theorem computes_power : Computes "^" Arithmetic.power :=
  ⟨.mk "^" .function ["x", "y"] .power, rfl, rfl, rfl, fun _ => rfl⟩

section Computes

variable {name : String} {f : Int64 → Int64 → Except ArithmeticError Int64} {a b : Int64}

/-- An operation on integers that succeeds. -/
theorem Computes.answers (hcomputes : Computes name f) {n : Int64} (h : f a b = .ok n) :
    Answers name [.int a, .int b] (.int n) := by
  obtain ⟨builtin, hname, hkind, harity, hperform⟩ := hcomputes
  refine ⟨builtin, hname, hkind, harity, fun board => ?_⟩
  rw [hperform]
  simp only [Operation.computed, Operation.pairArgument, bind, Except.bind, h]
  rfl

/-- An operation on integers that fails. -/
theorem Computes.refuses (hcomputes : Computes name f) {e : ArithmeticError}
    (h : f a b = .error e) : Refuses name [.int a, .int b] (.arithmetic e) := by
  obtain ⟨builtin, hname, hkind, harity, hperform⟩ := hcomputes
  refine ⟨builtin, hname, hkind, harity, fun board => ?_⟩
  rw [hperform]
  simp only [Operation.computed, Operation.pairArgument, bind, Except.bind, h]
  rfl

end Computes

end Builtin
end Gobstones
