import Gobstones.Proofs.Builtin
/-!
# The order of values

This module shows that the comparison of values is a partial order.  Scalars of one type are
compared as their words are.  Tuples are compared up to the first items that differ, so what
comes behind these may be incomparable; the laws hold nevertheless, because only pairs of
items that were compared decide.

Main results:

- Theorem {lit}`Value.ofWord?_of_toWord`: a scalar is read back from its word.
- Theorem {lit}`Value.compare_eq_some_iff_of_toWord`: the comparison of a scalar.
- Theorem {lit}`Value.compare_tuple_eq_some_iff`: the comparison of a tuple.
- Theorem {lit}`Value.compare_partialOrder`: the laws of the order, and the relations that
  programs test it with.
-/

namespace Gobstones
namespace Value

/-! ## Scalars -/

/-- A scalar is read back from its word. -/
theorem ofWord?_of_toWord {value : Value} {n : Int64} (h : value.toWord? = some n) :
    ofWord? n value.type = some value := by
  cases value with
  | int i => simpa [toWord?, ofWord?, type] using h.symm
  | bool b =>
    obtain rfl := Option.some.inj h
    cases b <;> rfl
  | color c =>
    obtain rfl := Option.some.inj h
    cases c <;> rfl
  | dir d =>
    obtain rfl := Option.some.inj h
    cases d <;> rfl
  | tuple items => simp [toWord?] at h

/-- Scalars of one type are equal when their words are. -/
theorem eq_iff_of_toWord {a b : Value} {m n : Int64} (htype : a.type = b.type)
    (ha : a.toWord? = some m) (hb : b.toWord? = some n) : a = b ↔ m = n := by
  constructor
  · rintro rfl
    exact Option.some.inj (ha.symm.trans hb)
  · rintro rfl
    have hread := ofWord?_of_toWord ha
    rw [htype, ofWord?_of_toWord hb] at hread
    exact (Option.some.inj hread).symm

/-- Whether a value is a scalar depends on its type. -/
theorem exists_toWord?_of_type {a b : Value} {m : Int64} (htype : a.type = b.type)
    (ha : a.toWord? = some m) : ∃ n, b.toWord? = some n := by
  cases b with
  | tuple items => cases a <;> simp [type, toWord?] at htype ha
  | _ => exact ⟨_, rfl⟩

/-- Values of different types cannot be compared. -/
theorem compare_of_type_ne {a b : Value} (h : a.type ≠ b.type) : a.compare b = none := by
  cases a <;> cases b <;> simp [type, Value.compare] at h ⊢

/-- Scalars of one type are compared as their words are. -/
theorem compare_of_toWord {a b : Value} {m n : Int64} (htype : a.type = b.type)
    (ha : a.toWord? = some m) (hb : b.toWord? = some n) :
    a.compare b = some (Ord.compare m n) := by
  cases a with
  | tuple items => simp [toWord?] at ha
  | int i =>
    cases b <;> cases htype
    next j =>
      obtain rfl := Option.some.inj ha
      obtain rfl := Option.some.inj hb
      rw [Value.compare]
  | bool i | color i | dir i =>
    cases b <;> cases htype
    next j =>
      obtain rfl := Option.some.inj ha
      obtain rfl := Option.some.inj hb
      cases i <;> cases j <;> decide

/-- A scalar can be compared with the scalars of its type. -/
theorem compare_eq_some_iff_of_toWord {a b : Value} {m : Int64} {order : Ordering}
    (ha : a.toWord? = some m) :
    a.compare b = some order ↔
      a.type = b.type ∧ ∃ n, b.toWord? = some n ∧ Ord.compare m n = order := by
  by_cases htype : a.type = b.type
  · obtain ⟨n, hb⟩ := exists_toWord?_of_type htype ha
    simp [compare_of_toWord htype ha hb, htype, hb]
  · simp [compare_of_type_ne htype, htype]

/-! ## Tuples -/

/-- What holds of scalars and is handed on from the items of a tuple to the tuple holds of all
values. -/
@[elab_as_elim]
theorem inductionOnItems {motive : Value → Prop}
    (scalar : ∀ v n, v.toWord? = some n → motive v)
    (tuple : ∀ items, (∀ v ∈ items, motive v) → motive (.tuple items)) : ∀ v, motive v
  | .int _ => scalar _ _ rfl
  | .bool _ => scalar _ _ rfl
  | .color _ => scalar _ _ rfl
  | .dir _ => scalar _ _ rfl
  | .tuple items => tuple items fun v _ => inductionOnItems scalar tuple v

/-- A tuple can be compared with the tuples of its length. -/
theorem compare_tuple_eq_some_iff {items : List Value} {b : Value} {order : Ordering} :
    (tuple items).compare b = some order ↔
      ∃ others, b = .tuple others ∧ items.length = others.length ∧
        compareItems items others = some order := by
  cases b with
  | tuple others => simp [Value.compare]
  | _ => simp [Value.compare]

/-- The first pair of items decides unless they are equal. -/
theorem compareItems_cons_eq_some_iff {a b : Value} {items others : List Value}
    {order : Ordering} :
    compareItems (a :: items) (b :: others) = some order ↔
      (a.compare b = some .eq ∧ compareItems items others = some order) ∨
        (a.compare b = some order ∧ order ≠ .eq) := by
  rw [compareItems]
  split
  · next heq =>
    rw [heq]
    constructor
    · exact fun h => .inl ⟨rfl, h⟩
    · rintro (⟨-, h⟩ | ⟨h, hne⟩)
      · exact h
      · exact absurd (Option.some.inj h).symm hne
  · next hne =>
    constructor
    · intro h
      refine .inr ⟨h, ?_⟩
      rintro rfl
      exact hne h
    · rintro (⟨h, -⟩ | ⟨h, -⟩)
      · exact absurd h hne
      · exact h

/-! ## The laws of the order -/

theorem compareItems_eq_some_eq_iff {items others : List Value}
    (h : ∀ a ∈ items, ∀ b, a.compare b = some .eq ↔ a = b)
    (hlength : items.length = others.length) :
    compareItems items others = some .eq ↔ items = others := by
  induction items generalizing others with
  | nil =>
    obtain rfl := List.length_eq_zero_iff.1 hlength.symm
    simp [compareItems]
  | cons a items ih =>
    obtain ⟨b, others, rfl⟩ := List.exists_cons_of_length_eq_add_one hlength.symm
    rw [List.forall_mem_cons] at h
    rw [compareItems_cons_eq_some_iff, h.1, ih h.2 (by simpa using hlength), List.cons.injEq]
    simp

/-- Values are in the same place of the order exactly if they are equal. -/
theorem compare_eq_some_eq_iff (a b : Value) : a.compare b = some .eq ↔ a = b := by
  induction a using inductionOnItems generalizing b with
  | scalar a m ha =>
    rw [compare_eq_some_iff_of_toWord ha]
    constructor
    · rintro ⟨htype, n, hb, horder⟩
      exact (eq_iff_of_toWord htype ha hb).2 (Std.compare_eq_iff_eq.1 horder)
    · rintro rfl
      exact ⟨rfl, m, ha, Std.compare_eq_iff_eq.2 rfl⟩
  | tuple items ih =>
    rw [compare_tuple_eq_some_iff]
    constructor
    · rintro ⟨others, rfl, hlength, horder⟩
      rw [(compareItems_eq_some_eq_iff ih hlength).1 horder]
    · rintro rfl
      exact ⟨items, rfl, rfl, (compareItems_eq_some_eq_iff ih rfl).2 rfl⟩

theorem compareItems_swap {items others : List Value}
    (h : ∀ a ∈ items, ∀ b : Value, b.compare a = (a.compare b).map Ordering.swap) :
    compareItems others items = (compareItems items others).map Ordering.swap := by
  induction items generalizing others with
  | nil => cases others <;> simp [compareItems]
  | cons a items ih =>
    rw [List.forall_mem_cons] at h
    cases others with
    | nil => simp [compareItems]
    | cons b others =>
      rw [compareItems, compareItems, h.1]
      cases a.compare b with
      | none => rfl
      | some order =>
        cases order with
        | eq => exact ih h.2
        | lt | gt => rfl

/-- The order is turned around when the values are, and both ways there is one or there is
none. -/
theorem compare_swap (a b : Value) : b.compare a = (a.compare b).map Ordering.swap := by
  induction a using inductionOnItems generalizing b with
  | scalar a m ha =>
    by_cases htype : a.type = b.type
    · obtain ⟨n, hb⟩ := exists_toWord?_of_type htype ha
      rw [compare_of_toWord htype ha hb, compare_of_toWord htype.symm hb ha, Option.map_some,
        ← Std.OrientedOrd.eq_swap]
    · rw [compare_of_type_ne htype, compare_of_type_ne (Ne.symm htype), Option.map_none]
  | tuple items ih =>
    cases b with
    | tuple others =>
      rw [Value.compare, Value.compare]
      by_cases hlength : items.length = others.length
      · rw [if_pos hlength, if_pos hlength.symm, compareItems_swap ih]
      · rw [if_neg hlength, if_neg (Ne.symm hlength), Option.map_none]
    | _ => simp [Value.compare]

theorem compareItems_lt_trans {first second third : List Value}
    (h : ∀ a ∈ first, ∀ b c : Value, a.compare b = some .lt → b.compare c = some .lt →
      a.compare c = some .lt)
    (hfirst : compareItems first second = some .lt)
    (hsecond : compareItems second third = some .lt) : compareItems first third = some .lt := by
  induction first generalizing second third with
  | nil => simp [compareItems] at hfirst
  | cons a first ih =>
    rw [List.forall_mem_cons] at h
    cases second with
    | nil => simp [compareItems] at hfirst
    | cons b second =>
      cases third with
      | nil => simp [compareItems] at hsecond
      | cons c third =>
        rw [compareItems_cons_eq_some_iff, compare_eq_some_eq_iff] at hfirst hsecond ⊢
        -- Where the items of one pair are equal, the other pair decides; a pair that differs
        -- is never followed by a comparison, so no third pair has to be comparable.
        rcases hfirst with ⟨rfl, hfirst⟩ | ⟨hab, hne⟩
        · rcases hsecond with ⟨rfl, hsecond⟩ | hbc
          · exact .inl ⟨rfl, ih h.2 hfirst hsecond⟩
          · exact .inr hbc
        · rcases hsecond with ⟨rfl, -⟩ | ⟨hbc, -⟩
          · exact .inr ⟨hab, hne⟩
          · exact .inr ⟨h.1 b c hab hbc, hne⟩

/-- What is below something is below all that is above it. -/
theorem compare_lt_trans {a b c : Value} (hab : a.compare b = some .lt)
    (hbc : b.compare c = some .lt) : a.compare c = some .lt := by
  induction a using inductionOnItems generalizing b c with
  | scalar a m ha =>
    obtain ⟨htype, n, hb, hmn⟩ := (compare_eq_some_iff_of_toWord ha).1 hab
    obtain ⟨htype', k, hc, hnk⟩ := (compare_eq_some_iff_of_toWord hb).1 hbc
    exact (compare_eq_some_iff_of_toWord ha).2
      ⟨htype.trans htype', k, hc, Std.TransCmp.lt_trans hmn hnk⟩
  | tuple items ih =>
    obtain ⟨others, rfl, hlength, hitems⟩ := compare_tuple_eq_some_iff.1 hab
    obtain ⟨rest, rfl, hlength', hothers⟩ := compare_tuple_eq_some_iff.1 hbc
    exact compare_tuple_eq_some_iff.2 ⟨rest, rfl, hlength.trans hlength',
      compareItems_lt_trans (fun a ha b c => ih a ha) hitems hothers⟩

/-- Two tuples that can be compared with a third one may differ in items that cannot be. -/
example :
    (tuple [.int 1, .bool true]).compare (tuple [.int 2, .int 0]) = some .lt ∧
      (tuple [.int 2, .int 0]).compare (tuple [.int 1, .int 3]) = some .gt ∧
      (tuple [.int 1, .bool true]).compare (tuple [.int 1, .int 3]) = none := by
  decide

/-! ## Relations between values -/

/-- The comparison of values is a partial order: equal are the values that are the same, the
order is turned around when the values are, and what is below something is below all that is
above it.  Of values that can be compared exactly one relation of below, equal and above holds,
and the other three relations are the negations of these; values that cannot be compared have no
relation. -/
theorem compare_partialOrder :
    (∀ a b : Value, a.compare b = some .eq ↔ a = b) ∧
    (∀ a b : Value, b.compare a = (a.compare b).map Ordering.swap) ∧
    (∀ a b c : Value, a.compare b = some .lt → b.compare c = some .lt →
      a.compare c = some .lt) ∧
    (∀ a b : Value, (∃ order, a.compare b = some order) →
      ∃ below equal above : Bool, below.toNat + equal.toNat + above.toNat = 1 ∧
        (below ↔ a.compare b = some .lt) ∧ (equal ↔ a = b) ∧ (above ↔ b.compare a = some .lt) ∧
        Builtin.Answers "<" [a, b] (.bool below) ∧ Builtin.Answers "==" [a, b] (.bool equal) ∧
        Builtin.Answers ">" [a, b] (.bool above) ∧ Builtin.Answers "<=" [a, b] (.bool !above) ∧
        Builtin.Answers ">=" [a, b] (.bool !below) ∧ Builtin.Answers "/=" [a, b] (.bool !equal)) ∧
    ∀ a b : Value, a.compare b = none →
      ∀ name ∈ ["<", "==", ">", "<=", ">=", "/="], Builtin.Refuses name [a, b] .incomparable := by
  refine ⟨compare_eq_some_eq_iff, compare_swap, fun _ _ _ => compare_lt_trans, ?_, ?_⟩
  · rintro a b ⟨order, h⟩
    refine ⟨Relation.lt.holds order, Relation.eq.holds order, Relation.gt.holds order,
      Relation.holds_exactly_one order, ?_, ?_, ?_, Builtin.answers_relation rfl h,
      Builtin.answers_relation rfl h, Builtin.answers_relation rfl h,
      Builtin.answers_negation rfl h, Builtin.answers_negation rfl h,
      Builtin.answers_negation rfl h⟩
    · simp [Relation.holds, h]
    · rw [← compare_eq_some_eq_iff]
      simp [Relation.holds, h]
    · rw [compare_swap, h]
      cases order <;> decide
  · intro a b h name hname
    simp only [List.mem_cons, List.not_mem_nil, or_false] at hname
    rcases hname with rfl | rfl | rfl | rfl | rfl | rfl
    all_goals exact Builtin.refuses_relation rfl h

theorem compare_partialOrder_mixed :
    (tuple [.int 1, .tuple [.bool false, .int 5]]).compare
        (tuple [.int 1, .tuple [.color .green, .int 2]]) = none ∧
      Builtin.Refuses "<=" [tuple [.int 1, .tuple [.bool false, .int 5]],
        tuple [.int 1, .tuple [.color .green, .int 2]]] .incomparable ∧
      (tuple [.int 1, .tuple [.bool false, .int 5]]).compare
        (tuple [.int 1, .tuple [.bool true, .dir .north]]) = some .lt ∧
      (tuple [.int 1, .tuple [.bool true, .dir .north]]).compare
        (tuple [.int 2, .dir .east]) = some .lt ∧
      Builtin.Answers "/=" [tuple [.int 1, .tuple [.bool false, .int 5]],
        tuple [.int 2, .dir .east]] (.bool true) := by
  obtain ⟨hequal, -, htrans, hrelations, hrefused⟩ := compare_partialOrder
  have hnone : (tuple [.int 1, .tuple [.bool false, .int 5]]).compare
      (tuple [.int 1, .tuple [.color .green, .int 2]]) = none := by decide
  have hfirst : (tuple [.int 1, .tuple [.bool false, .int 5]]).compare
      (tuple [.int 1, .tuple [.bool true, .dir .north]]) = some .lt := by decide
  have hsecond : (tuple [.int 1, .tuple [.bool true, .dir .north]]).compare
      (tuple [.int 2, .dir .east]) = some .lt := by decide
  have hlt := htrans _ _ _ hfirst hsecond
  obtain ⟨-, equal, -, -, -, heq, -, -, -, -, -, -, hne⟩ := hrelations _ _ ⟨_, hlt⟩
  refine ⟨hnone, hrefused _ _ hnone "<=" (by decide), hfirst, hsecond, ?_⟩
  cases equal with
  | false => exact hne
  | true =>
    rw [(hequal _ _).2 (heq.1 rfl)] at hlt
    cases hlt

end Value
end Gobstones
