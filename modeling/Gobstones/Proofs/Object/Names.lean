import Mathlib.Logic.Function.Basic
import Gobstones.Object.Naming
/-!
# Generated names

This module shows that generated names tell for what they were generated: the digits of
a name tell its number, and a table that is numbered in turn holds each name for one key.

Main definitions:

- {lit}`Naming.LooksGenerated`: an initial with letters, digits and underscores behind it.
- {lit}`Naming.NumberedTable`: the names of a table were generated in turn.
- {lit}`Naming.Extends`: one table has the entries of another.

Main results:

- Theorem {lit}`Naming.digits_injective`: digits tell their number.
- Theorem {lit}`Naming.NumberedTable.eq_of_lookup`: a name was generated for one key only.
-/

namespace Gobstones
namespace Naming

/-! ## Generated names -/

/-- The number that digits stand for. -/
def valueOf (cs : List Char) : Nat :=
  cs.foldl (fun value c => 63 * value + alphabet.idxOf c) 0

theorem idxOf_digit {n : Nat} (h : n < 63) : alphabet.idxOf (digit n) = n := by
  have hall : ∀ i : Fin 63, alphabet.idxOf (digit i) = i := by decide
  exact hall ⟨n, h⟩

theorem digit_mem {n : Nat} (h : n < 63) : digit n ∈ alphabet := by
  have hall : ∀ i : Fin 63, digit i ∈ alphabet := by decide
  exact hall ⟨n, h⟩

theorem valueOf_digits (n : Nat) : valueOf (digits n) = n := by
  fun_induction digits n with
  | case1 => rfl
  | case2 n hn ih =>
    have hlast : alphabet.idxOf (digit (n % 63)) = n % 63 := idxOf_digit (Nat.mod_lt _ (by decide))
    unfold valueOf at ih ⊢
    rw [List.foldl_append, ih]
    simp only [List.foldl_cons, List.foldl_nil, hlast]
    omega

/-- Digits tell their number. -/
theorem digits_injective : Function.Injective digits :=
  Function.LeftInverse.injective valueOf_digits

theorem mem_alphabet_of_mem_digits {n : Nat} {c : Char} (h : c ∈ digits n) : c ∈ alphabet := by
  fun_induction digits n with
  | case1 => simp at h
  | case2 n hn ih =>
    rcases List.mem_append.1 h with h | h
    · exact ih h
    · obtain rfl := List.mem_singleton.1 h
      exact digit_mem (Nat.mod_lt _ (by decide))

/-- An initial followed by letters, digits and underscores alone. -/
def LooksGenerated (initial : Char) (name : String) : Prop :=
  name.toList.head? = some initial ∧ ∀ c ∈ name.toList.tail, c ∈ alphabet

instance (initial : Char) (name : String) : Decidable (LooksGenerated initial name) :=
  decidable_of_iff
    (name.toList.head? = some initial ∧ name.toList.tail.all fun c => decide (c ∈ alphabet))
    (and_congr_right' (by simp))

theorem looksGenerated_generated (initial : Char) (n : Nat) :
    LooksGenerated initial (generated initial n) := by
  simpa [LooksGenerated, generated] using fun c => mem_alphabet_of_mem_digits

/-- Names that look generated have no dollar sign in them. -/
theorem dollar_not_mem_of_looksGenerated {initial : Char} (hinitial : initial ≠ '$')
    {name : String} (h : LooksGenerated initial name) : '$' ∉ name.toList := by
  have halphabet : '$' ∉ alphabet := by decide
  intro hmem
  obtain ⟨hhead, htail⟩ := h
  cases hname : name.toList with
  | nil => simp [hname] at hhead
  | cons c cs =>
    obtain rfl : c = initial := by simpa [hname] using hhead
    rw [hname, List.mem_cons] at hmem
    rcases hmem with heq | hmem
    · exact hinitial heq.symm
    · exact halphabet (htail _ (by simpa [hname] using hmem))

theorem generated_inj {initial : Char} {m n : Nat} (h : generated initial m = generated initial n) :
    m = n := by
  have hcons : initial :: digits m = initial :: digits n := by
    simpa [generated] using congrArg String.toList h
  exact digits_injective (List.cons.inj hcons).2

/-! ## Tables -/

section

variable {α : Type} [BEq α] [LawfulBEq α] {initial : Char} {table : List (α × String)}

/-- The names of a table were generated in turn, each for a new key. -/
def NumberedTable (initial : Char) : List (α × String) → Prop
  | [] => True
  | (key, name) :: rest =>
    name = generated initial rest.length ∧ rest.lookup key = none ∧ NumberedTable initial rest

omit [LawfulBEq α] in
theorem NumberedTable.exists_of_lookup (h : NumberedTable initial table) {key : α} {name : String}
    (hname : table.lookup key = some name) :
    ∃ n < table.length, name = generated initial n := by
  induction table with
  | nil => simp at hname
  | cons first rest ih =>
    rw [List.lookup_cons] at hname
    split at hname
    · obtain rfl := Option.some.inj hname
      exact ⟨rest.length, by simp, h.1⟩
    · obtain ⟨n, hn, rfl⟩ := ih h.2.2 hname
      exact ⟨n, by simp; omega, rfl⟩

/-- A name was generated for one key only. -/
theorem NumberedTable.eq_of_lookup (h : NumberedTable initial table) {first second : α}
    {name : String} (hfirst : table.lookup first = some name)
    (hsecond : table.lookup second = some name) : first = second := by
  induction table with
  | nil => simp at hfirst
  | cons entry rest ih =>
    obtain ⟨hentry, -, hrest⟩ := h
    have hlater {key : α} (hkey : rest.lookup key = some name) : entry.2 ≠ name := by
      obtain ⟨n, hn, rfl⟩ := hrest.exists_of_lookup hkey
      rw [hentry]
      exact fun heq => absurd (generated_inj heq) (by omega)
    rw [List.lookup_cons] at hfirst hsecond
    split at hfirst
    · next hf =>
      split at hsecond
      · next hs => rw [eq_of_beq hf, eq_of_beq hs]
      · exact absurd (Option.some.inj hfirst) (hlater hsecond)
    · split at hsecond
      · exact absurd (Option.some.inj hsecond) (hlater hfirst)
      · exact ih hrest hfirst hsecond

theorem NumberedTable.name_eq_iff (h : NumberedTable initial table) {first second : α}
    {name other : String} (hfirst : table.lookup first = some name)
    (hsecond : table.lookup second = some other) : name = other ↔ first = second := by
  constructor
  · rintro rfl
    exact h.eq_of_lookup hfirst hsecond
  · rintro rfl
    exact Option.some.inj (hfirst.symm.trans hsecond)

/-- One table has the entries of another. -/
def Extends (before after : List (α × String)) : Prop :=
  ∀ key name, before.lookup key = some name → after.lookup key = some name

omit [LawfulBEq α] in
theorem chooseFrom_of_lookup {key : α} {name : String} (h : table.lookup key = some name) :
    chooseFrom initial table key = (name, table) := by
  rw [chooseFrom, h]

/-- The chosen name is an entry of the table afterwards. -/
theorem lookup_chooseFrom (key : α) :
    (chooseFrom initial table key).2.lookup key = some (chooseFrom initial table key).1 := by
  unfold chooseFrom
  split
  · assumption
  · simp

theorem extends_chooseFrom (key : α) : Extends table (chooseFrom initial table key).2 := by
  unfold chooseFrom
  split
  · exact fun _ _ h => h
  · next hnone =>
    intro other name h
    have hne : other ≠ key := by
      rintro rfl
      simp [hnone] at h
    rw [List.lookup_cons, beq_false_of_ne hne]
    exact h

omit [LawfulBEq α] in
theorem NumberedTable.chooseFrom (h : NumberedTable initial table) (key : α) :
    NumberedTable initial (chooseFrom initial table key).2 := by
  unfold Naming.chooseFrom
  split
  · exact h
  · next hnone => exact ⟨rfl, hnone, h⟩

/-- A name that is recalled without a change is an entry of the table. -/
theorem lookup_of_settled {key : α} (h : (Naming.chooseFrom initial table key).2 = table) :
    table.lookup key = some (Naming.chooseFrom initial table key).1 := by
  have hlookup : (Naming.chooseFrom initial table key).2.lookup key =
      some (Naming.chooseFrom initial table key).1 := lookup_chooseFrom key
  rwa [h] at hlookup

end

/-! ## Names of routines -/

section

variable {naming : Naming} {program : Program} {name : String}

theorem routineName_builtin (h : program.builtins.contains name) :
    naming.routineName program name = (name, naming) := by
  rw [routineName, if_pos h]

theorem routineName_own {callee : Routine} (hbuiltin : ¬program.builtins.contains name)
    (h : program.routine? name = some callee) :
    naming.routineName program name =
      if naming.style = .verbose ∨ keepsName program callee then
        (naming.marked program name, naming)
      else
        ((chooseFrom 'R' naming.routines (program.moduleName, name)).1,
          { naming with
            routines := (chooseFrom 'R' naming.routines (program.moduleName, name)).2 }) := by
  rw [routineName, if_neg hbuiltin, h]

/-- A linked routine has the name that it has in its own module. -/
theorem routineName_link {link : Link Program} (hbuiltin : ¬program.builtins.contains name)
    (hroutine : program.routine? name = none) (h : program.link? name = some link) :
    naming.routineName program name = naming.routineName link.target link.routine := by
  rw [routineName, if_neg hbuiltin, hroutine]
  simp only
  split
  · next other hother => rw [Option.some.inj (h.symm.trans hother)]
  · next hnone => simp [h] at hnone

theorem routineName_unknown (hbuiltin : ¬program.builtins.contains name)
    (hroutine : program.routine? name = none) (h : program.link? name = none) :
    naming.routineName program name = (name, naming) := by
  rw [routineName, if_neg hbuiltin, hroutine]
  simp only
  split
  · next other hother => simp [h] at hother
  · rfl

end

end Naming
end Gobstones
