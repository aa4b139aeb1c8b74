import Mathlib.Data.Set.Function
import Gobstones.Machine.Step
/-!
# Variables under new names

This module shows how the values of variables change, and that variables under new names
have the values that they had, as long as the new names stay apart.

Main definitions:

- {lit}`Locals.RenamedOn`: variables have their values under new names.

Main results:

- Theorems {lit}`Locals.get?_set` and {lit}`Locals.get?_erase`: the values after a change.
- Theorem {lit}`Locals.RenamedOn.ofArguments`: arguments are passed under new names.
-/

namespace Gobstones
namespace Locals

/-! ## Values after a change -/

theorem get?_set (locals : Locals) (name other : String) (value : Value) :
    (locals.set name value).get? other =
      if other = name then some value else locals.get? other := by
  unfold set get?
  dsimp only
  induction locals.entries with
  | nil =>
    by_cases h : other = name
    · simp [Ordered.insert, h]
    · simp [Ordered.insert, List.lookup_cons, h, beq_false_of_ne h]
  | cons first rest ih =>
    by_cases h : other = name
    · subst h
      rw [if_pos rfl] at ih ⊢
      simp only [Ordered.insert]
      split
      · simp
      · next hne =>
        split
        · simp
        · rw [List.lookup_cons, beq_false_of_ne hne]
          exact ih
    · rw [if_neg h] at ih ⊢
      simp only [Ordered.insert]
      split
      · next heq =>
        rw [List.lookup_cons, List.lookup_cons, ← heq, beq_false_of_ne h]
      · split
        · rw [List.lookup_cons, beq_false_of_ne h]
        · rw [List.lookup_cons, List.lookup_cons, ih]

theorem get?_erase (locals : Locals) (name other : String) :
    (locals.erase name).get? other = if other = name then none else locals.get? other := by
  unfold erase get? Ordered.erase
  dsimp only
  induction locals.entries with
  | nil => simp
  | cons first rest ih =>
    by_cases hfirst : first.1 = name
    · rw [List.filter_cons_of_neg (by simpa using hfirst), ih, List.lookup_cons, hfirst]
      by_cases h : other = name
      · simp [h]
      · simp [h, beq_false_of_ne h]
    · rw [List.filter_cons_of_pos (by simpa using hfirst), List.lookup_cons, List.lookup_cons, ih]
      by_cases h : other = name
      · subst h
        simp [beq_false_of_ne (Ne.symm hfirst)]
      · simp [h]

/-! ## New names -/

/-- Each of some variables has its value under its new name. -/
def RenamedOn (rename : String → String) (names : Set String) (locals renamed : Locals) : Prop :=
  ∀ name ∈ names, renamed.get? (rename name) = locals.get? name

namespace RenamedOn

variable {rename : String → String} {names : Set String} {locals renamed : Locals}

section

variable (hinj : Set.InjOn rename names)

include hinj

theorem set (h : RenamedOn rename names locals renamed) {name : String} (hname : name ∈ names)
    (value : Value) :
    RenamedOn rename names (locals.set name value) (renamed.set (rename name) value) := by
  intro other hother
  rw [get?_set, get?_set]
  by_cases heq : other = name
  · rw [if_pos heq, if_pos (congrArg rename heq)]
  · rw [if_neg heq, if_neg fun h => heq (hinj hother hname h)]
    exact h other hother

theorem erase (h : RenamedOn rename names locals renamed) {name : String}
    (hname : name ∈ names) :
    RenamedOn rename names (locals.erase name) (renamed.erase (rename name)) := by
  intro other hother
  rw [get?_erase, get?_erase]
  by_cases heq : other = name
  · rw [if_pos heq, if_pos (congrArg rename heq)]
  · rw [if_neg heq, if_neg fun h => heq (hinj hother hname h)]
    exact h other hother

/-- Parameters take over further arguments under new names. -/
theorem foldl_set (h : RenamedOn rename names locals renamed) {params : List String}
    (hparams : ∀ name ∈ params, name ∈ names) (args : List Value) :
    RenamedOn rename names
      ((params.zip args).foldl (fun locals binding => locals.set binding.1 binding.2) locals)
      (((params.map rename).zip args).foldl
        (fun locals binding => locals.set binding.1 binding.2) renamed) := by
  induction params generalizing args locals renamed with
  | nil => exact h
  | cons param rest ih =>
    rw [List.forall_mem_cons] at hparams
    cases args with
    | nil => exact h
    | cons arg args => exact ih (h.set hinj hparams.1 arg) hparams.2 args

/-- Arguments are passed to parameters under new names. -/
theorem ofArguments {params : List String} (hparams : ∀ name ∈ params, name ∈ names)
    (args : List Value) :
    RenamedOn rename names (Locals.ofArguments params args)
      (Locals.ofArguments (params.map rename) args) :=
  foldl_set hinj (fun _ _ => rfl) hparams args

end

/-- Variables that keep their names are returned with the same values. -/
theorem resultBindings {typed : List String} (h : RenamedOn rename names locals renamed)
    (hnames : ∀ name ∈ typed, Polyname.base name ∈ names)
    (hrename : ∀ name ∈ typed, rename (Polyname.base name) = Polyname.base name) :
    Machine.resultBindings renamed typed = Machine.resultBindings locals typed := by
  induction typed with
  | nil => rfl
  | cons name rest ih =>
    rw [List.forall_mem_cons] at hnames hrename
    have hvalue := h _ hnames.1
    rw [hrename.1] at hvalue
    simp only [Machine.resultBindings, hvalue, ih hnames.2 hrename.2]

end RenamedOn

end Locals
end Gobstones
