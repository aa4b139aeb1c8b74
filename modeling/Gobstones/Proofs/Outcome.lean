/-!
# Outcomes that can be errors

This module takes outcomes apart that succeed: what starts with another outcome, and what is
changed by a function.  It also says how to find out what an outcome is whose values cannot be
compared.

Main definitions:

- {lit}`errorOf?`: the error of an outcome.

Main results:

- Theorem {lit}`exists_of_bind_eq_ok`: both parts of a sequence succeed.
- Theorem {lit}`exists_of_map_eq_ok`: what is changed succeeds.
-/

namespace Gobstones

/-- What is left of an outcome that starts with another one. -/
theorem exists_of_bind_eq_ok {ε α β : Type} {first : Except ε α} {rest : α → Except ε β} {b : β}
    (h : first >>= rest = .ok b) : ∃ a, first = .ok a ∧ rest a = .ok b := by
  cases first with
  | error e => simp [bind, Except.bind] at h
  | ok a => exact ⟨a, rfl, h⟩

/-- What is left of an outcome that is changed by a function. -/
theorem exists_of_map_eq_ok {ε α β : Type} {outcome : Except ε α} {f : α → β} {b : β}
    (h : outcome.map f = .ok b) : ∃ a, outcome = .ok a ∧ f a = b := by
  cases outcome with
  | error e => simp [Except.map] at h
  | ok a => exact ⟨a, rfl, Except.ok.inj h⟩

/-- The error of an outcome. -/
def errorOf? {ε α : Type} : Except ε α → Option ε
  | .error e => some e
  | .ok _ => none

theorem eq_error_of_errorOf? {ε α : Type} {outcome : Except ε α} {e : ε}
    (h : errorOf? outcome = some e) : outcome = .error e := by
  cases outcome with
  | error other => rw [Option.some.inj h]
  | ok a => cases h

/-- An outcome that passes a test on its value succeeds. -/
theorem exists_of_any_toOption {ε α : Type} {outcome : Except ε α} {test : α → Bool}
    (h : outcome.toOption.any test) : ∃ a, outcome = .ok a ∧ test a := by
  cases outcome with
  | error e => cases h
  | ok a => exact ⟨a, rfl, h⟩

end Gobstones
