import Gobstones.Text.Numeral
/-!
# Numerals

This module shows that canonical numerals are read back as the numbers that they were
written for, and tells all numerals that are read.

Main definitions:

- {lit}`Numeral.Denotes`: the numerals of an integer.

Main results:

- Theorem {lit}`Numeral.natural?_ofNat`: natural numbers.
- Theorem {lit}`Numeral.uint64?_ofNat`: counts below the bound of 64 bits.
- Theorem {lit}`Numeral.integer?_ofInt`: integers.
- Theorem {lit}`Numeral.int64?_eq_some_iff`: the numerals that are read as signed words.
-/

namespace Gobstones
namespace Numeral

/-- A run of digits is read as the number that it stands for. -/
theorem digitsFrom?_eq_some {cs : List Char} (h : ∀ c ∈ cs, c.isDigit) (acc : Nat) :
    digitsFrom? acc cs = some (Nat.ofDigitChars 10 cs acc) := by
  induction cs generalizing acc with
  | nil => rfl
  | cons c cs ih =>
    rw [List.forall_mem_cons] at h
    simp only [digitsFrom?, digit?, h.1, if_true]
    rw [ih h.2, Nat.ofDigitChars_cons]

theorem isDigit_of_mem_ofNat {n : Nat} {c : Char} (h : c ∈ ofNat n) : c.isDigit :=
  Nat.isDigit_of_mem_toDigits (by decide) (by decide) h

/-- A canonical numeral starts with a digit. -/
theorem exists_ofNat_eq_cons (n : Nat) : ∃ c cs, ofNat n = c :: cs ∧ c.isDigit := by
  have hne : ofNat n ≠ [] := Nat.toDigits_ne_nil
  obtain ⟨c, cs, h⟩ := List.exists_cons_of_ne_nil hne
  have hc : c ∈ ofNat n := by
    rw [h]
    exact List.mem_cons_self
  exact ⟨c, cs, h, isDigit_of_mem_ofNat hc⟩

@[simp]
theorem natural?_ofNat (n : Nat) : natural? (ofNat n) = some n := by
  obtain ⟨c, cs, h, -⟩ := exists_ofNat_eq_cons n
  rw [h, natural?, ← h, digitsFrom?_eq_some fun _ => isDigit_of_mem_ofNat, ofNat,
    Nat.ofDigitChars_ten_toDigits]

/-- A numeral that starts with a digit has no sign. -/
theorem unsigned?_of_isDigit {bound : Nat} {c : Char} {cs : List Char} (h : c.isDigit) :
    unsigned? bound (c :: cs) = (natural? (c :: cs)).filter (· < bound) := by
  unfold unsigned?
  split
  · next hplus =>
    obtain ⟨rfl, -⟩ := List.cons.inj hplus
    simp at h
  · rfl

theorem integer?_of_isDigit {c : Char} {cs : List Char} (h : c.isDigit) :
    integer? (c :: cs) = (natural? (c :: cs)).map Int.ofNat := by
  unfold integer?
  split
  · next hminus =>
    obtain ⟨rfl, -⟩ := List.cons.inj hminus
    simp at h
  · next hplus =>
    obtain ⟨rfl, -⟩ := List.cons.inj hplus
    simp at h
  · rfl

/-- A count is read back if it fits into 64 bits. -/
theorem uint64?_ofNat {n : Nat} (h : n < UInt64.size) : uint64? (ofNat n) = some n := by
  obtain ⟨c, cs, hcons, hdigit⟩ := exists_ofNat_eq_cons n
  rw [uint64?, hcons, unsigned?_of_isDigit hdigit, ← hcons, natural?_ofNat]
  simpa using h

/-- A count that is read fits into 64 bits. -/
theorem lt_of_uint64? {cs : List Char} {n : Nat} (h : uint64? cs = some n) : n < UInt64.size := by
  simpa using (Option.filter_eq_some_iff.1 h).2

@[simp]
theorem integer?_ofInt (n : Int) : integer? (ofInt n) = some n := by
  unfold ofInt
  split
  · next hneg =>
    rw [integer?, natural?_ofNat]
    change some (-(n.natAbs : Int)) = some n
    congr 1
    omega
  · next hnonneg =>
    obtain ⟨c, cs, hcons, hdigit⟩ := exists_ofNat_eq_cons n.natAbs
    rw [hcons, integer?_of_isDigit hdigit, ← hcons, natural?_ofNat, Option.map_some]
    congr 1
    exact Int.natAbs_of_nonneg (by omega)

theorem isDigit_or_of_mem_ofInt {n : Int} {c : Char} (h : c ∈ ofInt n) : c.isDigit ∨ c = '-' := by
  unfold ofInt at h
  split at h
  · rcases List.mem_cons.1 h with rfl | h
    · exact .inr rfl
    · exact .inl (isDigit_of_mem_ofNat h)
  · exact .inl (isDigit_of_mem_ofNat h)

/-! ## Numerals with leading zeros and signs -/

/-- A nonempty run of digits. -/
def IsRun (cs : List Char) : Prop :=
  cs ≠ [] ∧ ∀ c ∈ cs, c.isDigit

/-- The number that a run of digits stands for. -/
def runValue (cs : List Char) : Nat :=
  Nat.ofDigitChars 10 cs 0

/-- The numerals of an integer: a run of digits, with at most one sign in front of it. -/
inductive Denotes : List Char → Int → Prop
  | unsigned {digits : List Char} (h : IsRun digits) : Denotes digits (runValue digits)
  | plus {digits : List Char} (h : IsRun digits) : Denotes ('+' :: digits) (runValue digits)
  | minus {digits : List Char} (h : IsRun digits) : Denotes ('-' :: digits) (-(runValue digits))

theorem isDigit_of_digitsFrom? {acc n : Nat} {cs : List Char} (h : digitsFrom? acc cs = some n) :
    ∀ c ∈ cs, c.isDigit := by
  induction cs generalizing acc with
  | nil => simp
  | cons c cs ih =>
    simp only [digitsFrom?, digit?] at h
    by_cases hc : c.isDigit
    · rw [if_pos hc] at h
      exact List.forall_mem_cons.2 ⟨hc, ih h⟩
    · rw [if_neg hc] at h
      cases h

/-- Exactly the runs of digits are read as natural numbers. -/
theorem natural?_eq_some_iff {cs : List Char} {n : Nat} :
    natural? cs = some n ↔ IsRun cs ∧ n = runValue cs := by
  cases cs with
  | nil => simp [natural?, IsRun]
  | cons c cs =>
    rw [natural?]
    constructor
    · intro h
      have hdigits := isDigit_of_digitsFrom? h
      rw [digitsFrom?_eq_some hdigits] at h
      exact ⟨⟨by simp, hdigits⟩, (Option.some.inj h).symm⟩
    · rintro ⟨hrun, rfl⟩
      exact digitsFrom?_eq_some hrun.2 0

/-- Exactly the numerals of an integer are read as the integer. -/
theorem integer?_eq_some_iff {cs : List Char} {n : Int} :
    integer? cs = some n ↔ Denotes cs n := by
  constructor
  · intro h
    unfold integer? at h
    split at h
    · next rest =>
      cases hrest : natural? rest with
      | none => simp [hrest] at h
      | some m =>
        obtain ⟨hrun, rfl⟩ := natural?_eq_some_iff.1 hrest
        obtain rfl : -(runValue rest : Int) = n := by simpa [hrest] using h
        exact .minus hrun
    · next rest =>
      obtain ⟨m, hrest, rfl⟩ := Option.map_eq_some_iff.1 h
      obtain ⟨hrun, rfl⟩ := natural?_eq_some_iff.1 hrest
      exact .plus hrun
    · obtain ⟨m, hrest, rfl⟩ := Option.map_eq_some_iff.1 h
      obtain ⟨hrun, rfl⟩ := natural?_eq_some_iff.1 hrest
      exact .unsigned hrun
  · intro h
    cases h with
    | @unsigned digits hrun =>
      obtain ⟨c, cs, rfl⟩ := List.exists_cons_of_ne_nil hrun.1
      rw [integer?_of_isDigit (hrun.2 c List.mem_cons_self), natural?_eq_some_iff.2 ⟨hrun, rfl⟩]
      rfl
    | plus hrun =>
      rw [integer?, natural?_eq_some_iff.2 ⟨hrun, rfl⟩]
      rfl
    | minus hrun =>
      rw [integer?, natural?_eq_some_iff.2 ⟨hrun, rfl⟩]
      rfl

/-- Exactly the numerals of the integers of 64 bits are read as signed words. -/
theorem int64?_eq_some_iff {cs : List Char} {n : Int64} :
    int64? cs = some n ↔ Denotes cs n.toInt := by
  rw [← integer?_eq_some_iff, int64?]
  constructor
  · intro h
    split at h
    · next m hm =>
      split at h
      · next hrange =>
        obtain rfl := Option.some.inj h
        rw [hm, Int64.toInt_ofInt_of_le hrange.1 (Int.lt_of_le_of_lt hrange.2 (by decide))]
      · cases h
    · cases h
  · intro h
    simp only [h, if_pos (And.intro n.minValue_le_toInt n.toInt_le), Int64.ofInt_toInt]

theorem Denotes.isDigit_or {cs : List Char} {n : Int} (h : Denotes cs n) :
    cs ≠ [] ∧ ∀ c ∈ cs, c.isDigit ∨ c = '+' ∨ c = '-' := by
  cases h with
  | unsigned hrun => exact ⟨hrun.1, fun c hc => .inl (hrun.2 c hc)⟩
  | plus hrun | minus hrun =>
    refine ⟨by simp, fun c hc => ?_⟩
    rcases List.mem_cons.1 hc with rfl | hc
    · simp
    · exact .inl (hrun.2 c hc)

end Numeral
end Gobstones
