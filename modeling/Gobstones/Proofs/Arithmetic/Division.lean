import Mathlib.Data.Rat.Floor
import Gobstones.Proofs.Builtin
/-!
# Division toward negative infinity

This module shows that quotients are rounded down.  Machine division truncates; where the
remainder is not zero and the operands have opposite signs, the quotient is one too large and
the remainder has the wrong sign.  Neither correction leaves the 64 bits, and only the smallest
integer divided by minus one has a quotient that does.

Main definitions:

- {lit}`Arithmetic.Floors`: quotient and remainder of a division of integers that rounds down.

Main results:

- Theorem {lit}`Arithmetic.Floors.floor_eq`: such a quotient is the floor of the fraction.
- Theorem {lit}`Arithmetic.floors_of_ok`: quotients and remainders of words.
- Theorem {lit}`Arithmetic.floorDiv_floorMod`: division of words, with its wrapping extreme and
  its failure.
-/

namespace Gobstones
namespace Arithmetic

/-! ## Integers -/

/-- Quotient and remainder of a division that rounds toward negative infinity: the remainder
lies between zero and the divisor and is not the divisor. -/
structure Floors (a b q r : Int) : Prop where
  sum : b * q + r = a
  side : (0 ≤ r ∧ r < b) ∨ (b < r ∧ r ≤ 0)

/-- The quotient of a division that rounds down is the floor of the fraction. -/
theorem Floors.floor_eq {a b q r : Int} (h : Floors a b q r) : ⌊(a : ℚ) / b⌋ = q := by
  have hsum : (a : ℚ) = b * q + r := by exact_mod_cast h.sum.symm
  rw [Int.floor_eq_iff]
  rcases h.side with ⟨hnonneg, hlt⟩ | ⟨hlt, hnonpos⟩
  · have hb : (0 : ℚ) < b := by exact_mod_cast (by omega : 0 < b)
    have hnonneg' : (0 : ℚ) ≤ r := by exact_mod_cast hnonneg
    have hlt' : (r : ℚ) < b := by exact_mod_cast hlt
    rw [le_div_iff₀ hb, div_lt_iff₀ hb]
    constructor <;> linarith
  · have hb : (b : ℚ) < 0 := by exact_mod_cast (by omega : b < 0)
    have hnonpos' : (r : ℚ) ≤ 0 := by exact_mod_cast hnonpos
    have hlt' : (b : ℚ) < r := by exact_mod_cast hlt
    rw [le_div_iff_of_neg hb, div_lt_iff_of_neg hb]
    constructor <;> linarith

theorem natAbs_tmod_lt {a b : Int} (hb : b ≠ 0) : (a.tmod b).natAbs < b.natAbs := by
  rw [Int.natAbs_tmod]
  exact Nat.mod_lt _ (by omega)

/-- A truncating division rounds down if its remainder has the sign of the divisor. -/
theorem floors_truncated {a b : Int} (hb : b ≠ 0)
    (h : a.tmod b = 0 ∨ (a.tmod b < 0 ↔ b < 0)) : Floors a b (a.tdiv b) (a.tmod b) where
  sum := Int.mul_tdiv_add_tmod a b
  side := by
    have hlt := natAbs_tmod_lt (a := a) hb
    omega

/-- Otherwise it rounds up, and both of its results are corrected. -/
theorem floors_corrected {a b : Int} (hb : b ≠ 0) (hr : a.tmod b ≠ 0)
    (h : ¬(a.tmod b < 0 ↔ b < 0)) : Floors a b (a.tdiv b - 1) (a.tmod b + b) where
  sum := by
    calc b * (a.tdiv b - 1) + (a.tmod b + b)
      _ = b * a.tdiv b + a.tmod b := by ring
      _ = a := Int.mul_tdiv_add_tmod a b
  side := by
    have hlt := natAbs_tmod_lt (a := a) hb
    omega

/-! ## Words -/

section Words

variable {a b : Int64}

/-- Only one quotient of words is no word. -/
theorem toInt_div (h : ¬(a = Int64.minValue ∧ b = -1)) :
    (a / b).toInt = a.toInt.tdiv b.toInt := by
  by_cases ha : a = Int64.minValue
  · exact Int64.toInt_div_of_ne_right a b fun hb => h ⟨ha, hb⟩
  · exact Int64.toInt_div_of_ne_left a b ha

theorem lt_zero_iff (n : Int64) : n < 0 ↔ n.toInt < 0 := by
  rw [Int64.lt_iff_toInt_lt, Int64.toInt_zero]

theorem oppositeSigns_iff : oppositeSigns a b = true ↔ ¬(a.toInt < 0 ↔ b.toInt < 0) := by
  rw [oppositeSigns, ← lt_zero_iff, ← lt_zero_iff]
  by_cases ha : a < 0 <;> by_cases hb : b < 0 <;> simp [ha, hb]

/-- A remainder that is not zero lies on the side of the dividend. -/
theorem mod_lt_zero_iff (h : a % b ≠ 0) : a % b < 0 ↔ a < 0 := by
  have hne : (a % b).toInt ≠ 0 := fun heq => h (Int64.toInt_inj.1 heq)
  rw [lt_zero_iff, lt_zero_iff, Int64.toInt_mod]
  rw [Int64.toInt_mod] at hne
  by_cases ha : 0 ≤ a.toInt
  · have hnonneg := Int.tmod_nonneg b.toInt ha
    omega
  · have hnonpos := Int.tmod_nonneg b.toInt (a := -a.toInt) (by omega)
    rw [Int.neg_tmod] at hnonpos
    omega

/-- Quotient and remainder are corrected in the same cases. -/
theorem oppositeSigns_mod (h : a % b ≠ 0) : oppositeSigns (a % b) b = oppositeSigns a b := by
  rw [oppositeSigns, oppositeSigns, decide_eq_decide.2 (mod_lt_zero_iff h)]

/-- A divisor that leaves a remainder is neither one nor minus one. -/
theorem two_le_natAbs (h : a % b ≠ 0) (hb : b ≠ 0) : 2 ≤ b.toInt.natAbs := by
  have hr : a.toInt.tmod b.toInt ≠ 0 := by
    rw [← Int64.toInt_mod]
    exact fun heq => h (Int64.toInt_inj.1 heq)
  have hb' : b.toInt ≠ 0 := fun heq => hb (Int64.toInt_inj.1 heq)
  have hlt := natAbs_tmod_lt (a := a.toInt) hb'
  omega

/-- The correction of a quotient does not wrap. -/
theorem toInt_div_sub_one (hr : a % b ≠ 0) (hb : b ≠ 0) :
    (a / b - 1).toInt = (a / b).toInt - 1 := by
  have htwo := two_le_natAbs hr hb
  have hminus : b ≠ -1 := by
    rintro rfl
    exact absurd htwo (by decide)
  have hquotient := Int64.toInt_div_of_ne_right a b hminus
  -- Such a quotient is at most half as large as a word can be, so there is room below it.
  have hle : (a / b).toInt.natAbs ≤ a.toInt.natAbs / 2 := by
    rw [hquotient, Int.natAbs_tdiv]
    exact Nat.div_le_div_left htwo (by decide)
  have hlow := a.le_toInt
  have hhigh := a.toInt_lt
  rw [Int64.toInt_sub, Int64.toInt_one]
  exact Int.bmod_eq_of_le (by omega) (by omega)

/-- The correction of a remainder does not wrap. -/
theorem toInt_mod_add (h : oppositeSigns (a % b) b) :
    (a % b + b).toInt = (a % b).toInt + b.toInt := by
  have hsigns := oppositeSigns_iff.1 h
  have hlow := (a % b).le_toInt
  have hhigh := (a % b).toInt_lt
  have hlow' := b.le_toInt
  have hhigh' := b.toInt_lt
  rw [Int64.toInt_add]
  exact Int.bmod_eq_of_le (by omega) (by omega)

/-- Quotient and remainder of words make up the dividend, wrapped. -/
theorem div_mul_add_mod (a b : Int64) : a / b * b + a % b = a := by
  apply Int64.toInt_inj.1
  rw [Int64.toInt_add, Int64.toInt_mul, Int64.toInt_div, Int64.toInt_mod, Int.bmod_mul_bmod,
    Int.bmod_add_bmod, Int.mul_comm, Int.mul_tdiv_add_tmod]
  exact a.toInt_bmod

/-! ## Quotients and remainders -/

/-- The quotient is corrected where the remainder lies on the wrong side. -/
theorem floorDiv_eq (a : Int64) (hb : b ≠ 0) :
    floorDiv a b =
      .ok (if a % b ≠ 0 ∧ oppositeSigns (a % b) b then a / b - 1 else a / b) := by
  rw [floorDiv, if_neg hb]
  by_cases hr : a % b = 0
  · simp [hr]
  · rw [oppositeSigns_mod hr]
    split <;> rfl

/-- The remainder is corrected where it lies on the wrong side. -/
theorem floorMod_eq (a : Int64) (hb : b ≠ 0) :
    floorMod a b =
      .ok (if a % b ≠ 0 ∧ oppositeSigns (a % b) b then a % b + b else a % b) := by
  rw [floorMod, if_neg hb]
  split <;> rfl

/-- There is no quotient for the divisor zero alone. -/
theorem floorDiv_eq_error_iff {e : ArithmeticError} :
    floorDiv a b = .error e ↔ e = .divisionByZero ∧ b = 0 := by
  by_cases hb : b = 0
  · simp [floorDiv, hb, eq_comm]
  · simp [floorDiv_eq a hb, hb]

/-- There is no remainder for the divisor zero alone. -/
theorem floorMod_eq_error_iff {e : ArithmeticError} :
    floorMod a b = .error e ↔ e = .divisionByZero ∧ b = 0 := by
  by_cases hb : b = 0
  · simp [floorMod, hb, eq_comm]
  · simp [floorMod_eq a hb, hb]

/-- Quotient and remainder are both corrected, or both those of machine division. -/
theorem results_of_ok {q r : Int64} (hb : b ≠ 0) (hq : floorDiv a b = .ok q)
    (hr : floorMod a b = .ok r) :
    (a % b ≠ 0 ∧ oppositeSigns (a % b) b ∧ q = a / b - 1 ∧ r = a % b + b) ∨
      (¬(a % b ≠ 0 ∧ oppositeSigns (a % b) b) ∧ q = a / b ∧ r = a % b) := by
  rw [floorDiv_eq a hb] at hq
  rw [floorMod_eq a hb] at hr
  obtain rfl := Except.ok.inj hq
  obtain rfl := Except.ok.inj hr
  by_cases hcorrected : a % b ≠ 0 ∧ oppositeSigns (a % b) b
  · rw [if_pos hcorrected, if_pos hcorrected]
    exact .inl ⟨hcorrected.1, hcorrected.2, rfl, rfl⟩
  · rw [if_neg hcorrected, if_neg hcorrected]
    exact .inr ⟨hcorrected, rfl, rfl⟩

/-- A quotient that is a word is rounded down, and its remainder with it. -/
theorem floors_of_ok {q r : Int64} (hb : b ≠ 0) (h : ¬(a = Int64.minValue ∧ b = -1))
    (hq : floorDiv a b = .ok q) (hr : floorMod a b = .ok r) :
    Floors a.toInt b.toInt q.toInt r.toInt := by
  have hb' : b.toInt ≠ 0 := fun heq => hb (Int64.toInt_inj.1 heq)
  rcases results_of_ok hb hq hr with ⟨hrem, hsigns, rfl, rfl⟩ | ⟨hexact, rfl, rfl⟩
  · rw [toInt_div_sub_one hrem hb, toInt_mod_add hsigns, toInt_div h, Int64.toInt_mod]
    rw [oppositeSigns_iff, Int64.toInt_mod] at hsigns
    rw [ne_eq, ← Int64.toInt_inj, Int64.toInt_mod] at hrem
    exact floors_corrected hb' hrem hsigns
  · rw [toInt_div h, Int64.toInt_mod]
    rw [oppositeSigns_iff, ne_eq, ← Int64.toInt_inj, Int64.toInt_mod, Int64.toInt_zero] at hexact
    exact floors_truncated hb' (or_iff_not_and_not.2 hexact)

/-- Quotient and remainder make up the dividend, wrapped. -/
theorem mul_add_of_ok {q r : Int64} (hb : b ≠ 0) (hq : floorDiv a b = .ok q)
    (hr : floorMod a b = .ok r) : q * b + r = a := by
  rcases results_of_ok hb hq hr with ⟨-, -, rfl, rfl⟩ | ⟨-, rfl, rfl⟩
  · -- The divisor that the quotient loses is what the remainder gains.
    calc (a / b - 1) * b + (a % b + b)
      _ = a / b * b + a % b := by grind
      _ = a := div_mul_add_mod a b
  · exact div_mul_add_mod a b

end Words

/-- Division rounds toward negative infinity.  It fails exactly for the divisor zero.  Otherwise
the quotient is the floor of the fraction and the remainder is what is missing, which lies between
zero and the divisor; only the smallest integer divided by minus one gives the smallest integer
and no remainder.  Quotient and remainder always make up the dividend in wrapped arithmetic, and
where they are corrected nothing wraps. -/
theorem floorDiv_floorMod (a b : Int64) :
    (∀ e, floorDiv a b = .error e ↔ e = .divisionByZero ∧ b = 0) ∧
    (∀ e, floorMod a b = .error e ↔ e = .divisionByZero ∧ b = 0) ∧
    (b = 0 →
      Builtin.Refuses "div" [.int a, .int b] (.arithmetic .divisionByZero) ∧
      Builtin.Refuses "mod" [.int a, .int b] (.arithmetic .divisionByZero)) ∧
    (b ≠ 0 → ∃ q r,
      floorDiv a b = .ok q ∧ Builtin.Answers "div" [.int a, .int b] (.int q) ∧
      floorMod a b = .ok r ∧ Builtin.Answers "mod" [.int a, .int b] (.int r) ∧
      q * b + r = a ∧
      (¬(a = Int64.minValue ∧ b = -1) →
        q.toInt = ⌊(a.toInt : ℚ) / b.toInt⌋ ∧
        r.toInt = a.toInt - b.toInt * ⌊(a.toInt : ℚ) / b.toInt⌋ ∧
        ((0 ≤ r.toInt ∧ r.toInt < b.toInt) ∨ (b.toInt < r.toInt ∧ r.toInt ≤ 0))) ∧
      (a = Int64.minValue ∧ b = -1 → q = Int64.minValue ∧ r = 0)) ∧
    (b ≠ 0 → a % b ≠ 0 → oppositeSigns a b → (a / b - 1).toInt = (a / b).toInt - 1) ∧
    (b ≠ 0 → a % b ≠ 0 → oppositeSigns (a % b) b →
      (a % b + b).toInt = (a % b).toInt + b.toInt) := by
  refine ⟨fun _ => floorDiv_eq_error_iff, fun _ => floorMod_eq_error_iff, fun hb => ?_,
    fun hb => ?_, fun hb hr _ => toInt_div_sub_one hr hb, fun _ _ => toInt_mod_add⟩
  · exact ⟨Builtin.computes_div.refuses (floorDiv_eq_error_iff.2 ⟨rfl, hb⟩),
      Builtin.computes_mod.refuses (floorMod_eq_error_iff.2 ⟨rfl, hb⟩)⟩
  · have hq := floorDiv_eq a hb
    have hr := floorMod_eq a hb
    refine ⟨_, _, hq, Builtin.computes_div.answers hq, hr, Builtin.computes_mod.answers hr,
      mul_add_of_ok hb hq hr, fun hword => ?_, ?_⟩
    · have hfloors := floors_of_ok hb hword hq hr
      rw [hfloors.floor_eq]
      exact ⟨rfl, by linarith [hfloors.sum], hfloors.side⟩
    · rintro ⟨rfl, rfl⟩
      exact ⟨by decide, by decide⟩

theorem floorDiv_floorMod_lowest :
    ((3 : Int64) ≠ 0 ∧
      Builtin.Answers "div" [.int Int64.minValue, .int 3] (.int (-3074457345618258603)) ∧
      Builtin.Answers "mod" [.int Int64.minValue, .int 3] (.int 1) ∧
      ⌊(Int64.minValue.toInt : ℚ) / (3 : Int64).toInt⌋ = -3074457345618258603 ∧
      (Int64.minValue / 3 - 1).toInt = (Int64.minValue / 3).toInt - 1) ∧
    ((-1 : Int64) ≠ 0 ∧
      Builtin.Answers "div" [.int Int64.minValue, .int (-1)] (.int Int64.minValue) ∧
      Builtin.Answers "mod" [.int Int64.minValue, .int (-1)] (.int 0)) ∧
    Builtin.Refuses "mod" [.int Int64.minValue, .int 0] (.arithmetic .divisionByZero) := by
  obtain ⟨-, -, -, hthree, hcorrection, -⟩ := floorDiv_floorMod Int64.minValue 3
  obtain ⟨-, -, -, hminus, -⟩ := floorDiv_floorMod Int64.minValue (-1)
  obtain ⟨-, -, hzero, -⟩ := floorDiv_floorMod Int64.minValue 0
  refine ⟨⟨by decide, ?_⟩, ⟨by decide, ?_⟩, (hzero rfl).2⟩
  · obtain ⟨q, r, hq, hdiv, hr, hmod, -, hword, -⟩ := hthree (by decide)
    obtain rfl : -3074457345618258603 = q :=
      Except.ok.inj ((by decide : _ = floorDiv Int64.minValue 3).trans hq)
    obtain rfl : 1 = r := Except.ok.inj ((by decide : _ = floorMod Int64.minValue 3).trans hr)
    exact ⟨hdiv, hmod, (hword (by decide)).1.symm, hcorrection (by decide) (by decide) (by decide)⟩
  · obtain ⟨q, r, -, hdiv, -, hmod, -, -, hextreme⟩ := hminus (by decide)
    obtain ⟨rfl, rfl⟩ := hextreme ⟨rfl, rfl⟩
    exact ⟨hdiv, hmod⟩

end Arithmetic
end Gobstones
