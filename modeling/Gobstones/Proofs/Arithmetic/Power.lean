import Mathlib.Data.Int.ModEq
import Mathlib.Tactic.Ring
import Gobstones.Proofs.Builtin
/-!
# Powers of words

This module shows that powers are exact modulo the size of a word.  A round of the loop squares
the base, halves the exponent and multiplies the base into the result if the exponent is odd; what
it keeps is the product of the result and the power that is still to come.  The loop is also given
as it runs, with the exponent in a word that is shifted and masked, and ends after as many rounds
as the exponent has bits.

Main definitions:

- {lit}`PowerLoop` and {lit}`PowerLoop.next`: the variables of the loop, and one round.
- {lit}`PowerLoop.Ends`: the loop ends after some rounds.

Main results:

- Theorem {lit}`Arithmetic.squareMultiply_modEq`: repeated squaring is exponentiation.
- Theorem {lit}`PowerLoop.exists_ends`: the loop ends.
- Theorem {lit}`Arithmetic.power_modEq`: powers of words, and their failure.
-/

namespace Gobstones

namespace Arithmetic

/-! ## Products of words -/

/-- Every word stands for one integer modulo the size of a word. -/
theorem eq_iff_modEq {a b : Int64} : a = b ↔ a.toInt ≡ b.toInt [ZMOD 2 ^ 64] := by
  constructor
  · rintro rfl
    exact Int.ModEq.refl _
  · intro h
    have ha := a.le_toInt
    have ha' := a.toInt_lt
    have hb := b.le_toInt
    have hb' := b.toInt_lt
    unfold Int.ModEq at h
    exact Int64.toInt_inj.1 (by omega)

theorem toInt_mul_modEq (a b : Int64) : (a * b).toInt ≡ a.toInt * b.toInt [ZMOD 2 ^ 64] := by
  rw [Int64.toInt_mul]
  exact Int.bmod_emod

/-! ## Repeated squaring -/

/-- What a round keeps: the product of the result and the power that is still to come. -/
theorem round_modEq (base acc : Int64) (n : Nat) :
    (if n % 2 = 1 then acc * base else acc).toInt * (base * base).toInt ^ (n / 2) ≡
      acc.toInt * base.toInt ^ n [ZMOD 2 ^ 64] := by
  have hsquares : (base * base).toInt ^ (n / 2) ≡ base.toInt ^ (2 * (n / 2)) [ZMOD 2 ^ 64] := by
    rw [pow_mul, sq]
    exact (toInt_mul_modEq base base).pow _
  by_cases hodd : n % 2 = 1
  · have hhalves : 2 * (n / 2) + 1 = n := by omega
    rw [if_pos hodd]
    calc (acc * base).toInt * (base * base).toInt ^ (n / 2)
      _ ≡ (acc.toInt * base.toInt) * base.toInt ^ (2 * (n / 2)) [ZMOD 2 ^ 64] :=
        (toInt_mul_modEq acc base).mul hsquares
      _ = acc.toInt * base.toInt ^ (2 * (n / 2) + 1) := by ring
      _ = acc.toInt * base.toInt ^ n := by rw [hhalves]
  · have hhalves : 2 * (n / 2) = n := by omega
    rw [if_neg hodd]
    calc acc.toInt * (base * base).toInt ^ (n / 2)
      _ ≡ acc.toInt * base.toInt ^ (2 * (n / 2)) [ZMOD 2 ^ 64] := hsquares.mul_left _
      _ = acc.toInt * base.toInt ^ n := by rw [hhalves]

/-- Repeated squaring multiplies a power into the result. -/
theorem squareMultiply_modEq (base acc : Int64) (n : Nat) :
    (squareMultiply base acc n).toInt ≡ acc.toInt * base.toInt ^ n [ZMOD 2 ^ 64] := by
  fun_induction squareMultiply base acc n with
  | case1 base acc => rw [pow_zero, mul_one]
  | case2 base acc n hn ih => exact ih.trans (round_modEq base acc n)

/-! ## Exponents in words -/

/-- A word that is not negative is a natural number below the sign bit. -/
theorem ofNat_toInt_toNat {e : Int64} (h : ¬e < 0) :
    Int64.ofNat e.toInt.toNat = e ∧ e.toInt.toNat < 2 ^ 63 := by
  have hpos : ¬e.toInt < 0 := fun hlt => h (Int64.lt_iff_toInt_lt.2 (by simpa using hlt))
  have hlt := e.toInt_lt
  have hword : e.toInt.toNat < 2 ^ 63 := by omega
  refine ⟨Int64.toInt_inj.1 ?_, hword⟩
  rw [Int64.toInt_ofNat_of_lt hword]
  omega

/-- The lowest bit tells whether a number is odd. -/
theorem and_one_ofNat (n : Nat) : Int64.ofNat n &&& 1 = Int64.ofNat (n % 2) := by
  have hone : (1 : Int64) = (UInt64.ofNat 1).toInt64 := rfl
  rw [← UInt64.toInt64_ofNat', hone, ← UInt64.toInt64_and, ← UInt64.toInt64_ofNat']
  congr 1
  apply UInt64.toNat_inj.1
  rw [UInt64.toNat_and, UInt64.toNat_ofNat', UInt64.toNat_ofNat', UInt64.toNat_ofNat']
  have hmask : 1 % 2 ^ 64 = 2 ^ 1 - 1 := rfl
  rw [hmask, Nat.and_two_pow_sub_one_eq_mod]
  omega

/-- A shift by one place halves a number, also if it keeps the sign. -/
theorem shiftRight_one_ofNat {n : Nat} (hn : n < 2 ^ 63) :
    Int64.ofNat n >>> 1 = Int64.ofNat (n / 2) := by
  have hamount : ((1 : Int64).toBitVec.smod 64).toNat = 1 := by decide
  apply Int64.toInt_inj.1
  rw [← Int64.toInt_toBitVec, Int64.toBitVec_shiftRight, BitVec.sshiftRight', hamount,
    BitVec.toInt_sshiftRight, Int64.toInt_toBitVec, Int64.toInt_ofNat_of_lt hn,
    Int64.toInt_ofNat_of_lt (by omega), Int.shiftRight_eq_div_pow]
  simp

end Arithmetic

/-! ## The loop -/

/-- The variables of the loop. -/
structure PowerLoop where
  base : Int64
  exponent : Int64
  acc : Int64

namespace PowerLoop

/-- One round of the loop. -/
def next (loop : PowerLoop) : PowerLoop where
  base := loop.base * loop.base
  exponent := loop.exponent >>> 1
  acc := if loop.exponent &&& 1 = 1 then loop.acc * loop.base else loop.acc

/-- The loop goes on while the exponent is positive, and ends after so many rounds with a
result. -/
inductive Ends : PowerLoop → Nat → Int64 → Prop
  | done {loop : PowerLoop} (h : ¬0 < loop.exponent) : Ends loop 0 loop.acc
  | round {loop : PowerLoop} {rounds : Nat} {result : Int64} (h : 0 < loop.exponent)
    (hrest : Ends loop.next rounds result) : Ends loop (rounds + 1) result

theorem next_ofNat {n : Nat} (hn : n < 2 ^ 63) (base acc : Int64) :
    (⟨base, Int64.ofNat n, acc⟩ : PowerLoop).next =
      ⟨base * base, Int64.ofNat (n / 2), if n % 2 = 1 then acc * base else acc⟩ := by
  rw [next, Arithmetic.shiftRight_one_ofNat hn, Arithmetic.and_one_ofNat]
  rcases Nat.mod_two_eq_zero_or_one n with heven | hodd
  · rw [heven]
    rfl
  · rw [hodd]
    rfl

theorem pos_ofNat_iff {n : Nat} (hn : n < 2 ^ 63) : 0 < Int64.ofNat n ↔ n ≠ 0 := by
  rw [Int64.lt_iff_toInt_lt, Int64.toInt_ofNat_of_lt hn, Int64.toInt_zero]
  omega

theorem ends_zero (base acc : Int64) :
    Ends ⟨base, Int64.ofNat 0, acc⟩ 0 (Arithmetic.squareMultiply base acc 0) := by
  have hend : ¬0 < Int64.ofNat 0 := by decide
  rw [Arithmetic.squareMultiply, if_pos rfl]
  exact .done hend

/-- The loop ends after at most as many rounds as the exponent has bits, with what repeated
squaring gives. -/
theorem exists_ends {bits : Nat} (hbits : bits ≤ 63) {n : Nat} (hn : n < 2 ^ bits)
    (base acc : Int64) :
    ∃ rounds ≤ bits,
      Ends ⟨base, Int64.ofNat n, acc⟩ rounds (Arithmetic.squareMultiply base acc n) := by
  induction bits generalizing n base acc with
  | zero =>
    obtain rfl : n = 0 := by simpa using hn
    exact ⟨0, Nat.le_refl 0, ends_zero base acc⟩
  | succ bits ih =>
    by_cases hzero : n = 0
    · subst hzero
      exact ⟨0, Nat.zero_le _, ends_zero base acc⟩
    · have hword : n < 2 ^ 63 := Nat.lt_of_lt_of_le hn (Nat.pow_le_pow_right (by decide) hbits)
      have hhalf : n / 2 < 2 ^ bits := by omega
      obtain ⟨rounds, hrounds, hends⟩ := ih (by omega) hhalf (base * base)
        (if n % 2 = 1 then acc * base else acc)
      refine ⟨rounds + 1, by omega, .round ((pos_ofNat_iff hword).2 hzero) ?_⟩
      rw [next_ofNat hword, Arithmetic.squareMultiply, if_neg hzero]
      exact hends

end PowerLoop

namespace Arithmetic

variable {base exponent : Int64}

/-- There is no power for negative exponents alone. -/
theorem power_eq_error_iff {e : ArithmeticError} :
    power base exponent = .error e ↔ e = .negativeExponent ∧ exponent < 0 := by
  rw [power]
  split
  · next h => simp [h, eq_comm]
  · next h => simp [h]

/-- The other powers are computed by repeated squaring. -/
theorem power_eq (h : ¬exponent < 0) :
    power base exponent = .ok (squareMultiply base 1 exponent.toInt.toNat) := by
  rw [power, if_neg h]

/-- Powers are exact modulo the size of a word, and the loop comes to them after at most 63 rounds.
They fail exactly for negative exponents, and every integer to the power of zero is one, also
zero. -/
theorem power_modEq (base exponent : Int64) :
    (∀ e, power base exponent = .error e ↔ e = .negativeExponent ∧ exponent < 0) ∧
    (exponent < 0 →
      Builtin.Refuses "^" [.int base, .int exponent] (.arithmetic .negativeExponent)) ∧
    (0 ≤ exponent → ∃ n,
      power base exponent = .ok n ∧
      Builtin.Answers "^" [.int base, .int exponent] (.int n) ∧
      (∀ m : Int64, m = n ↔ m.toInt ≡ base.toInt ^ exponent.toInt.toNat [ZMOD 2 ^ 64]) ∧
      ∃ rounds ≤ 63, PowerLoop.Ends ⟨base, exponent, 1⟩ rounds n) ∧
    power base 0 = .ok 1 := by
  refine ⟨fun _ => power_eq_error_iff, fun hneg => ?_, fun hpos => ?_, ?_⟩
  · exact Builtin.computes_power.refuses (power_eq_error_iff.2 ⟨rfl, hneg⟩)
  · have hnonneg : ¬exponent < 0 := Int64.not_lt.2 hpos
    have hpower : power base exponent = _ := power_eq hnonneg
    refine ⟨_, hpower, Builtin.computes_power.answers hpower, fun m => ?_, ?_⟩
    · have hexact := squareMultiply_modEq base 1 exponent.toInt.toNat
      rw [Int64.toInt_one, one_mul] at hexact
      rw [eq_iff_modEq]
      exact ⟨fun h => h.trans hexact, fun h => h.trans hexact.symm⟩
    · obtain ⟨hexponent, hlt⟩ := ofNat_toInt_toNat hnonneg
      have hends := PowerLoop.exists_ends (Nat.le_refl 63) hlt base 1
      rwa [hexponent] at hends
  · have hzero : ¬(0 : Int64) < 0 := by decide
    rw [power_eq hzero, Int64.toInt_zero, squareMultiply, if_pos (by rfl)]

theorem power_modEq_wrapped :
    ((0 : Int64) ≤ 65 ∧
      Builtin.Answers "^" [.int (-3), .int 65] (.int (-7752514261426648835)) ∧
      (-7752514261426648835 : Int64).toInt ≡
        (-3 : Int64).toInt ^ (65 : Int64).toInt.toNat [ZMOD 2 ^ 64]) ∧
    (-1 : Int64) < 0 ∧ Builtin.Refuses "^" [.int 2, .int (-1)] (.arithmetic .negativeExponent) := by
  obtain ⟨-, -, hpower, -⟩ := power_modEq (-3) 65
  obtain ⟨-, hfails, -⟩ := power_modEq 2 (-1)
  obtain ⟨n, hn, hanswers, hexact, -⟩ := hpower (by decide)
  have hvalue : power (-3) 65 = .ok (-7752514261426648835) := by decide +kernel
  obtain rfl := Except.ok.inj (hvalue.symm.trans hn)
  exact ⟨⟨by decide, hanswers, (hexact _).1 rfl⟩, by decide, hfails (by decide)⟩

end Arithmetic
end Gobstones
