import Mathlib.Algebra.Group.Nat.Defs
import Mathlib.Data.List.Basic
import Gobstones.Arithmetic
import Gobstones.Native.Processor
import Gobstones.Proofs.Value.Comparison
/-!
# Integers in words

This module computes with natural numbers and with scalars as they stand in words.
Natural numbers below the sign bit are added, scaled and compared as words the way they
are as numbers, and the division instruction rounds toward zero.

Main definitions:

- {lit}`Word.nat`: a natural number as a word.
- {lit}`Value.InWord`: a word holds a scalar.

Main results:

- Theorem {lit}`flag_word`: a condition set into a register and widened.
- Theorem {lit}`Processor.divide_eq`: the division instruction on a sign-extended dividend.
- Theorem {lit}`Value.compare_of_inWord`: scalars of one type are compared as words.
-/

namespace Gobstones
namespace Native

/-! ## Natural numbers -/

/-- A natural number as a word. -/
def Word.nat (n : Nat) : Word :=
  .int (Int64.ofNat n)

theorem ofNat_eq_zero_iff {n : Nat} (h : n < 2 ^ 63) : Int64.ofNat n = 0 ↔ n = 0 := by
  constructor
  · intro heq
    have hint := congrArg Int64.toInt heq
    rw [Int64.toInt_ofNat_of_lt h] at hint
    simpa using hint
  · rintro rfl
    rfl

theorem ofNat_lt_iff {m n : Nat} (hm : m < 2 ^ 63) (hn : n < 2 ^ 63) :
    Int64.ofNat m < Int64.ofNat n ↔ m < n := by
  rw [Int64.lt_iff_toInt_lt, Int64.toInt_ofNat_of_lt hm, Int64.toInt_ofNat_of_lt hn, Int.ofNat_lt]

/-- A 32-bit word is loaded as its number. -/
theorem toInt64_toUInt64 (w : UInt32) : w.toUInt64.toInt64 = Int64.ofNat w.toNat := by
  rw [← UInt32.toNat_toUInt64, ← UInt64.toInt64_ofNat', UInt64.ofNat_toNat]

/-- Numbers are stored modulo the size of a 32-bit word. -/
theorem toUInt32_ofNat (n : Nat) : (Int64.ofNat n).toUInt64.toUInt32 = UInt32.ofNat n := by
  rw [← UInt64.toInt64_ofNat', UInt64.toUInt64_toInt64, UInt64.toUInt32_ofNat']

/-- A shift to the left multiplies by a power of two. -/
theorem shl_ofNat (n k : Nat) (hk : k < 64) :
    ((Int64.ofNat n).toUInt64 <<< (UInt8.ofNat k).toUInt64).toInt64 = Int64.ofNat (2 ^ k * n) := by
  rw [← UInt64.toInt64_ofNat', UInt64.toUInt64_toInt64, ← UInt64.toInt64_ofNat']
  congr 1
  apply UInt64.toNat_inj.1
  have hamount : (UInt8.ofNat k).toUInt64.toNat % 64 = k := by
    rw [UInt8.toNat_toUInt64, UInt8.toNat_ofNat']
    omega
  rw [UInt64.toNat_shiftLeft, hamount]
  simp [Nat.shiftLeft_eq, Nat.mul_comm]

/-- A shift to the right by one place halves. -/
theorem shr_ofNat {n : Nat} (hn : n < 2 ^ 63) :
    ((Int64.ofNat n).toUInt64 >>> (1 : UInt8).toUInt64).toInt64 = Int64.ofNat (n / 2) := by
  rw [← UInt64.toInt64_ofNat', UInt64.toUInt64_toInt64, ← UInt64.toInt64_ofNat']
  congr 1
  apply UInt64.toNat_inj.1
  have hamount : (1 : UInt8).toUInt64.toNat % 64 = 1 := rfl
  rw [UInt64.toNat_shiftRight, hamount, UInt64.toNat_ofNat', UInt64.toNat_ofNat',
    Nat.shiftRight_eq_div_pow, Nat.mod_eq_of_lt (by omega), Nat.mod_eq_of_lt (by omega)]

/-- A shift to the left by four places multiplies by sixteen. -/
theorem toInt_shl_four {n : Nat} (h : 16 * n < 2 ^ 63) :
    ((Int64.ofNat n).toUInt64 <<< (4 : UInt8).toUInt64).toInt64.toInt = (16 * n : Nat) := by
  have hfour : (4 : UInt8) = UInt8.ofNat 4 := rfl
  rw [hfour, shl_ofNat _ 4 (by omega), Int64.toInt_ofNat_of_lt (by omega)]
  rfl

/-- The offset of a counter from any word that is taken for a color. -/
theorem toInt_counterOffset (a : Int64) :
    ∃ c < 4, ((a &&& (3 : Int32).toInt64).toUInt64 <<<
      (2 : UInt8).toUInt64).toInt64.toInt = 4 * (c : Nat) := by
  have hmask : a &&& (3 : Int32).toInt64 = Int64.ofNat (a.toUInt64.toNat % 4) := by
    have hthree : (3 : Int32).toInt64 = (3 : UInt64).toInt64 := rfl
    have ha : a = a.toUInt64.toInt64 := by simp
    have hbits : a.toUInt64 &&& 3 = UInt64.ofNat (a.toUInt64.toNat % 4) := by
      apply UInt64.toNat_inj.1
      have hlt := a.toUInt64.toNat_lt
      rw [UInt64.toNat_and, UInt64.toNat_ofNat', Nat.mod_eq_of_lt (by omega)]
      exact Nat.and_two_pow_sub_one_eq_mod _ 2
    rw [← UInt64.toInt64_ofNat', ← hbits, hthree, UInt64.toInt64_and]
    simp
  have htwo : (2 : UInt8) = UInt8.ofNat 2 := rfl
  refine ⟨a.toUInt64.toNat % 4, Nat.mod_lt _ (by omega), ?_⟩
  rw [hmask, htwo, shl_ofNat _ 2 (by omega), Int64.toInt_ofNat_of_lt (by omega)]
  push_cast
  omega

/-! ## Conditions -/

/-- A condition that is set into the lowest byte of a register and widened. -/
theorem flag_word (w : Word) (b : Bool) :
    (w.highPart ||| if b = true then 1 else 0) &&& 255 = if b = true then 1 else 0 := by
  have hhigh : w.highPart &&& 255 = 0 := by
    cases w with
    | int n =>
      have hmasks : (-256 &&& 255 : Int64) = 0 := by decide
      rw [Word.highPart, Int64.and_assoc, hmasks, Int64.and_zero]
    | _ => simp [Word.highPart]
  have hdistrib (a b c : Int64) : (a ||| b) &&& c = (a &&& c) ||| (b &&& c) := by
    apply Int64.toBitVec_inj.1
    exact BitVec.and_or_distrib_right
  rw [hdistrib, hhigh, Int64.zero_or]
  cases b <;> decide

/-! ## Division -/

/-- A dividend that has been extended by its sign. -/
theorem dividend_eq (a : Int64) :
    (if a < 0 then -1 else 0 : Int64).toInt * UInt64.size + a.toUInt64.toNat = a.toInt := by
  have hsize : (UInt64.size : Int) = 2 ^ 64 := rfl
  have hbits : (a.toUInt64.toNat : Int) = a.toInt % 2 ^ 64 := by
    have hmod : a.toBitVec.toInt % 2 ^ 64 = (a.toBitVec.toNat : Int) % 2 ^ 64 := by
      rw [BitVec.toInt_eq_toNat_bmod]
      exact Int.bmod_emod
    rw [← Int64.toInt_toBitVec, hmod]
    exact (Int.emod_eq_of_lt (by omega) (by exact_mod_cast a.toBitVec.isLt)).symm
  have hlow := a.le_toInt
  have hhigh := a.toInt_lt
  rw [hsize, hbits]
  by_cases h : a < 0
  · have hneg : a.toInt < 0 := by simpa using Int64.lt_iff_toInt_lt.1 h
    have hminus : (-1 : Int64).toInt = -1 := rfl
    rw [if_pos h, hminus]
    omega
  · have hpos : ¬a.toInt < 0 := fun hlt => h (Int64.lt_iff_toInt_lt.2 (by simpa using hlt))
    rw [if_neg h, Int64.toInt_zero]
    omega

/-- A register of which the integer is known. -/
theorem Processor.reg_of_int? {p : Processor} {r : Register} {n : Int64} (h : p.int? r = some n) :
    p.reg r = .int n := by
  unfold Processor.int? at h
  split at h
  · next m hm => rw [hm, Option.some.inj h]
  · cases h

/-- The division instruction on a dividend that has been extended by its sign. -/
theorem Processor.divide_eq {p : Processor} {a b : Int64}
    (hhigh : p.int? .rdx = some (if a < 0 then -1 else 0)) (hlow : p.int? .rax = some a)
    (hzero : b ≠ 0) (hminus : b ≠ -1) :
    p.divide b =
      some (((p.setReg .rax (.int (a / b))).setReg .rdx (.int (a % b))).withFlags none) := by
  have hquotient : a.toInt.tdiv b.toInt = (a / b).toInt :=
    (Int64.toInt_div_of_ne_right a b hminus).symm
  have hremainder : a.toInt.tmod b.toInt = (a % b).toInt := (Int64.toInt_mod a b).symm
  simp only [Processor.divide, hhigh, hlow, bind, Option.bind, dividend_eq, if_neg hzero,
    hquotient, hremainder, Int64.ofInt_toInt]
  rw [if_pos ⟨Int64.minValue_le_toInt _, Int64.toInt_le _⟩]
  rfl

/-- The exclusive or of integers is negative when they lie on different sides of zero. -/
theorem xor_lt_zero_iff (a b : Int64) :
    decide (a ^^^ b < 0) = Arithmetic.oppositeSigns a b := by
  have hsign (n : Int64) : decide (n < 0) = n.toBitVec.msb := by
    rw [← BitVec.slt_zero_eq_msb]
    exact Bool.decide_coe _
  rw [Arithmetic.oppositeSigns, hsign, hsign, hsign, Int64.toBitVec_xor, BitVec.msb_xor]

end Native

/-! ## Scalars -/

open Native

namespace Value

/-- A word holds a scalar. -/
def InWord (value : Value) (w : Word) : Prop :=
  ∃ n, value.toWord? = some n ∧ w = .int n

@[simp]
theorem int_inWord (n : Int64) (w : Word) : (int n).InWord w ↔ w = .int n := by
  simp [InWord, toWord?]

@[simp]
theorem bool_inWord (b : Bool) (w : Word) :
    (bool b).InWord w ↔ w = .int (if b = true then 1 else 0) := by
  simp [InWord, toWord?]

@[simp]
theorem color_inWord (c : Color) (w : Word) : (color c).InWord w ↔ w = .nat c.index := by
  simp [InWord, toWord?, Word.nat]

@[simp]
theorem dir_inWord (d : Direction) (w : Word) : (dir d).InWord w ↔ w = .nat d.index := by
  simp [InWord, toWord?, Word.nat]

@[simp]
theorem not_tuple_inWord (items : List Value) (w : Word) : ¬(tuple items).InWord w := by
  simp [InWord, toWord?]

/-- Scalars that can be compared are compared as their words are. -/
theorem compare_of_inWord {a b : Value} {m n : Int64} {order : Ordering}
    (ha : a.InWord (.int m)) (hb : b.InWord (.int n)) (h : a.compare b = some order) :
    order = Ord.compare m n := by
  obtain ⟨i, ha, hi⟩ := ha
  obtain ⟨j, hb, hj⟩ := hb
  obtain rfl := Word.int.inj hi
  obtain rfl := Word.int.inj hj
  obtain ⟨-, k, hk, horder⟩ := (compare_eq_some_iff_of_toWord ha).1 h
  obtain rfl := Option.some.inj (hk.symm.trans hb)
  exact horder.symm

end Value
end Gobstones
