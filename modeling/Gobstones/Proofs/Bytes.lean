import Mathlib.Tactic.Ring
import Gobstones.Bytes
/-!
# Words and their bytes

This module shows that 32-bit words are read back from their bytes and bytes from the words
that they make up.  The word of four bytes is the number that they are the digits of, the
least significant digit first.

Main definitions:

- {lit}`wordsOfBytes`: the words that bytes make up one after the other.
- {lit}`littleEndian`: the number with some bytes as its digits.

Main results:

- Theorem {lit}`getElem?_wordsOfBytes`: a word at an offset is one of the words of the bytes.
- Theorem {lit}`wordsOfBytes_flatMap`: words are read back from their bytes.
- Theorem {lit}`flatMap_wordsOfBytes`: bytes are read back from their words.
- Theorem {lit}`wordOfBytes_eq_littleEndian`: the word of four bytes as a number.
-/

namespace Gobstones

/-! ## Words one after the other -/

/-- The 32-bit words that bytes make up.  Bytes that do not fill a word are dropped. -/
def wordsOfBytes : List UInt8 → List UInt32
  | a :: b :: c :: d :: rest => wordOfBytes a b c d :: wordsOfBytes rest
  | _ => []

theorem length_wordsOfBytes : (bytes : List UInt8) →
    (wordsOfBytes bytes).length = bytes.length / 4
  | [] | [_] | [_, _] | [_, _, _] => by simp [wordsOfBytes]
  | a :: b :: c :: d :: rest => by
    simp only [wordsOfBytes, List.length_cons, length_wordsOfBytes rest]
    omega

/-- The word at an offset is one of the words that the bytes make up. -/
theorem getElem?_wordsOfBytes {bytes : List UInt8} {i offset : Nat} (hoffset : offset = 4 * i)
    (h : offset + 4 ≤ bytes.toArray.size) :
    (wordsOfBytes bytes)[i]? = some (wordAt bytes.toArray offset h) := by
  subst hoffset
  induction i generalizing bytes with
  | zero =>
    match bytes, h with
    | a :: b :: c :: d :: rest, _ => rfl
  | succ i ih =>
    match bytes, h with
    | a :: b :: c :: d :: rest, h =>
      have hrest : 4 * i + 4 ≤ rest.toArray.size := by
        simp only [List.size_toArray, List.length_cons] at h ⊢
        omega
      rw [wordsOfBytes, List.getElem?_cons_succ, ih hrest]
      simp [wordAt, Nat.mul_add]

/-! ## From words to bytes -/

theorem wordOfBytes_wordBytes (w : UInt32) :
    wordOfBytes w.toUInt8 (w >>> 8).toUInt8 (w >>> 16).toUInt8 (w >>> 24).toUInt8 = w := by
  apply UInt32.toBitVec_inj.1
  simp only [wordOfBytes, UInt32.toBitVec_or, UInt32.toBitVec_shiftLeft, UInt8.toBitVec_toUInt32,
    UInt32.toBitVec_toUInt8, UInt32.toBitVec_shiftRight]
  ext i hi
  by_cases h8 : i < 8
  · have h16 : i < 16 := by omega
    have h24 : i < 24 := by omega
    simp [h8, h16, h24, BitVec.getLsbD_eq_getElem hi]
  by_cases h16 : i < 16
  · have h24 : i < 24 := by omega
    have hin : i - 8 < 8 := by omega
    have hsame : 8 + (i - 8) = i := by omega
    simp [h8, h16, h24, hin, hsame, BitVec.getLsbD_eq_getElem hi]
  have hout : ¬i - 8 < 8 := by omega
  by_cases h24 : i < 24
  · have hin : i - 16 < 8 := by omega
    have hsame : 16 + (i - 16) = i := by omega
    simp [h8, h16, h24, hout, hin, hsame, BitVec.getLsbD_eq_getElem hi]
  · have hout' : ¬i - 16 < 8 := by omega
    have hin : i - 24 < 8 := by omega
    have hsame : 24 + (i - 24) = i := by omega
    simp [h8, h16, h24, hout, hout', hin, hsame, BitVec.getLsbD_eq_getElem hi]

/-- Words are read back from their bytes. -/
theorem wordsOfBytes_flatMap (words : List UInt32) :
    wordsOfBytes (words.flatMap wordBytes) = words := by
  induction words with
  | nil => rfl
  | cons w words ih =>
    rw [List.flatMap_cons, wordBytes]
    simp only [List.cons_append, List.nil_append, wordsOfBytes, wordOfBytes_wordBytes, ih]

theorem length_flatMap_wordBytes (words : List UInt32) :
    (words.flatMap wordBytes).length = 4 * words.length := by
  induction words with
  | nil => rfl
  | cons w words ih =>
    rw [List.flatMap_cons, List.length_append, ih, List.length_cons, wordBytes]
    simp only [List.length_cons, List.length_nil]
    omega

/-! ## From bytes to words -/

/-- The bytes of a word are those that it was put together from. -/
theorem wordBytes_wordOfBytes (a b c d : UInt8) : wordBytes (wordOfBytes a b c d) = [a, b, c, d] := by
  simp only [wordBytes, wordOfBytes, List.cons.injEq, and_true]
  refine ⟨?_, ?_, ?_, ?_⟩ <;>
  · apply UInt8.toBitVec_inj.1
    ext i hi
    simp [hi] <;> grind

/-- Bytes are read back from their words. -/
theorem flatMap_wordsOfBytes {bytes : List UInt8} (h : bytes.length % 4 = 0) :
    (wordsOfBytes bytes).flatMap wordBytes = bytes := by
  fun_induction wordsOfBytes bytes with
  | case1 a b c d rest ih =>
    have hrest : rest.length % 4 = 0 := by
      simp only [List.length_cons] at h
      omega
    rw [List.flatMap_cons, wordBytes_wordOfBytes, ih hrest]
    rfl
  | case2 rest hshort =>
    match rest, hshort with
    | [], _ => rfl
    | [_], _ | [_, _], _ | [_, _, _], _ => simp at h
    | a :: b :: c :: d :: rest, hshort => exact (hshort a b c d rest rfl).elim

/-! ## Numbers -/

/-- The number with some bytes as its digits, the least significant one first. -/
def littleEndian : List UInt8 → Nat
  | [] => 0
  | byte :: bytes => byte.toNat + 256 * littleEndian bytes

/-- Digits in front of others count more. -/
theorem toNat_append {m n : Nat} (x : BitVec m) (y : BitVec n) :
    (x ++ y).toNat = 2 ^ n * x.toNat + y.toNat := by
  rw [BitVec.toNat_append, ← Nat.shiftLeft_add_eq_or_of_lt y.isLt, Nat.shiftLeft_eq, Nat.mul_comm]

/-- The word of four bytes has them as its digits. -/
theorem wordOfBytes_eq_littleEndian (a b c d : UInt8) :
    wordOfBytes a b c d = UInt32.ofNat (littleEndian [a, b, c, d]) := by
  have hbits : (wordOfBytes a b c d).toBitVec =
      d.toBitVec ++ (c.toBitVec ++ (b.toBitVec ++ a.toBitVec)) := by
    refine BitVec.eq_of_getLsbD_eq fun i hi => ?_
    have hbyte : i < 8 ∨ 8 ≤ i ∧ i < 16 ∨ 16 ≤ i ∧ i < 24 ∨ 24 ≤ i := by omega
    simp only [wordOfBytes, BitVec.getLsbD_append]
    rcases hbyte with h | h | h | h <;>
      simp (disch := omega) [if_pos, if_neg, decide_eq_true, decide_eq_false]
  have hword : (wordOfBytes a b c d).toNat = littleEndian [a, b, c, d] := by
    rw [← UInt32.toNat_toBitVec, hbits, toNat_append, toNat_append, toNat_append]
    simp only [UInt8.toNat_toBitVec, littleEndian]
    omega
  rw [← hword, UInt32.ofNat_toNat]

end Gobstones
