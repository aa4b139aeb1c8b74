/-!
# Decimal numerals

This module reads and writes decimal numerals.  A numeral is a nonempty run of
the digits {lit}`0` to {lit}`9`, in front of which a sign may stand; there are no
separators, and a numeral outside its range is no numeral.

Main definitions:

- {lit}`natural?`: the value of a run of digits.
- {lit}`unsigned?`: a numeral below a bound, with an optional plus sign.
- {lit}`int64?`: a signed 64-bit numeral.
- {lit}`ofNat` and {lit}`ofInt`: the canonical numerals.
-/

namespace Gobstones
namespace Numeral

/-- The value of one decimal digit. -/
def digit? (c : Char) : Option Nat :=
  if c.isDigit then some (c.toNat - '0'.toNat) else none

/-- Continue reading the value {lit}`acc` with the digits that follow. -/
def digitsFrom? (acc : Nat) : List Char → Option Nat
  | [] => some acc
  | c :: cs =>
    match digit? c with
    | some d => digitsFrom? (10 * acc + d) cs
    | none => none

/-- The value of a nonempty run of digits. -/
def natural? : List Char → Option Nat
  | [] => none
  | c :: cs => digitsFrom? 0 (c :: cs)

/-- A numeral below {lit}`bound`, with at most one plus sign in front. -/
def unsigned? (bound : Nat) (cs : List Char) : Option Nat :=
  let digits :=
    match cs with
    | '+' :: rest => rest
    | _ => cs
  (natural? digits).filter (· < bound)

/-- An integer numeral with at most one sign in front. -/
def integer? : List Char → Option Int
  | '-' :: rest => (natural? rest).map fun n => -(n : Int)
  | '+' :: rest => (natural? rest).map Int.ofNat
  | cs => (natural? cs).map Int.ofNat

/-- A signed 64-bit numeral. -/
def int64? (cs : List Char) : Option Int64 :=
  match integer? cs with
  | some n =>
    if Int64.minValue.toInt ≤ n ∧ n ≤ Int64.maxValue.toInt then some (Int64.ofInt n) else none
  | none => none

/-- An unsigned 32-bit numeral. -/
def uint32? (cs : List Char) : Option UInt32 :=
  (unsigned? UInt32.size cs).map UInt32.ofNat

/-- An unsigned 64-bit numeral. -/
def uint64? (cs : List Char) : Option Nat :=
  unsigned? UInt64.size cs

/-- The canonical numeral of a natural number has no leading zeros. -/
def ofNat (n : Nat) : List Char :=
  Nat.toDigits 10 n

/-- The canonical numeral of an integer has a minus sign exactly when it is negative. -/
def ofInt (n : Int) : List Char :=
  if n < 0 then '-' :: ofNat n.natAbs else ofNat n.natAbs

end Numeral
end Gobstones
