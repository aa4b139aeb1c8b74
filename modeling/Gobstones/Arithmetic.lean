/-!
# Integer arithmetic of the language

This module defines the three integer operations that can fail.  Integers are
64-bit words and every operation wraps.  Division rounds toward negative
infinity, so the remainder has the sign of the divisor.

Main definitions:

- {lit}`floorDiv` and {lit}`floorMod`: quotient and remainder.
- {lit}`power`: exponentiation by repeated squaring.
-/

namespace Gobstones

/-- The ways in which an integer operation has no answer. -/
inductive ArithmeticError where
  | divisionByZero
  | negativeExponent
deriving DecidableEq, Repr

namespace Arithmetic

/-- Whether two integers lie on different sides of zero, zero counting as positive. -/
def oppositeSigns (a b : Int64) : Bool :=
  decide (a < 0) != decide (b < 0)

/-- The quotient rounded toward negative infinity: the truncated quotient, less one
when the division is inexact and the operands have opposite signs. -/
def floorDiv (a b : Int64) : Except ArithmeticError Int64 :=
  if b = 0 then .error .divisionByZero
  else if a % b ≠ 0 ∧ oppositeSigns a b then .ok (a / b - 1)
  else .ok (a / b)

/-- The remainder with the sign of the divisor: the truncated remainder, plus the
divisor when the remainder is nonzero and has the other sign. -/
def floorMod (a b : Int64) : Except ArithmeticError Int64 :=
  if b = 0 then .error .divisionByZero
  else if a % b ≠ 0 ∧ oppositeSigns (a % b) b then .ok (a % b + b)
  else .ok (a % b)

/-- The product of {lit}`acc` and the {lit}`n`-th power of {lit}`base`, by repeated
squaring. -/
def squareMultiply (base acc : Int64) (n : Nat) : Int64 :=
  if n = 0 then acc
  else squareMultiply (base * base) (if n % 2 = 1 then acc * base else acc) (n / 2)
termination_by n
decreasing_by exact Nat.div_lt_self (Nat.pos_of_ne_zero ‹_›) (by decide)

/-- The power of {lit}`base` to a nonnegative exponent, wrapped to 64 bits. -/
def power (base exponent : Int64) : Except ArithmeticError Int64 :=
  if exponent < 0 then .error .negativeExponent
  else .ok (squareMultiply base 1 exponent.toInt.toNat)

end Arithmetic
end Gobstones
