/-!
# Little-endian words

This module turns words into bytes and back.  The least significant byte comes
first.

Main definitions:

- {lit}`wordBytes` and {lit}`wordOfBytes`: 32-bit words.
- {lit}`wordAt`: the 32-bit word at an offset of a buffer.
- {lit}`quadBytes` and {lit}`quadOfBytes`: 64-bit words.
-/

namespace Gobstones

/-- The bytes of a 32-bit word. -/
def wordBytes (w : UInt32) : List UInt8 :=
  [w.toUInt8, (w >>> 8).toUInt8, (w >>> 16).toUInt8, (w >>> 24).toUInt8]

/-- The 32-bit word of four bytes. -/
def wordOfBytes (a b c d : UInt8) : UInt32 :=
  a.toUInt32 ||| (b.toUInt32 <<< 8) ||| (c.toUInt32 <<< 16) ||| (d.toUInt32 <<< 24)

/-- The 32-bit word at an offset of a buffer, inside of which it has to lie. -/
def wordAt (buffer : Array UInt8) (offset : Nat) (h : offset + 4 ≤ buffer.size) : UInt32 :=
  wordOfBytes buffer[offset] buffer[offset + 1] buffer[offset + 2] buffer[offset + 3]

/-- The two halves of a 64-bit word, the low one first. -/
def halves (q : UInt64) : UInt32 × UInt32 :=
  (q.toUInt32, (q >>> 32).toUInt32)

/-- The 64-bit word of two halves. -/
def ofHalves (low high : UInt32) : UInt64 :=
  low.toUInt64 ||| (high.toUInt64 <<< 32)

/-- The bytes of a 64-bit word. -/
def quadBytes (q : UInt64) : List UInt8 :=
  wordBytes (halves q).1 ++ wordBytes (halves q).2

/-- Read up to eight bytes as a 64-bit word, missing bytes counting as zero. -/
def quadOfBytes (bytes : List UInt8) : UInt64 :=
  (bytes.take 8).foldr (fun byte q => byte.toUInt64 ||| (q <<< 8)) 0

/-- Read bytes as 64-bit words, the last one filled up with zeros. -/
def quadsOfBytes : List UInt8 → List UInt64
  | a :: b :: c :: d :: e :: f :: g :: h :: rest =>
    quadOfBytes [a, b, c, d, e, f, g, h] :: quadsOfBytes rest
  | [] => []
  | rest => [quadOfBytes rest]

end Gobstones
