import Gobstones.Native.Encoding
/-!
# Linked code

This module turns a list of instructions into machine code.  A first pass finds the
offset of every label, a second one encodes the instructions with the distances of
their branches.

Main definitions:

- {lit}`LinkError`: the ways in which labels are misused.
- {lit}`labelOffsets`: the first pass.
- {lit}`encodeFrom`: the second pass.
- {lit}`link`: machine code with the offsets of its labels.
-/

namespace Gobstones
namespace Native

/-- The ways in which labels are misused: one has no place, or two. -/
inductive LinkError where
  | undefinedLabel (label : Label)
  | labelRebound (label : Label)
deriving DecidableEq, Repr

/-- The offsets of labels.  A label without a place has none. -/
abbrev Offsets := Array (Option Nat)

/-- The offset of a label. -/
def Offsets.get? (offsets : Offsets) (label : Label) : Option Nat :=
  offsets[label]?.join

/-- Find the offsets of the labels among instructions that start at an offset. -/
def labelOffsets (offsets : Offsets) (offset : Nat) : List Instr → Except LinkError Offsets
  | [] => .ok offsets
  | .bind label :: rest =>
    if (offsets.get? label).isSome then .error (.labelRebound label)
    else labelOffsets (offsets.setIfInBounds label (some offset)) offset rest
  | instr :: rest => labelOffsets offsets (offset + instr.size) rest

/-- The distance from one offset to another, as branches hold it. -/
def distance (source target : Nat) : Int32 :=
  Int32.ofInt (target - source)

/-- Encode instructions behind code that is there already, with the distances of their
branches. -/
def encodeFrom (offsets : Offsets) (code : Array UInt8) : List Instr → Except LinkError (Array UInt8)
  | [] => .ok code
  | instr :: rest =>
    match instr.target? with
    | none => encodeFrom offsets (code ++ instr.encode 0) rest
    | some label =>
      match offsets.get? label with
      | none => .error (.undefinedLabel label)
      | some target =>
        encodeFrom offsets
          (code ++ instr.encode (distance (code.size + instr.size) target)) rest

/-- Machine code and the offsets of its labels. -/
structure LinkedCode where
  bytes : Array UInt8
  offsets : Offsets
deriving DecidableEq, Repr

/-- Link instructions over {lit}`labels` labels.  A label with two places is reported before
a label without one. -/
def link (labels : Nat) (instrs : List Instr) : Except LinkError LinkedCode := do
  let offsets ← labelOffsets (Array.replicate labels none) 0 instrs
  let bytes ← encodeFrom offsets #[] instrs
  return { bytes, offsets }

end Native
end Gobstones
