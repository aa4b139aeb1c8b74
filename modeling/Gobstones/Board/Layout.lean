import Gobstones.Board.Basic
import Gobstones.Bytes
/-!
# The flat layout of a board

This module encodes boards as bytes.  The layout is a row of little-endian 32-bit
words: width, height, the two head coordinates, and then four counters for every
cell, cells row by row.

Main definitions:

- {lit}`Board.toBytes` and {lit}`Board.ofBytes`: encode and decode a board.
- {lit}`Board.Action.update`: take over the head and the cells of an encoding.
- {lit}`Board.nativeSize?`: the length of the encoding of a grid.
-/

namespace Gobstones

namespace Board

/-! ## Lengths -/

/-- The number of bytes in front of the cells. -/
def headerSize : Nat :=
  16

/-- The number of bytes of a cell. -/
def cellSize : Nat :=
  16

/-- One more than the greatest length that a 64-bit machine can address. -/
def addressLimit : Nat :=
  UInt64.size

/-- The length of the encoding of a grid, if it can be addressed. -/
def nativeSize? (width height : UInt32) : Option Nat :=
  let size := area width height * cellSize + headerSize
  if size < addressLimit then some size else none

/-- The length of the encoding of a board. -/
def nativeLength (board : Board) : Nat :=
  headerSize + cellSize * board.cells.size

/-! ## Encoding -/

/-- The words of the layout. -/
def toWords (board : Board) : List UInt32 :=
  [board.width, board.height, board.headX, board.headY] ++
    board.cells.toList.flatMap Cell.counters

/-- The bytes of the layout. -/
def toBytes (board : Board) : List UInt8 :=
  board.toWords.flatMap wordBytes

/-! ## Decoding -/

/-- The cell at an offset of a buffer, inside of which it has to lie. -/
def cellAt (buffer : Array UInt8) (offset : Nat) (h : offset + cellSize ≤ buffer.size) : Cell :=
  have hsize : offset + 16 ≤ buffer.size := h
  { blue := wordAt buffer offset (by omega)
    black := wordAt buffer (offset + 4) (by omega)
    red := wordAt buffer (offset + 8) (by omega)
    green := wordAt buffer (offset + 12) (by omega) }

/-- Cells that lie in a buffer behind the header. -/
def cellsAt (buffer : Array UInt8) (count : Nat)
    (h : headerSize + count * cellSize ≤ buffer.size) : Array Cell :=
  .ofFn fun i : Fin count =>
    cellAt buffer (headerSize + i * cellSize) (by
      have hlast := Nat.mul_le_mul_right cellSize i.isLt
      rw [Nat.succ_mul] at hlast
      omega)

/-- A board with given parts and empty logs.  The size of the grid is checked first, then the
place of the head. -/
def ofParts (width height x y : UInt32) (cells : Array Cell) : Except BoardError Board := do
  let board ← withHead width height x y
  return { board with cells }

/-- Cells that a buffer has place for behind its header lie in it. -/
theorem le_of_placed {size expected : Nat} (hheader : headerSize ≤ size)
    (hlength : ¬size ≠ expected) :
    headerSize + (expected - headerSize) / cellSize * cellSize ≤ size := by
  obtain rfl := Decidable.not_not.1 hlength
  have hcells := Nat.div_mul_le_self (size - headerSize) cellSize
  omega

/-- Decode the bytes of a layout.  The length is checked first: there has to be a header, and the
cells that it announces. -/
def ofBytes (bytes : List UInt8) : Except BoardError Board :=
  let buffer := bytes.toArray
  if hheader : buffer.size < headerSize then .error (.bufferLength headerSize buffer.size)
  else
    have hheader : headerSize ≤ buffer.size := Nat.le_of_not_lt hheader
    let width := wordAt buffer 0 (Nat.le_trans (by decide) hheader)
    let height := wordAt buffer 4 (Nat.le_trans (by decide) hheader)
    match nativeSize? width height with
    | none => .error (.bufferLength (addressLimit - 1) buffer.size)
    | some expected =>
      if hlength : buffer.size ≠ expected then .error (.bufferLength expected buffer.size)
      else
        let cells := cellsAt buffer ((expected - headerSize) / cellSize)
          (le_of_placed hheader hlength)
        let x := wordAt buffer 8 (Nat.le_trans (by decide) hheader)
        let y := wordAt buffer 12 (Nat.le_trans (by decide) hheader)
        ofParts width height x y cells

/-- The cells of a board lie in a buffer of its length. -/
theorem le_of_nativeLength {board : Board} {size : Nat} (h : ¬size ≠ board.nativeLength) :
    headerSize + board.cells.size * cellSize ≤ size := by
  have hsize := Decidable.not_not.1 h
  rw [nativeLength, Nat.mul_comm cellSize] at hsize
  exact Nat.le_of_eq hsize.symm

/-- Take over the head and the cells of an encoding of the same length.  The logs
stay, and the size recorded in the encoding is ignored. -/
def Action.update (bytes : List UInt8) : Action Unit := do
  let board ← get
  let buffer := bytes.toArray
  if hlength : buffer.size ≠ board.nativeLength then
    throw (.bufferLength board.nativeLength buffer.size)
  else
    have hcells := le_of_nativeLength hlength
    have hheader : headerSize ≤ buffer.size := Nat.le_trans (Nat.le_add_right headerSize _) hcells
    let x := wordAt buffer 8 (Nat.le_trans (by decide) hheader)
    let y := wordAt buffer 12 (Nat.le_trans (by decide) hheader)
    checkInBounds x y
    modify fun current => { current with cells := cellsAt buffer board.cells.size hcells }
    modify fun current => { current with headX := x, headY := y }

/-- The board with the head and the cells of an encoding. -/
def updateFromBytes (board : Board) (bytes : List UInt8) : Except BoardError Board :=
  (Action.update bytes).outcome board

end Board
end Gobstones
