import Gobstones.Proofs.Board.Invariant
import Gobstones.Proofs.Bytes
/-!
# Boards and their encodings

This module shows that encoding and decoding boards are inverse to each other.  A board
without logs is decoded from its encoding, and bytes that are decoded are the encoding of
the board that they are decoded to.  Which bytes are decoded is told from their length and
from the four numbers of their header.

Main definitions:

- {lit}`Board.headerWord`: a number of the header.
- {lit}`Board.LengthFits`, {lit}`Board.SizeFits` and {lit}`Board.HeadFits`: what is checked
  of bytes, in the order of the checks.

Main results:

- Theorem {lit}`Board.ofBytes_toBytes`: a board is decoded from its encoding.
- Theorem {lit}`Board.toBytes_of_ofBytes`: what is decoded is an encoding.
- Theorem {lit}`Board.encoding_bijective`: decoding is exact and says what is wrong.
-/

namespace Gobstones

/-! ## Cells -/

/-- Cells are read back from their counters. -/
theorem cellsOfWords_flatMap (cells : List Cell) :
    cellsOfWords (cells.flatMap Cell.counters) = cells := by
  induction cells with
  | nil => rfl
  | cons cell cells ih =>
    rw [List.flatMap_cons, Cell.counters]
    simp only [List.cons_append, List.nil_append, cellsOfWords, ih]

theorem length_flatMap_counters (cells : List Cell) :
    (cells.flatMap Cell.counters).length = 4 * cells.length := by
  induction cells with
  | nil => rfl
  | cons cell cells ih =>
    rw [List.flatMap_cons, List.length_append, ih, List.length_cons, Cell.counters]
    simp only [List.length_cons, List.length_nil]
    omega

/-- Words are read back from the cells that they make up. -/
theorem flatMap_cellsOfWords {words : List UInt32} (h : words.length % 4 = 0) :
    (cellsOfWords words).flatMap Cell.counters = words := by
  fun_induction cellsOfWords words with
  | case1 a b c d rest ih =>
    have hrest : rest.length % 4 = 0 := by
      simp only [List.length_cons] at h
      omega
    rw [List.flatMap_cons, ih hrest]
    rfl
  | case2 rest hshort =>
    match rest, hshort with
    | [], _ => rfl
    | [_], _ | [_, _], _ | [_, _, _], _ => simp at h
    | a :: b :: c :: d :: rest, hshort => exact (hshort a b c d rest rfl).elim

namespace Board

variable {board : Board} {bytes : List UInt8}

/-! ## Headers -/

/-- A number of the header: the width, the height, and the place of the head. -/
def headerWord (bytes : List UInt8) (i : Nat) : UInt32 :=
  .ofNat (littleEndian ((bytes.drop (4 * i)).take 4))

/-- The length of bytes with a header and with the cells that it announces. -/
def announcedLength (bytes : List UInt8) : Nat :=
  16 + 16 * ((headerWord bytes 0).toNat * (headerWord bytes 1).toNat)

/-- There is a header, and the cells that it announces follow. -/
def LengthFits (bytes : List UInt8) : Prop :=
  16 ≤ bytes.length ∧ announcedLength bytes < 2 ^ 64 ∧ bytes.length = announcedLength bytes

/-- The announced grid has cells. -/
def SizeFits (bytes : List UInt8) : Prop :=
  headerWord bytes 0 ≠ 0 ∧ headerWord bytes 1 ≠ 0

/-- The head lies on the announced grid. -/
def HeadFits (bytes : List UInt8) : Prop :=
  headerWord bytes 2 < headerWord bytes 0 ∧ headerWord bytes 3 < headerWord bytes 1

/-- The length that bytes of the wrong length are reported not to have. -/
def expectedLength (bytes : List UInt8) : Nat :=
  if bytes.length < 16 then 16
  else if announcedLength bytes < 2 ^ 64 then announcedLength bytes
  else 2 ^ 64 - 1

/-- Bytes with a header begin with the words of the header. -/
theorem wordsOfBytes_of_header (h : 16 ≤ bytes.length) :
    ∃ rest, wordsOfBytes bytes =
      headerWord bytes 0 :: headerWord bytes 1 :: headerWord bytes 2 :: headerWord bytes 3 ::
        rest := by
  match bytes, h with
  | a :: b :: c :: d :: a' :: b' :: c' :: d' :: a'' :: b'' :: c'' :: d'' :: a''' :: b''' :: c''' ::
      d''' :: rest, _ =>
    simp only [wordsOfBytes, wordOfBytes_eq_littleEndian]
    exact ⟨_, rfl⟩

theorem nativeSize?_header (bytes : List UInt8) :
    nativeSize? (headerWord bytes 0) (headerWord bytes 1) =
      if announcedLength bytes < 2 ^ 64 then some (announcedLength bytes) else none := by
  have hsize : area (headerWord bytes 0) (headerWord bytes 1) * cellSize + headerSize =
      announcedLength bytes := by
    rw [area, cellSize, headerSize, announcedLength]
    omega
  have hlimit : addressLimit = 2 ^ 64 := rfl
  rw [nativeSize?, hsize, hlimit]

/-! ## Decoding -/

/-- The length is checked first. -/
theorem ofBytes_of_not_lengthFits (h : ¬LengthFits bytes) :
    ofBytes bytes = .error (.bufferLength (expectedLength bytes) bytes.length) := by
  rw [ofBytes_eq, expectedLength]
  by_cases hheader : bytes.length < 16
  · have hwords := length_wordsOfBytes bytes
    rw [if_pos hheader]
    split
    · next heq =>
      rw [heq] at hwords
      simp only [List.length_cons] at hwords
      omega
    · rfl
  · obtain ⟨rest, hwords⟩ := wordsOfBytes_of_header (Nat.le_of_not_lt hheader)
    rw [hwords, if_neg hheader]
    simp only [nativeSize?_header]
    by_cases haddressable : announcedLength bytes < 2 ^ 64
    · have hlength : bytes.length ≠ announcedLength bytes := fun hlength =>
        h ⟨Nat.le_of_not_lt hheader, haddressable, hlength⟩
      simp only [if_pos haddressable, if_pos hlength]
    · simp only [if_neg haddressable]
      rfl

/-- The board of bytes of the right length, apart from its head. -/
def ofCells (bytes : List UInt8) : Board where
  width := headerWord bytes 0
  height := headerWord bytes 1
  headX := 0
  headY := 0
  cells := (cellsOfWords ((wordsOfBytes bytes).drop 4)).toArray
  log := []
  archived := []

/-- The size of the grid is checked next, and then the place of the head. -/
theorem ofBytes_of_lengthFits (h : LengthFits bytes) :
    ofBytes bytes =
      if headerWord bytes 0 = 0 ∨ headerWord bytes 1 = 0 then
        .error (.invalidSize (headerWord bytes 0) (headerWord bytes 1))
      else (ofCells bytes).placeHead (headerWord bytes 2) (headerWord bytes 3) := by
  obtain ⟨hheader, haddressable, hlength⟩ := h
  obtain ⟨rest, hwords⟩ := wordsOfBytes_of_header hheader
  have hcells : (wordsOfBytes bytes).drop 4 = rest := by
    rw [hwords]
    rfl
  rw [ofBytes_eq, hwords, ofCells, hcells]
  simp only [nativeSize?_header, if_pos haddressable, if_neg (not_not.2 hlength), ofParts_eq]

theorem ofBytes_of_not_sizeFits (h : LengthFits bytes) (hsize : ¬SizeFits bytes) :
    ofBytes bytes = .error (.invalidSize (headerWord bytes 0) (headerWord bytes 1)) := by
  rw [ofBytes_of_lengthFits h, if_pos (by
    rw [SizeFits, not_and_or, not_not, not_not] at hsize
    exact hsize)]

theorem ofBytes_of_sizeFits (h : LengthFits bytes) (hsize : SizeFits bytes) :
    ofBytes bytes = (ofCells bytes).placeHead (headerWord bytes 2) (headerWord bytes 3) := by
  rw [ofBytes_of_lengthFits h, if_neg (not_or.2 hsize)]

theorem contains_ofCells :
    (ofCells bytes).contains (headerWord bytes 2) (headerWord bytes 3) = true ↔ HeadFits bytes := by
  rw [contains, Bool.and_eq_true, decide_eq_true_eq, decide_eq_true_eq]
  rfl

theorem ofBytes_of_not_headFits (h : LengthFits bytes) (hsize : SizeFits bytes)
    (hhead : ¬HeadFits bytes) :
    ofBytes bytes = .error (.headOutOfBounds (headerWord bytes 2) (headerWord bytes 3)
      (headerWord bytes 0) (headerWord bytes 1)) := by
  rw [ofBytes_of_sizeFits h hsize, placeHead_eq, if_neg (mt contains_ofCells.1 hhead)]
  rfl

theorem ofBytes_of_headFits (h : LengthFits bytes) (hsize : SizeFits bytes)
    (hhead : HeadFits bytes) :
    ofBytes bytes = .ok { ofCells bytes with
      headX := headerWord bytes 2, headY := headerWord bytes 3 } := by
  rw [ofBytes_of_sizeFits h hsize, placeHead_eq, if_pos (contains_ofCells.2 hhead)]

/-! ## Decoding and encoding -/

/-- The bytes of the right length are those of the board that they are decoded to. -/
theorem toBytes_ofCells (h : LengthFits bytes) :
    toBytes { ofCells bytes with headX := headerWord bytes 2, headY := headerWord bytes 3 } =
      bytes := by
  obtain ⟨hheader, -, hlength⟩ := h
  obtain ⟨rest, hwords⟩ := wordsOfBytes_of_header hheader
  have hcount := length_wordsOfBytes bytes
  rw [announcedLength] at hlength
  rw [hwords] at hcount
  simp only [List.length_cons] at hcount
  have hrest : (cellsOfWords rest).flatMap Cell.counters = rest := flatMap_cellsOfWords (by omega)
  have hbytes : (wordsOfBytes bytes).flatMap wordBytes = bytes := flatMap_wordsOfBytes (by omega)
  rw [hwords] at hbytes
  rw [toBytes, toWords, ofCells, hwords]
  simp only [List.drop_succ_cons, List.drop_zero, hrest]
  exact hbytes

/-- Exactly these bytes are decoded. -/
theorem exists_ofBytes_iff :
    (∃ board, ofBytes bytes = .ok board) ↔
      LengthFits bytes ∧ SizeFits bytes ∧ HeadFits bytes := by
  constructor
  · rintro ⟨board, h⟩
    have hlength : LengthFits bytes := by
      by_contra hlength
      cases (ofBytes_of_not_lengthFits hlength).symm.trans h
    have hsize : SizeFits bytes := by
      by_contra hsize
      cases (ofBytes_of_not_sizeFits hlength hsize).symm.trans h
    have hhead : HeadFits bytes := by
      by_contra hhead
      cases (ofBytes_of_not_headFits hlength hsize hhead).symm.trans h
    exact ⟨hlength, hsize, hhead⟩
  · rintro ⟨hlength, hsize, hhead⟩
    exact ⟨_, ofBytes_of_headFits hlength hsize hhead⟩

/-- Bytes that are decoded are the encoding of the board that they are decoded to. -/
theorem toBytes_of_ofBytes (h : ofBytes bytes = .ok board) : board.toBytes = bytes := by
  obtain ⟨hlength, hsize, hhead⟩ := exists_ofBytes_iff.1 ⟨board, h⟩
  obtain rfl := Except.ok.inj ((ofBytes_of_headFits hlength hsize hhead).symm.trans h)
  exact toBytes_ofCells hlength

theorem length_toBytes (board : Board) : board.toBytes.length = board.nativeLength := by
  rw [toBytes, length_flatMap_wordBytes, toWords, List.length_append, length_flatMap_counters,
    nativeLength, headerSize, cellSize, Array.length_toList]
  change 4 * (4 + 4 * board.cells.size) = _
  omega

/-- The number of bytes of a well-formed board is told from its size. -/
theorem WellFormed.nativeSize?_eq (hboard : board.WellFormed)
    (hfits : board.nativeLength < 2 ^ 64) :
    nativeSize? board.width board.height = some board.nativeLength := by
  have hlength : area board.width board.height * cellSize + headerSize = board.nativeLength := by
    rw [nativeLength, hboard.size_cells, Nat.mul_comm, Nat.add_comm]
  have hlimit : addressLimit = 2 ^ 64 := rfl
  rw [nativeSize?, hlength, hlimit, if_pos hfits]

theorem WellFormed.size_ne_zero (hboard : board.WellFormed) :
    ¬(board.width = 0 ∨ board.height = 0) := by
  have hwidth := hboard.width_pos
  have hheight := hboard.height_pos
  grind

/-- A board is decoded from its encoding, without its logs. -/
theorem ofBytes_toBytes (hboard : board.WellFormed) (hfits : board.nativeLength < 2 ^ 64) :
    ofBytes board.toBytes = .ok { board with log := [], archived := [] } := by
  have hwords : wordsOfBytes board.toBytes = board.width :: board.height :: board.headX ::
      board.headY :: board.cells.toList.flatMap Cell.counters :=
    wordsOfBytes_flatMap board.toWords
  have hhead : (decide (board.headX < board.width) && decide (board.headY < board.height)) = true := by
    rw [Bool.and_eq_true, decide_eq_true_eq, decide_eq_true_eq]
    exact ⟨hboard.headX_lt, hboard.headY_lt⟩
  rw [ofBytes_eq, hwords]
  simp only [hboard.nativeSize?_eq hfits, length_toBytes, ne_eq, not_true_eq_false, if_false,
    ofParts_eq, if_neg hboard.size_ne_zero, placeHead_eq, contains, hhead, if_true,
    cellsOfWords_flatMap, Array.toArray_toList]

/-- Encoding and decoding are inverse to each other.  Boards are decoded from their encodings, and
exactly the bytes that are encodings are decoded: those of the right length, with a grid that has
cells, and with a head on it.  Of other bytes the first of these that is not the case is
reported. -/
theorem encoding_bijective :
    (∀ board : Board, board.WellFormed → board.nativeLength < 2 ^ 64 →
      ofBytes board.toBytes = .ok { board with log := [], archived := [] }) ∧
    ∀ bytes : List UInt8,
      ((∃ board, ofBytes bytes = .ok board) ↔ LengthFits bytes ∧ SizeFits bytes ∧ HeadFits bytes) ∧
      (∀ board, ofBytes bytes = .ok board → board.toBytes = bytes) ∧
      (¬LengthFits bytes →
        ofBytes bytes = .error (.bufferLength (expectedLength bytes) bytes.length)) ∧
      (LengthFits bytes → ¬SizeFits bytes →
        ofBytes bytes = .error (.invalidSize (headerWord bytes 0) (headerWord bytes 1))) ∧
      (LengthFits bytes → SizeFits bytes → ¬HeadFits bytes →
        ofBytes bytes = .error (.headOutOfBounds (headerWord bytes 2) (headerWord bytes 3)
          (headerWord bytes 0) (headerWord bytes 1))) :=
  ⟨fun _ => ofBytes_toBytes, fun _ => ⟨exists_ofBytes_iff, fun _ => toBytes_of_ofBytes,
    ofBytes_of_not_lengthFits, ofBytes_of_not_sizeFits, ofBytes_of_not_headFits⟩⟩

end Board

namespace Corner

/-- A board in the middle of a transaction, with its head in a corner. -/
def board : Board where
  width := 2
  height := 1
  headX := 1
  headY := 0
  cells := #[⟨7, 0, 0, 0⟩, ⟨0, 4294967295, 0, 1⟩]
  log := [.setHead 0 0]
  archived := [[.put .blue 7]]

/-- A board of one cell, with its head elsewhere. -/
def headless : List UInt8 :=
  [1, 0, 0, 0, 1, 0, 0, 0, 5, 0, 0, 0, 0, 0, 0, 0] ++ List.replicate 16 0

/-- A header that announces more cells than can be addressed. -/
def endless : List UInt8 :=
  List.replicate 8 255 ++ List.replicate 24 0

end Corner

namespace Board

theorem encoding_bijective_corner :
    (Corner.board.WellFormed ∧ Corner.board.nativeLength < 2 ^ 64 ∧
      ofBytes Corner.board.toBytes = .ok { Corner.board with log := [], archived := [] } ∧
      { Corner.board with log := [], archived := [] }.toBytes = Corner.board.toBytes) ∧
    (¬LengthFits Corner.endless ∧
      ofBytes Corner.endless = .error (.bufferLength 18446744073709551615 32)) ∧
    (LengthFits (List.replicate 16 0) ∧ ¬SizeFits (List.replicate 16 0) ∧
      ofBytes (List.replicate 16 0) = .error (.invalidSize 0 0)) ∧
    LengthFits Corner.headless ∧ SizeFits Corner.headless ∧ ¬HeadFits Corner.headless ∧
      ofBytes Corner.headless = .error (.headOutOfBounds 5 0 1 1) := by
  have hboard : Corner.board.WellFormed :=
    ⟨by decide, by decide, by decide, by decide, by decide⟩
  have hencoded := encoding_bijective.1 Corner.board hboard (by decide)
  have hendless : ¬LengthFits Corner.endless := by
    unfold LengthFits
    decide +kernel
  have hempty : LengthFits (List.replicate 16 0) := by
    unfold LengthFits
    decide +kernel
  have hflat : ¬SizeFits (List.replicate 16 0) := by
    unfold SizeFits
    decide +kernel
  have hlength : LengthFits Corner.headless := by
    unfold LengthFits
    decide +kernel
  have hsize : SizeFits Corner.headless := by
    unfold SizeFits
    decide +kernel
  have hhead : ¬HeadFits Corner.headless := by
    unfold HeadFits
    decide +kernel
  exact ⟨⟨hboard, by decide, hencoded, (encoding_bijective.2 _).2.1 _ hencoded⟩,
    ⟨hendless, (encoding_bijective.2 _).2.2.1 hendless⟩,
    ⟨hempty, hflat, (encoding_bijective.2 _).2.2.2.1 hempty hflat⟩,
    hlength, hsize, hhead, (encoding_bijective.2 _).2.2.2.2 hlength hsize hhead⟩

end Board
end Gobstones
