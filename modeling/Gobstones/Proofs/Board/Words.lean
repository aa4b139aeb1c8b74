import Gobstones.Board.Layout
import Gobstones.Proofs.Bytes
/-!
# Boards as words

This module says what boards are decoded to in terms of the words that the bytes make up.
A decoder reads words at their offsets; where it does, the length of the buffer has been
checked, and the words at these offsets are the header and the counters of the cells one
after the other.

Main definitions:

- {lit}`cellsOfWords`: the cells that words make up one after the other.

Main results:

- Theorem {lit}`Board.cellsAt_toArray`: cells at their offsets are the cells of the words.
- Theorems {lit}`Board.ofBytes_eq` and {lit}`Board.updateFromBytes_eq`: what is decoded from
  words.
-/

namespace Gobstones

/-! ## Cells one after the other -/

/-- The cells that words make up.  Words that do not fill a cell are dropped. -/
def cellsOfWords : List UInt32 → List Cell
  | a :: b :: c :: d :: rest => ⟨a, b, c, d⟩ :: cellsOfWords rest
  | _ => []

theorem length_cellsOfWords : (words : List UInt32) →
    (cellsOfWords words).length = words.length / 4
  | [] | [_] | [_, _] | [_, _, _] => by simp [cellsOfWords]
  | a :: b :: c :: d :: rest => by
    simp only [cellsOfWords, List.length_cons, length_cellsOfWords rest]
    omega

/-- A cell is made up of four words. -/
theorem getElem?_cellsOfWords {words : List UInt32} {i : Nat} {a b c d : UInt32}
    (ha : words[4 * i]? = some a) (hb : words[4 * i + 1]? = some b)
    (hc : words[4 * i + 2]? = some c) (hd : words[4 * i + 3]? = some d) :
    (cellsOfWords words)[i]? = some ⟨a, b, c, d⟩ := by
  induction i generalizing words with
  | zero =>
    match words with
    | [] | [_] | [_, _] | [_, _, _] => simp at hd
    | a' :: b' :: c' :: d' :: rest =>
      obtain rfl := Option.some.inj ha
      obtain rfl := Option.some.inj hb
      obtain rfl := Option.some.inj hc
      obtain rfl := Option.some.inj hd
      rfl
  | succ i ih =>
    match words with
    | [] | [_] | [_, _] | [_, _, _] => simp [Nat.mul_add] at hd
    | a' :: b' :: c' :: d' :: rest => exact ih ha hb hc hd

namespace Board

variable {bytes : List UInt8}

/-! ## Cells in buffers -/

/-- Cells at their offsets are the cells that the words behind the header make up. -/
theorem cellsAt_toArray {count : Nat} (h : headerSize + count * cellSize ≤ bytes.toArray.size)
    (hlength : bytes.length < headerSize + (count + 1) * cellSize) :
    cellsAt bytes.toArray count h = (cellsOfWords ((wordsOfBytes bytes).drop 4)).toArray := by
  have hwords := length_wordsOfBytes bytes
  have hcells := length_cellsOfWords ((wordsOfBytes bytes).drop 4)
  have hsize : bytes.toArray.size = bytes.length := List.size_toArray
  rw [headerSize, cellSize] at h hlength
  rw [List.length_drop] at hcells
  apply Array.ext'
  refine List.ext_getElem? fun i => ?_
  by_cases hi : i < count
  · have hword (k : Nat) (hk : k < 4) : ((wordsOfBytes bytes).drop 4)[4 * i + k]? =
        some (wordAt bytes.toArray (headerSize + i * cellSize + 4 * k) (by
          rw [headerSize, cellSize]
          omega)) := by
      rw [List.getElem?_drop]
      refine getElem?_wordsOfBytes ?_ _
      rw [headerSize, cellSize]
      omega
    have hcell := getElem?_cellsOfWords (hword 0 (by omega)) (hword 1 (by omega))
      (hword 2 (by omega)) (hword 3 (by omega))
    rw [hcell]
    simp only [cellsAt, Array.getElem?_toList]
    rw [Array.getElem?_ofFn, dif_pos hi]
    rfl
  · rw [List.getElem?_eq_none (by simp [cellsAt]; omega), List.getElem?_eq_none (by simp; omega)]

/-! ## Decoding words -/

/-- A board of given parts is refused for its size first and then for its head. -/
theorem ofParts_eq (width height x y : UInt32) (cells : Array Cell) :
    ofParts width height x y cells =
      if width = 0 ∨ height = 0 then .error (.invalidSize width height)
      else
        placeHead { width, height, headX := 0, headY := 0, cells, log := [], archived := [] }
          x y := by
  by_cases hsize : width = 0 ∨ height = 0
  · rw [ofParts, withHead, new, if_pos hsize, if_pos hsize]
    rfl
  · rw [ofParts, withHead, new, if_neg hsize, if_neg hsize]
    change (placeHead _ x y).bind _ = _
    have hcontains (cells : Array Cell) :
        contains { width, height, headX := 0, headY := 0, cells, log := [], archived := [] } x y =
          (decide (x < width) && decide (y < height)) := rfl
    rw [placeHead_eq, placeHead_eq, hcontains, hcontains]
    by_cases hhead : (decide (x < width) && decide (y < height)) = true
    · rw [if_pos hhead, if_pos hhead]
      rfl
    · rw [if_neg hhead, if_neg hhead]
      rfl

/-- The words of the header are read at their offsets. -/
theorem wordsOfBytes_eq (h : headerSize ≤ bytes.toArray.size) :
    wordsOfBytes bytes =
      wordAt bytes.toArray 0 (Nat.le_trans (by decide) h) ::
        wordAt bytes.toArray 4 (Nat.le_trans (by decide) h) ::
        wordAt bytes.toArray 8 (Nat.le_trans (by decide) h) ::
        wordAt bytes.toArray 12 (Nat.le_trans (by decide) h) :: (wordsOfBytes bytes).drop 4 := by
  have hword (i : Nat) (hi : 4 * i + 4 ≤ headerSize) :=
    getElem?_wordsOfBytes (i := i) rfl (hi.trans h)
  have h0 := hword 0 (by decide)
  have h1 := hword 1 (by decide)
  have h2 := hword 2 (by decide)
  have h3 := hword 3 (by decide)
  generalize wordsOfBytes bytes = words at h0 h1 h2 h3 ⊢
  rcases words with _ | ⟨a, _ | ⟨b, _ | ⟨c, _ | ⟨d, rest⟩⟩⟩⟩
  iterate 4 cases h3
  obtain rfl := Option.some.inj h0
  obtain rfl := Option.some.inj h1
  obtain rfl := Option.some.inj h2
  obtain rfl := Option.some.inj h3
  rfl

/-- What bytes are decoded to, in terms of their words. -/
theorem ofBytes_eq (bytes : List UInt8) :
    ofBytes bytes =
      match wordsOfBytes bytes with
      | width :: height :: x :: y :: rest =>
        match nativeSize? width height with
        | none => .error (.bufferLength (addressLimit - 1) bytes.length)
        | some expected =>
          if bytes.length ≠ expected then .error (.bufferLength expected bytes.length)
          else ofParts width height x y (cellsOfWords rest).toArray
      | _ => .error (.bufferLength headerSize bytes.length) := by
  by_cases hheader : bytes.toArray.size < headerSize
  · rw [ofBytes, dif_pos hheader]
    have hlength := length_wordsOfBytes bytes
    rw [List.size_toArray, headerSize] at hheader
    generalize wordsOfBytes bytes = words at hlength ⊢
    rcases words with _ | ⟨a, _ | ⟨b, _ | ⟨c, _ | ⟨d, rest⟩⟩⟩⟩
    iterate 4 rfl
    simp only [List.length_cons] at hlength
    omega
  · have hsize : headerSize ≤ bytes.toArray.size := Nat.le_of_not_lt hheader
    rw [ofBytes, dif_neg hheader, wordsOfBytes_eq hsize]
    dsimp only
    cases nativeSize? (wordAt bytes.toArray 0 _) (wordAt bytes.toArray 4 _) with
    | none => rfl
    | some expected =>
      dsimp only
      by_cases hlength : bytes.length = expected
      · have hsame : ¬bytes.toArray.size ≠ expected := not_not.2 hlength
        rw [dif_neg hsame, if_neg (not_not.2 hlength), cellsAt_toArray]
        have hcells := Nat.lt_div_mul_add (a := expected - headerSize) (show 0 < cellSize by decide)
        rw [Nat.succ_mul]
        omega
      · have hother : bytes.toArray.size ≠ expected := hlength
        rw [dif_pos hother, if_pos hlength]
        rfl

/-- What an update comes to, in terms of the words of the bytes. -/
theorem Action.update_apply (bytes : List UInt8) (board : Board) :
    Action.update bytes board =
      if bytes.length ≠ board.nativeLength then
        .error (.bufferLength board.nativeLength bytes.length) board
      else
        match wordsOfBytes bytes with
        | _ :: _ :: x :: y :: rest =>
          if board.contains x y then
            .ok () { board with headX := x, headY := y, cells := (cellsOfWords rest).toArray }
          else .error (.headOutOfBounds x y board.width board.height) board
        | _ => .error (.bufferLength board.nativeLength bytes.length) board := by
  rw [Action.update, get_bind]
  by_cases hlength : bytes.length = board.nativeLength
  · have hsame : ¬bytes.toArray.size ≠ board.nativeLength := not_not.2 hlength
    have hfits := le_of_nativeLength hsame
    have hsize : headerSize ≤ bytes.toArray.size := (Nat.le_add_right headerSize _).trans hfits
    have hcells := cellsAt_toArray hfits (by
      rw [hlength, nativeLength, headerSize, cellSize]
      omega)
    rw [dif_neg hsame, if_neg (not_not.2 hlength), wordsOfBytes_eq hsize]
    dsimp only
    rw [← hcells]
    generalize wordAt bytes.toArray 8 _ = x, wordAt bytes.toArray 12 _ = y
    rw [bind_apply, checkInBounds_apply]
    by_cases hhead : board.contains x y = true
    · rw [if_pos hhead, if_pos hhead]
      rfl
    · rw [if_neg hhead, if_neg hhead]
  · have hother : bytes.toArray.size ≠ board.nativeLength := hlength
    rw [dif_pos hother, if_pos hlength]
    rfl

theorem updateFromBytes_eq (board : Board) (bytes : List UInt8) :
    board.updateFromBytes bytes =
      if bytes.length ≠ board.nativeLength then
        .error (.bufferLength board.nativeLength bytes.length)
      else
        match wordsOfBytes bytes with
        | _ :: _ :: x :: y :: rest =>
          ({ board with cells := (cellsOfWords rest).toArray }).placeHead x y
        | _ => .error (.bufferLength board.nativeLength bytes.length) := by
  rw [updateFromBytes, Action.outcome, Action.update_apply]
  by_cases hlength : bytes.length ≠ board.nativeLength
  · rw [if_pos hlength, if_pos hlength]
  · rw [if_neg hlength, if_neg hlength]
    rcases wordsOfBytes bytes with _ | ⟨width, _ | ⟨height, _ | ⟨x, _ | ⟨y, rest⟩⟩⟩⟩
    iterate 4 rfl
    dsimp only
    rw [placeHead_eq]
    change _ = if board.contains x y = true then _ else _
    by_cases hhead : board.contains x y = true
    · rw [if_pos hhead, if_pos hhead]
    · rw [if_neg hhead, if_neg hhead]

end Board
end Gobstones
