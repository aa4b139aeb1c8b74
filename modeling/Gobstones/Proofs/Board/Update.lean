import Gobstones.Proofs.Board.Encoding
import Gobstones.Proofs.Board.Range
/-!
# Updates of boards

This module compares the update of a board from bytes with decoding them.  An update checks
the length of the bytes and the place of the head, and it ignores the size in the header.
So it does what decoding does if the header shows the size of the board; bytes of the
right length that show another grid are decoded to another board, or not at all, while
the update succeeds.

Main definitions:

- {lit}`Board.resized`: bytes with the size of a board in their header.
- {lit}`Board.ShowsSize`: the header shows the size of a board already.
- {lit}`Board.withoutLogs`: what is encoded of a board.

Main results:

- Theorem {lit}`Board.ofBytes_resized`: an update is decoding under the size of the board.
- Theorem {lit}`Board.updateFromBytes_agrees`: where updates and decoding agree.
- Theorem {lit}`Board.updateFromBytes_tower`: a grid of another shape is taken for the grid
  of the board.
-/

namespace Gobstones
namespace Board

variable {board : Board} {bytes : List UInt8}

/-- The bytes of the size of a board, with which its encoding starts. -/
def sizeBytes (board : Board) : List UInt8 :=
  wordBytes board.width ++ wordBytes board.height

/-- Bytes with the size of a board in the place of the size in their header. -/
def resized (board : Board) (bytes : List UInt8) : List UInt8 :=
  board.sizeBytes ++ bytes.drop 8

/-- The header of some bytes shows the size of a board. -/
def ShowsSize (board : Board) (bytes : List UInt8) : Prop :=
  bytes.take 8 = board.sizeBytes

instance (board : Board) (bytes : List UInt8) : Decidable (board.ShowsSize bytes) :=
  inferInstanceAs (Decidable (_ = _))

theorem ShowsSize.resized_eq (h : board.ShowsSize bytes) : board.resized bytes = bytes := by
  rw [resized, ← h, List.take_append_drop]

theorem showsSize_toBytes (board : Board) : board.ShowsSize board.toBytes := by
  rw [ShowsSize, toBytes, toWords]
  rfl

/-- Bytes that are decoded to a board of some size show it. -/
theorem showsSize_of_ofBytes {decoded : Board} (h : ofBytes bytes = .ok decoded)
    (hwidth : decoded.width = board.width) (hheight : decoded.height = board.height) :
    board.ShowsSize bytes := by
  have hshows := decoded.showsSize_toBytes
  rwa [toBytes_of_ofBytes h, ShowsSize, sizeBytes, hwidth, hheight] at hshows

theorem length_resized (board : Board) (bytes : List UInt8) :
    (board.resized bytes).length = 8 + (bytes.length - 8) := by
  rw [resized, sizeBytes]
  simp only [wordBytes, List.length_append, List.length_cons, List.length_nil, List.length_drop]

/-- Only the two words of the size are replaced. -/
theorem wordsOfBytes_resized {a b : UInt32} {rest : List UInt32}
    (h : wordsOfBytes bytes = a :: b :: rest) :
    wordsOfBytes (board.resized bytes) = board.width :: board.height :: rest := by
  have hlength := length_wordsOfBytes bytes
  rw [h] at hlength
  simp only [List.length_cons] at hlength
  match bytes, hlength with
  | a' :: b' :: c' :: d' :: a'' :: b'' :: c'' :: d'' :: others, _ =>
    simp only [wordsOfBytes, List.cons.injEq] at h
    rw [← h.2.2, resized, sizeBytes]
    simp only [wordBytes, List.cons_append, List.nil_append, List.drop_succ_cons, List.drop_zero,
      wordsOfBytes, wordOfBytes_wordBytes]

/-- A board without its logs, as it is decoded. -/
def withoutLogs (board : Board) : Board :=
  { board with log := [], archived := [] }

/-- The head is placed on a board without logs, wherever it was, as on the board itself. -/
theorem placeHead_withoutLogs (board : Board) (x y headX headY : UInt32) :
    placeHead { board with headX, headY, log := [], archived := [] } x y =
      (board.placeHead x y).map withoutLogs := by
  rw [placeHead_eq, placeHead_eq]
  have hcontains : ({ board with headX, headY, log := [], archived := [] } : Board).contains x y =
      board.contains x y := rfl
  rw [hcontains]
  split <;> rfl

/-- The logs are not encoded. -/
theorem toBytes_withoutLogs (board : Board) : board.withoutLogs.toBytes = board.toBytes :=
  rfl

/-- Under the size of the board, bytes of its length are decoded to what an update makes of it,
and refused for the reason for which the update is refused. -/
theorem ofBytes_resized (hboard : board.WellFormed) (hfits : board.nativeLength < 2 ^ 64)
    (hlength : bytes.length = board.nativeLength) :
    ofBytes (board.resized bytes) = (board.updateFromBytes bytes).map withoutLogs := by
  have hheader : 16 ≤ bytes.length := by
    rw [hlength, nativeLength, headerSize]
    omega
  obtain ⟨rest, hwords⟩ := wordsOfBytes_of_header hheader
  have hresized : (board.resized bytes).length = board.nativeLength := by
    rw [length_resized]
    omega
  rw [ofBytes_eq, wordsOfBytes_resized hwords, updateFromBytes_eq, hwords]
  simp only [hboard.nativeSize?_eq hfits, hresized, hlength, ne_eq, not_true_eq_false, if_false,
    ofParts_eq, if_neg hboard.size_ne_zero]
  exact placeHead_withoutLogs { board with cells := (cellsOfWords rest).toArray } _ _ 0 0

/-- Under the size of the board, bytes of another length are not decoded. -/
theorem ofBytes_resized_of_length_ne (hboard : board.WellFormed)
    (hfits : board.nativeLength < 2 ^ 64) (hlength : bytes.length ≠ board.nativeLength) :
    ∃ problem, ofBytes (board.resized bytes) = .error problem := by
  have hresized := length_resized board bytes
  by_cases hheader : 16 ≤ bytes.length
  · obtain ⟨rest, hwords⟩ := wordsOfBytes_of_header hheader
    rw [ofBytes_eq, wordsOfBytes_resized hwords]
    simp only [hboard.nativeSize?_eq hfits]
    rw [if_pos (by omega)]
    exact ⟨_, rfl⟩
  · refine ⟨_, ofBytes_of_not_lengthFits fun hfits => ?_⟩
    have := hfits.1
    omega

/-! ## Updates -/

theorem logs_updateFromBytes {next : Board} (h : board.updateFromBytes bytes = .ok next) :
    next.log = board.log ∧ next.archived = board.archived := by
  obtain ⟨headX, headY, cells, rfl⟩ := exists_of_updateFromBytes h
  exact ⟨rfl, rfl⟩

/-- After an update, the board is what the bytes are decoded to under its size. -/
theorem ofBytes_of_updateFromBytes (hboard : board.WellFormed)
    (hfits : board.nativeLength < 2 ^ 64) {next : Board}
    (h : board.updateFromBytes bytes = .ok next) :
    ofBytes (board.resized bytes) = .ok next.withoutLogs := by
  have hlength : bytes.length = board.nativeLength := by
    by_contra hlength
    rw [updateFromBytes_eq, if_pos hlength] at h
    cases h
  rw [ofBytes_resized hboard hfits hlength, h]
  rfl

/-- What is decoded under the size of the board is taken over. -/
theorem updateFromBytes_of_ofBytes (hboard : board.WellFormed)
    (hfits : board.nativeLength < 2 ^ 64) {decoded : Board}
    (h : ofBytes (board.resized bytes) = .ok decoded) :
    board.updateFromBytes bytes =
      .ok { decoded with log := board.log, archived := board.archived } := by
  have hlength : bytes.length = board.nativeLength := by
    by_contra hlength
    obtain ⟨problem, hproblem⟩ := ofBytes_resized_of_length_ne hboard hfits hlength
    cases hproblem.symm.trans h
  rw [ofBytes_resized hboard hfits hlength] at h
  match hupdate : board.updateFromBytes bytes with
  | .error problem =>
    rw [hupdate] at h
    cases h
  | .ok next =>
    rw [hupdate] at h
    obtain rfl := Except.ok.inj h
    obtain ⟨hlog, harchived⟩ := logs_updateFromBytes hupdate
    rw [withoutLogs, ← hlog, ← harchived]

/-- Bytes are decoded to a board of the same size exactly if their header shows this size and the
update succeeds. -/
theorem exists_ofBytes_iff_updateFromBytes (hboard : board.WellFormed)
    (hfits : board.nativeLength < 2 ^ 64) :
    (∃ decoded, ofBytes bytes = .ok decoded ∧ decoded.width = board.width ∧
        decoded.height = board.height) ↔
      board.ShowsSize bytes ∧ ∃ next, board.updateFromBytes bytes = .ok next := by
  constructor
  · rintro ⟨decoded, hdecoded, hwidth, hheight⟩
    have hshows := showsSize_of_ofBytes hdecoded hwidth hheight
    rw [← hshows.resized_eq] at hdecoded
    exact ⟨hshows, _, updateFromBytes_of_ofBytes hboard hfits hdecoded⟩
  · rintro ⟨hshows, next, hnext⟩
    have hdecoded := ofBytes_of_updateFromBytes hboard hfits hnext
    rw [hshows.resized_eq] at hdecoded
    obtain ⟨hwidth, hheight⟩ := size_updateFromBytes hnext
    exact ⟨next.withoutLogs, hdecoded, hwidth, hheight⟩

/-- An update does what decoding does under the size of the board.  Bytes are decoded to a board
of the same size exactly if their header shows it and the update succeeds; then the board becomes
what is decoded, and the bytes are its encoding.  The size in the header is not looked at: an
update succeeds exactly if the bytes are decoded with the size of the board in its place.  The
logs and the size stay, and a board that is not updated stays as it was. -/
theorem updateFromBytes_agrees (hboard : board.WellFormed) (hfits : board.nativeLength < 2 ^ 64)
    (bytes : List UInt8) :
    ((∃ decoded, ofBytes bytes = .ok decoded ∧ decoded.width = board.width ∧
        decoded.height = board.height) ↔
      board.ShowsSize bytes ∧ ∃ next, board.updateFromBytes bytes = .ok next) ∧
    ((∃ next, board.updateFromBytes bytes = .ok next) ↔
      ∃ decoded, ofBytes (board.resized bytes) = .ok decoded) ∧
    (∀ next, board.updateFromBytes bytes = .ok next →
      ofBytes (board.resized bytes) = .ok next.withoutLogs ∧
      next.toBytes = board.resized bytes ∧
      (board.ShowsSize bytes → ofBytes bytes = .ok next.withoutLogs ∧ next.toBytes = bytes) ∧
      next.width = board.width ∧ next.height = board.height ∧
      next.log = board.log ∧ next.archived = board.archived) ∧
    ∀ problem, board.updateFromBytes bytes = .error problem →
      board.after (.update bytes) = board := by
  refine ⟨exists_ofBytes_iff_updateFromBytes hboard hfits, ?decoded, fun next hnext => ?updated,
    fun problem hproblem => ?refused⟩
  case decoded =>
    constructor
    · rintro ⟨next, hnext⟩
      exact ⟨_, ofBytes_of_updateFromBytes hboard hfits hnext⟩
    · rintro ⟨decoded, hdecoded⟩
      exact ⟨_, updateFromBytes_of_ofBytes hboard hfits hdecoded⟩
  case updated =>
    have hdecoded := ofBytes_of_updateFromBytes hboard hfits hnext
    have hencoded : next.toBytes = board.resized bytes := by
      rw [← toBytes_of_ofBytes hdecoded, toBytes_withoutLogs]
    obtain ⟨hwidth, hheight⟩ := size_updateFromBytes hnext
    obtain ⟨hlog, harchived⟩ := logs_updateFromBytes hnext
    refine ⟨hdecoded, hencoded, fun hshows => ?_, hwidth, hheight, hlog, harchived⟩
    rw [hshows.resized_eq] at hdecoded hencoded
    exact ⟨hdecoded, hencoded⟩
  case refused =>
    rcases after_cases board (.update bytes) with ⟨answer, hperform⟩ | hsame
    · cases hproblem.symm.trans (outcome_of_done hperform)
    · exact hsame

end Board

namespace Corner

/-- A board with as many cells as the board in the corner, above each other. -/
def tower : Board where
  width := 1
  height := 2
  headX := 0
  headY := 0
  cells := #[⟨0, 0, 3, 0⟩, ⟨5, 0, 0, 0⟩]
  log := []
  archived := []

/-- The board in the corner with all stones taken and the head elsewhere. -/
def emptied : Board :=
  { board with headX := 0, cells := #[.empty, .empty] }

/-- As many empty cells under a header of a larger grid. -/
def misfit : List UInt8 :=
  [9, 0, 0, 0, 9, 0, 0, 0] ++ List.replicate 40 0

/-- A header of the right size with the head outside of the grid. -/
def outside : List UInt8 :=
  [2, 0, 0, 0, 1, 0, 0, 0, 0, 0, 0, 0, 1, 0, 0, 0] ++ List.replicate 32 0

end Corner

namespace Board

/-- The encoding of a board that is as large, but of another shape, is taken for an encoding of
the board itself, and so are bytes that are no encoding. -/
theorem updateFromBytes_tower :
    Corner.board.WellFormed ∧ Corner.board.nativeLength < 2 ^ 64 ∧
      (ofBytes Corner.tower.toBytes = .ok Corner.tower ∧
        Corner.tower.width ≠ Corner.board.width ∧
        Corner.board.updateFromBytes Corner.tower.toBytes =
          .ok { Corner.board with headX := 0, cells := Corner.tower.cells } ∧
        toBytes { Corner.board with headX := 0, cells := Corner.tower.cells } ≠
          Corner.tower.toBytes) ∧
      ofBytes Corner.misfit = .error (.bufferLength 1312 48) ∧
        Corner.board.updateFromBytes Corner.misfit = .ok Corner.emptied := by
  have hboard : Corner.board.WellFormed :=
    ⟨by decide, by decide, by decide, by decide, by decide⟩
  exact ⟨hboard, by decide, ⟨by rfl, by decide, by rfl, by decide +kernel⟩, by rfl, by rfl⟩

theorem updateFromBytes_agrees_corner :
    Corner.board.WellFormed ∧ Corner.board.nativeLength < 2 ^ 64 ∧
      (Corner.board.ShowsSize Corner.emptied.toBytes ∧
        Corner.board.updateFromBytes Corner.emptied.toBytes = .ok Corner.emptied ∧
        ofBytes Corner.emptied.toBytes = .ok Corner.emptied.withoutLogs) ∧
      (¬Corner.board.ShowsSize Corner.tower.toBytes ∧
        ∃ decoded, ofBytes (Corner.board.resized Corner.tower.toBytes) = .ok decoded) ∧
      Corner.board.updateFromBytes Corner.outside = .error (.headOutOfBounds 0 1 2 1) ∧
      Corner.board.after (.update Corner.outside) = Corner.board := by
  have hboard : Corner.board.WellFormed :=
    ⟨by decide, by decide, by decide, by decide, by decide⟩
  have hfits : Corner.board.nativeLength < 2 ^ 64 := by decide
  have hshows : Corner.board.ShowsSize Corner.emptied.toBytes := Corner.emptied.showsSize_toBytes
  have hupdate : Corner.board.updateFromBytes Corner.emptied.toBytes = .ok Corner.emptied := by rfl
  have htower : Corner.board.updateFromBytes Corner.tower.toBytes =
      .ok { Corner.board with headX := 0, cells := Corner.tower.cells } := by rfl
  have houtside : Corner.board.updateFromBytes Corner.outside =
      .error (.headOutOfBounds 0 1 2 1) := by rfl
  obtain ⟨-, -, hupdated, -⟩ := updateFromBytes_agrees hboard hfits Corner.emptied.toBytes
  obtain ⟨-, hdecoded, -⟩ := updateFromBytes_agrees hboard hfits Corner.tower.toBytes
  obtain ⟨-, -, -, hrefused⟩ := updateFromBytes_agrees hboard hfits Corner.outside
  exact ⟨hboard, hfits, ⟨hshows, hupdate, ((hupdated _ hupdate).2.2.1 hshows).1⟩,
    ⟨by decide +kernel, hdecoded.1 ⟨_, htower⟩⟩, houtside, hrefused _ houtside⟩

end Board
end Gobstones
