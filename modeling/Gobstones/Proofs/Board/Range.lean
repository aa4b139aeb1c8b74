import Gobstones.Proofs.Board.Transaction
/-!
# Cells in range

This module shows that the cells of a board are accessed within the grid only.  Requests
in any order keep the size of the grid, its cells complete and the head on it, so there
is a cell under the head for every query and every change.  A rollback applies changes
that were recorded on other boards, so this has to hold in the middle of it, too.

Main definitions:

- {lit}`Board.HeadCell`: what is asked and changed under the head is one cell of the grid.
- {lit}`Board.RollsThrough`: the boards in the middle of a rollback.
- {lit}`Board.KeepsGrid`: a board has the grid of another one, and its head is in range.

Main results:

- Theorem {lit}`Board.size_replay`: requests keep the size of the grid.
- Theorem {lit}`Board.keepsGrid_replay`: no access misses the grid, in no order of requests
  and nowhere in a rollback.
-/

namespace Gobstones
namespace Board

/-! ## The cell under the head -/

/-- A cell of the grid lies under the head.  Its counters are what a board is asked for, and
stones are added to and removed from it alone. -/
structure HeadCell (board : Board) (cell : Cell) : Prop where
  found : board.cells[board.headIndex]? = some cell
  numStones : ∀ color, board.numStones color = cell.count color
  put : ∀ color count,
    (board.put color count).cells = board.cells.setIfInBounds board.headIndex (cell.add color count)
  take : ∀ color count next, board.take color count = .ok next →
    next.cells = board.cells.setIfInBounds board.headIndex (cell.remove color count)

theorem modify_eq_setIfInBounds {cells : Array Cell} {i : Nat} {cell : Cell}
    (h : cells[i]? = some cell) (f : Cell → Cell) :
    cells.modify i f = cells.setIfInBounds i (f cell) := by
  obtain ⟨hi, rfl⟩ := Array.getElem?_eq_some_iff.1 h
  ext j hj hj'
  · simp
  · have hsize : j < cells.size := by simpa using hj
    rw [Array.getElem_modify, Array.getElem_setIfInBounds hsize]
    split
    · next heq => simp only [heq]
    · rfl

/-- A well-formed board has a cell under its head. -/
theorem WellFormed.exists_headCell {board : Board} (h : board.WellFormed) :
    ∃ cell, board.HeadCell cell := by
  have hlt := h.headIndex_lt
  have hfound : board.cells[board.headIndex]? = some board.cells[board.headIndex] :=
    Array.getElem?_eq_getElem hlt
  refine ⟨_, hfound, fun color => ?_, fun color count => ?_, fun color count next htake => ?_⟩
  · rw [Board.numStones, here, Array.getD_eq_getD_getElem?, hfound, Option.getD_some]
  · exact modify_eq_setIfInBounds hfound (·.add color count)
  · rw [take_eq] at htake
    split at htake
    · cases htake
    · obtain rfl := Except.ok.inj htake
      exact modify_eq_setIfInBounds hfound (·.remove color count)

/-! ## The size of the grid -/

/-- An update changes the place of the head and the cells only. -/
theorem exists_of_updateFromBytes {board next : Board} {bytes : List UInt8}
    (h : board.updateFromBytes bytes = .ok next) :
    ∃ headX headY cells, next = { board with headX, headY, cells } := by
  rw [updateFromBytes_eq] at h
  split at h
  · cases h
  · split at h
    · rw [placeHead_eq] at h
      split at h
      · obtain rfl := Except.ok.inj h
        exact ⟨_, _, _, rfl⟩
      · cases h
    · cases h

theorem size_updateFromBytes {board next : Board} {bytes : List UInt8}
    (h : board.updateFromBytes bytes = .ok next) :
    next.width = board.width ∧ next.height = board.height := by
  obtain ⟨headX, headY, cells, rfl⟩ := exists_of_updateFromBytes h
  exact ⟨rfl, rfl⟩

/-- Every request keeps the size of the grid, whether it succeeds or fails. -/
theorem size_request {board : Board} (hboard : board.WellFormed) (request : Request) :
    (board.after request).width = board.width ∧ (board.after request).height = board.height := by
  by_cases hrecorded : request.IsRecorded
  · exact size_after hboard hrecorded
  · rcases after_cases board request with ⟨answer, hperform⟩ | hsame
    · cases request with
      | pushState | clearLog => exact ⟨rfl, rfl⟩
      | popState => exact size_popState (outcome_of_done hperform)
      | update bytes => exact size_updateFromBytes (outcome_of_done hperform)
      | _ => exact absurd trivial hrecorded
    · rw [hsame]
      exact ⟨rfl, rfl⟩

/-- Requests in any order keep the size of the grid. -/
theorem size_replay {board : Board} (hboard : board.Sound) (requests : List Request) :
    (board.replay requests).width = board.width ∧
      (board.replay requests).height = board.height := by
  induction requests generalizing board with
  | nil => exact ⟨rfl, rfl⟩
  | cons request requests ih =>
    obtain ⟨hwidth, hheight⟩ := size_request hboard.toWellFormed request
    rw [replay_cons, ← hwidth, ← hheight]
    exact ih (hboard.after request)

/-! ## Rollbacks -/

/-- A board in the middle of a rollback: the log that was set aside is active again, and
some of the changes, the latest first, have been undone. -/
def RollsThrough (board midway : Board) : Prop :=
  ∃ log archived undone rest, board.archived = log :: archived ∧ board.log = undone ++ rest ∧
    midway = undone.foldl revert { board with log, archived }

/-- What a rollback passes through is sound, and the grid keeps its size. -/
theorem Sound.rollsThrough {board midway : Board} (h : board.Sound)
    (hmidway : board.RollsThrough midway) :
    midway.Sound ∧ midway.width = board.width ∧ midway.height = board.height := by
  obtain ⟨log, archived, undone, rest, harchived, hlog, rfl⟩ := hmidway
  -- A board on which only these changes were made is rolled back to this one.
  have hundone : ({ board with log := undone } : Board).Sound :=
    { toWellFormed := ⟨h.width_pos, h.height_pos, h.size_cells, h.headX_lt, h.headY_lt⟩
      log_fits := fun change hchange => h.log_fits change (by simp [hlog, hchange])
      archived_fits := h.archived_fits }
  have hpop : ({ board with log := undone } : Board).popState =
      .ok (undone.foldl Board.revert { board with log, archived }) := by
    rw [popState_eq, harchived]
  have hsize := size_popState hpop
  exact ⟨hundone.popState hpop, hsize⟩

/-! ## Requests in any order -/

/-- A board has the grid of another one: its size is the same, its cells are complete, and its
head lies on one of them. -/
structure KeepsGrid (start board : Board) : Prop extends WellFormed board where
  width_eq : board.width = start.width
  height_eq : board.height = start.height
  headIndex_lt : board.headIndex < board.cells.size
  headCell : ∃ cell, board.HeadCell cell

theorem Sound.keepsGrid {start board : Board} (h : board.Sound)
    (hsize : board.width = start.width ∧ board.height = start.height) :
    start.KeepsGrid board where
  toWellFormed := h.toWellFormed
  width_eq := hsize.1
  height_eq := hsize.2
  headIndex_lt := h.toWellFormed.headIndex_lt
  headCell := h.toWellFormed.exists_headCell

/-- A board keeps its grid, and its head a cell of it, through all requests in any order,
failing or not, and in the middle of each rollback. -/
theorem keepsGrid_replay {start : Board} (hstart : Constructed start) (requests : List Request) :
    start.KeepsGrid (start.replay requests) ∧
      ∀ midway, (start.replay requests).RollsThrough midway → start.KeepsGrid midway := by
  have hsound : (start.replay requests).Sound := hstart.sound.replay requests
  have hsize := size_replay hstart.sound requests
  refine ⟨hsound.keepsGrid hsize, fun midway hmidway => ?_⟩
  obtain ⟨hmidway, hwidth, hheight⟩ := hsound.rollsThrough hmidway
  exact hmidway.keepsGrid ⟨hwidth.trans hsize.1, hheight.trans hsize.2⟩

/-- Changes that were recorded before an update of the board are undone after it, and once
more than transactions were opened. -/
theorem keepsGrid_replay_updated :
    ∃ start : Board, Constructed start ∧
      let requests : List Request := [.put .red 1, .move .east 1, .pushState, .clear,
        .goToBoundary .west, .put .blue 3,
        .update ([9, 9, 1, 0, 1, 2, 3, 4, 5, 6, 7, 8].flatMap wordBytes), .take .black 2]
      (start.replay requests).log.length = 4 ∧
        start.KeepsGrid (start.replay requests) ∧
        (∀ midway, (start.replay requests).RollsThrough midway → start.KeepsGrid midway) ∧
        start.KeepsGrid (start.replay (requests ++ [.popState, .popState])) := by
  let start : Board :=
    { width := 2, height := 1, headX := 0, headY := 0,
      cells := #[Cell.empty, Cell.empty], log := [], archived := [] }
  have hstart : Constructed start := .new (rfl : new 2 1 = .ok start)
  obtain ⟨hgrid, hmidway⟩ := keepsGrid_replay hstart [.put .red 1, .move .east 1, .pushState,
    .clear, .goToBoundary .west, .put .blue 3,
    .update ([9, 9, 1, 0, 1, 2, 3, 4, 5, 6, 7, 8].flatMap wordBytes), .take .black 2]
  exact ⟨start, hstart, by decide, hgrid, hmidway, (keepsGrid_replay hstart _).1⟩

end Board
end Gobstones
