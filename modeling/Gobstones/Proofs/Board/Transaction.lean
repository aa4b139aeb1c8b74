import Gobstones.Proofs.Board.Invariant
/-!
# Transactions

This module shows that rolling a transaction back undoes everything that was done in
it.  Every recorded change puts an inverse in front of the log, and applying that
inverse gives the board before the change, so what a rollback leads to does not
depend on the recorded changes.

Main definitions:

- {lit}`Board.Logged`: a change of a board with its inverse in the log.

Main results:

- Theorem {lit}`Board.Logged.popState_eq`: recorded changes do not change what a
  rollback leads to.
- Theorem {lit}`Board.popState_replay_pushState`: a transaction gives back the board
  on which it was opened.
-/

namespace Gobstones

namespace Cell

@[simp]
theorem setCount_count (cell : Cell) (color : Color) :
    cell.setCount color (cell.count color) = cell := by
  cases color <;> rfl

@[simp]
theorem setCount_setCount (cell : Cell) (color : Color) (m n : UInt32) :
    (cell.setCount color m).setCount color n = cell.setCount color n := by
  cases color <;> rfl

/-- Counters wrap, so removing what was added gives the cell back. -/
theorem remove_add (cell : Cell) (color : Color) (n : UInt32) :
    (cell.add color n).remove color n = cell := by
  unfold remove add
  rw [count_setCount_self, setCount_setCount, UInt32.add_sub_cancel, setCount_count]

/-- Counters wrap, so adding what was removed gives the cell back. -/
theorem add_remove (cell : Cell) (color : Color) (n : UInt32) :
    (cell.remove color n).add color n = cell := by
  unfold remove add
  rw [count_setCount_self, setCount_setCount, UInt32.sub_add_cancel, setCount_count]

end Cell

namespace Board

/-! ## Recorded changes -/

/-- A board after a change whose inverse is the latest entry of the log: whatever the logs
are, the inverse leads back to the cells and the head before. -/
structure Logged (before next : Board) : Prop where
  width_eq : next.width = before.width
  height_eq : next.height = before.height
  archived_eq : next.archived = before.archived
  inverse : ∃ change, next.log = change :: before.log ∧
    ∀ log archived, ({ next with log, archived } : Board).revert change =
      { before with log, archived }

/-- Recorded changes do not change what a rollback leads to. -/
theorem Logged.popState_eq {before next : Board} (h : Logged before next) :
    next.popState = before.popState := by
  obtain ⟨change, hlog, hrevert⟩ := h.inverse
  rw [Board.popState_eq, Board.popState_eq, h.archived_eq]
  cases before.archived with
  | nil => rfl
  | cons log archived =>
    simp only [hlog, List.foldl_cons]
    rw [hrevert]

/-- Two changes of one cell that cancel each other leave the board as it was. -/
theorem modifyHere_modifyHere (board : Board) (f g : Cell → Cell) (h : ∀ cell, g (f cell) = cell) :
    (board.modifyHere f).modifyHere g = board := by
  have hcells (i : Nat) : (board.cells.modify i f).modify i g = board.cells := by
    ext1
    · simp
    · next j _ _ => by_cases hij : i = j <;> simp [Array.getElem_modify, hij, h]
  calc (board.modifyHere f).modifyHere g
      = { board with
          cells := (board.cells.modify board.headIndex f).modify board.headIndex g } := rfl
    _ = board := by rw [hcells]

theorem logged_put (board : Board) (color : Color) (count : UInt32) :
    Logged board (board.put color count) where
  width_eq := rfl
  height_eq := rfl
  archived_eq := rfl
  inverse := by
    refine ⟨.take color count, rfl, fun log archived => ?_⟩
    exact modifyHere_modifyHere { board with log, archived } (·.add color count)
      (·.remove color count) fun cell => cell.remove_add color count

theorem logged_take {board next : Board} {color : Color} {count : UInt32}
    (h : board.take color count = .ok next) : Logged board next := by
  rw [take_eq] at h
  split at h
  · simp at h
  · obtain rfl := Except.ok.inj h
    refine ⟨rfl, rfl, rfl, .put color count, rfl, fun log archived => ?_⟩
    exact modifyHere_modifyHere { board with log, archived } (·.remove color count)
      (·.add color count) fun cell => cell.add_remove color count

/-- As many steps in the opposite direction lead back. -/
theorem target?_opposite {board : Board} (h : board.WellFormed) {direction : Direction}
    {count x y : UInt32} (htarget : board.target? direction count = some (x, y))
    (log : ChangeLog) (archived : List ChangeLog) :
    ({ board with headX := x, headY := y, log, archived } : Board).target?
      direction.opposite count = some (board.headX, board.headY) := by
  obtain ⟨-, -, hdx, hdy⟩ := target?_eq_some htarget
  refine target?_of_eq ?_ ?_ ?_ ?_
  · exact h.headX_lt
  · exact h.headY_lt
  · rw [delta_opposite, hdx]
    ring
  · rw [delta_opposite, hdy]
    ring

theorem logged_moveHead {board next : Board} (hboard : board.WellFormed) {direction : Direction}
    {count : UInt32} (h : board.moveHead direction count = .ok next) : Logged board next := by
  obtain ⟨x, y, htarget, rfl⟩ := moveHead_eq_ok h
  refine ⟨rfl, rfl, rfl, .move direction.opposite count, rfl, fun log archived => ?_⟩
  simp only [revert, record, target?_opposite hboard htarget log archived]

theorem logged_jumpTo (board : Board) (x y : UInt32) : Logged board (board.jumpTo x y) where
  width_eq := rfl
  height_eq := rfl
  archived_eq := rfl
  inverse := ⟨.setHead board.headX board.headY, rfl, fun _ _ => rfl⟩

theorem logged_goToBoundary (board : Board) (direction : Direction) :
    Logged board (board.goToBoundary direction) := by
  cases direction <;> exact logged_jumpTo board _ _

theorem logged_clear (board : Board) : Logged board board.clear where
  width_eq := rfl
  height_eq := rfl
  archived_eq := rfl
  inverse := ⟨.restore board.cells, rfl, fun _ _ => rfl⟩

/-! ## Transactions -/

@[simp]
theorem popState_pushState (board : Board) : board.pushState.popState = .ok board :=
  rfl

/-- A recorded request makes a change with an inverse, or it fails and changes nothing. -/
theorem logged_after {board : Board} (hboard : board.WellFormed) {request : Request}
    (hrequest : request.IsRecorded) :
    board.after request = board ∨ Logged board (board.after request) := by
  rcases after_cases board request with ⟨answer, hperform⟩ | hsame
  · cases request with
    | query query => exact .inl rfl
    | put color count => exact .inr (logged_put board color count)
    | take color count => exact .inr (logged_take (outcome_of_done hperform))
    | move direction count => exact .inr (logged_moveHead hboard (outcome_of_done hperform))
    | goToBoundary direction => exact .inr (logged_goToBoundary board direction)
    | goToOrigin => exact .inr (logged_jumpTo board 0 0)
    | clear => exact .inr (logged_clear board)
    | pushState | popState | clearLog | update bytes => exact hrequest.elim
  · exact .inl hsame

/-- A recorded request does not change what a rollback leads to, whether it succeeds or
fails. -/
theorem popState_after {board : Board} (hboard : board.WellFormed) {request : Request}
    (hrequest : request.IsRecorded) : (board.after request).popState = board.popState := by
  rcases logged_after hboard hrequest with hsame | hlogged
  · rw [hsame]
  · exact hlogged.popState_eq

/-- A recorded request keeps the size of the grid. -/
theorem size_after {board : Board} (hboard : board.WellFormed) {request : Request}
    (hrequest : request.IsRecorded) :
    (board.after request).width = board.width ∧ (board.after request).height = board.height := by
  rcases logged_after hboard hrequest with hsame | hlogged
  · rw [hsame]
    exact ⟨rfl, rfl⟩
  · exact ⟨hlogged.width_eq, hlogged.height_eq⟩

/-- Recorded requests leave the logs of the transactions that are open alone. -/
theorem archived_after {board : Board} {request : Request} (hrequest : request.IsRecorded) :
    (board.after request).archived = board.archived := by
  rcases after_cases board request with ⟨answer, hperform⟩ | hsame
  · cases request with
    | query | put | goToOrigin | clear => rfl
    | take color count => exact (logged_take (outcome_of_done hperform)).archived_eq
    | move direction count =>
      obtain ⟨x, y, -, hnext⟩ := moveHead_eq_ok (outcome_of_done hperform)
      rw [hnext]
      rfl
    | goToBoundary direction => exact (logged_goToBoundary board direction).archived_eq
    | pushState | popState | clearLog | update bytes => exact hrequest.elim
  · rw [hsame]

theorem archived_foldl_revert (log : ChangeLog) (board : Board) :
    (log.foldl revert board).archived = board.archived := by
  induction log generalizing board with
  | nil => rfl
  | cons change log ih =>
    rw [List.foldl_cons, ih, archived_revert]

/-- A rollback takes the innermost archived log and leaves the others as they are. -/
theorem exists_archived_of_popState {board next : Board} (h : board.popState = .ok next) :
    ∃ log, board.archived = log :: next.archived := by
  rw [popState_eq] at h
  split at h
  · simp at h
  · next log archived harchived =>
    obtain rfl := Except.ok.inj h
    exact ⟨log, by rw [archived_foldl_revert, harchived]⟩

/-- A rollback closes the innermost open transaction, and only the lack of one fails it. -/
theorem popState_eq_ok {board next : Board} (h : board.popState = .ok next) :
    board.archived.length = next.archived.length + 1 := by
  obtain ⟨log, harchived⟩ := exists_archived_of_popState h
  rw [harchived, List.length_cons]

/-- A rollback keeps the size of the grid. -/
theorem size_popState {board next : Board} (h : board.popState = .ok next) :
    next.width = board.width ∧ next.height = board.height := by
  have hrevert (log : ChangeLog) (board : Board) :
      (log.foldl revert board).width = board.width ∧
        (log.foldl revert board).height = board.height := by
    induction log generalizing board with
    | nil => exact ⟨rfl, rfl⟩
    | cons change log ih =>
      rw [List.foldl_cons, (ih _).1, (ih _).2, width_revert, height_revert]
      exact ⟨rfl, rfl⟩
  rw [popState_eq] at h
  split at h
  · simp at h
  · next log archived harchived =>
    obtain rfl := Except.ok.inj h
    exact hrevert _ _

theorem popState_eq_error {board : Board} {e : BoardError} (h : board.popState = .error e) :
    board.archived = [] := by
  rw [popState_eq] at h
  split at h
  · next harchived => exact harchived
  · simp at h

/-- Recorded requests and whole transactions do not change what a rollback leads to. -/
theorem popState_replay {board : Board} (hboard : board.Sound) {requests : List Request}
    (hrequests : Nested requests) : (board.replay requests).popState = board.popState := by
  induction hrequests generalizing board with
  | nil => rfl
  | recorded h _ ih =>
    rw [replay_cons, ih (hboard.after _)]
    exact popState_after hboard.toWellFormed h
  | @transaction inner rest _ _ ihinner ihrest =>
    have hinner : (board.pushState.replay inner).popState = .ok board :=
      ihinner hboard.pushState
    have hback : (board.pushState.replay inner).after .popState = board :=
      after_of_outcome hinner
    rw [List.cons_append, replay_cons, replay_append, replay_cons]
    change ((((board.pushState).replay inner).after .popState).replay rest).popState = _
    rw [hback]
    exact ihrest hboard

/-- A transaction that contains any recorded requests, failing ones among them, and any
transactions inside it succeeds and gives back exactly the board on which it was opened,
its logs included. -/
theorem popState_replay_pushState {board : Board} (hboard : board.Reachable)
    {requests : List Request} (hrequests : Nested requests) :
    (board.pushState.replay requests).popState = .ok board :=
  popState_replay hboard.sound.pushState hrequests

/-- A red counter that wraps, a take and a move that fail, and an inner transaction that
clears the board, all undone. -/
theorem popState_replay_pushState_wrapping :
    ∃ board : Board, board.cells = #[⟨0, 0, 4294967295, 0⟩, Cell.empty] ∧ board.Reachable ∧
      ((board.pushState.replay [.put .red 2, .take .blue 1, .move .north 7, .pushState, .clear,
        .goToBoundary .east, .query (.numStones .red), .popState, .move .east 1]).popState =
          .ok board) := by
  let start : Board :=
    { width := 2, height := 1, headX := 0, headY := 0,
      cells := #[Cell.empty, Cell.empty], log := [], archived := [] }
  have hstart : Constructed start := .new (rfl : new 2 1 = .ok start)
  have hboard : (start.replay [.put .red 4294967295]).Reachable := ⟨start, _, hstart, rfl⟩
  have hinner : Nested [.clear, .goToBoundary .east, .query (.numStones .red)] :=
    .recorded trivial (.recorded trivial (.recorded trivial .nil))
  have hrest : Nested [.move .east 1] := .recorded trivial .nil
  have htail := Nested.transaction hinner hrest
  exact ⟨_, by decide, hboard, popState_replay_pushState hboard
    (.recorded trivial (.recorded trivial (.recorded trivial htail)))⟩

end Board
end Gobstones
