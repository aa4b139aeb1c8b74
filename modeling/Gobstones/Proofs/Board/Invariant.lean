import Mathlib.Tactic.Ring
import Gobstones.Proofs.Board.Requests
/-!
# The invariant of boards

This module shows that every reachable board is complete and has its head on the
grid.  Rolling a transaction back applies what its log says, so the logs have to be
fit for the grid as well.

Main definitions:

- {lit}`Board.Sound`: a well-formed board whose logs fit its grid.

Main results:

- Theorem {lit}`Board.Sound.after`: requests keep boards sound, failing or not.
- Theorem {lit}`Board.Reachable.sound`: reachable boards are sound.
-/

namespace Gobstones

/-- A recorded change fits a grid: the places of the head lie on it, and saved cells fill
it. -/
def Change.FitsIn (width height : UInt32) : Change → Prop
  | .setHead x y => x < width ∧ y < height
  | .restore cells => cells.size = Board.area width height
  | .put .. | .take .. | .move .. => True

namespace Board

/-! ## Positions -/

/-- A position on the grid belongs to one of its cells. -/
theorem index_lt_area {board : Board} {x y : UInt32} (hx : x < board.width)
    (hy : y < board.height) : board.index x y < area board.width board.height := by
  rw [UInt32.lt_iff_toNat_lt] at hx hy
  unfold index area
  calc y.toNat * board.width.toNat + x.toNat
      < y.toNat * board.width.toNat + board.width.toNat := by omega
    _ = board.width.toNat * (y.toNat + 1) := by ring
    _ ≤ board.width.toNat * board.height.toNat := Nat.mul_le_mul_left _ hy

theorem WellFormed.headIndex_lt {board : Board} (h : board.WellFormed) :
    board.headIndex < board.cells.size := by
  rw [h.size_cells]
  exact index_lt_area h.headX_lt h.headY_lt

/-- Where a number of steps leads, if it leads to a place on the grid. -/
theorem target?_eq_some {board : Board} {direction : Direction} {count x y : UInt32}
    (h : board.target? direction count = some (x, y)) :
    x < board.width ∧ y < board.height ∧
      (x.toNat : Int) = board.headX.toNat + direction.delta.1 * count.toNat ∧
      (y.toNat : Int) = board.headY.toNat + direction.delta.2 * count.toNat := by
  unfold target? at h
  simp only at h
  split at h
  · have hw := board.width.toNat_lt
    have hh := board.height.toNat_lt
    simp only [Option.some.injEq, Prod.mk.injEq] at h
    obtain ⟨rfl, rfl⟩ := h
    simp only [UInt32.lt_iff_toNat_lt, UInt32.toNat_ofNat']
    omega
  · simp at h

/-- The place at a distance from the head is where that many steps lead. -/
theorem target?_of_eq {board : Board} {direction : Direction} {count x y : UInt32}
    (hx : x < board.width) (hy : y < board.height)
    (hdx : (x.toNat : Int) = board.headX.toNat + direction.delta.1 * count.toNat)
    (hdy : (y.toNat : Int) = board.headY.toNat + direction.delta.2 * count.toNat) :
    board.target? direction count = some (x, y) := by
  rw [UInt32.lt_iff_toNat_lt] at hx hy
  unfold target?
  simp only [← hdx, ← hdy]
  rw [if_pos (by omega)]
  simp

theorem delta_opposite (direction : Direction) :
    direction.opposite.delta = (-direction.delta.1, -direction.delta.2) := by
  cases direction <;> rfl

/-! ## Sound boards -/

/-- A well-formed board whose logs fit its grid.  This is no part of a board: what takes changes
back goes where the log says and does not look at the grid, so that boards stay sound is to be
shown of every request. -/
structure Sound (board : Board) : Prop extends WellFormed board where
  log_fits : ∀ change ∈ board.log, change.FitsIn board.width board.height
  archived_fits : ∀ log ∈ board.archived, ∀ change ∈ log, change.FitsIn board.width board.height

/-- A board with the same grid and the same logs is as sound as its head and its cells
are. -/
theorem Sound.update {board : Board} (h : board.Sound) {x y : UInt32} {cells : Array Cell}
    (hx : x < board.width) (hy : y < board.height) (hcells : cells.size = board.cells.size) :
    ({ board with headX := x, headY := y, cells } : Board).Sound where
  width_pos := h.width_pos
  height_pos := h.height_pos
  size_cells := hcells.trans h.size_cells
  headX_lt := hx
  headY_lt := hy
  log_fits := h.log_fits
  archived_fits := h.archived_fits

theorem Sound.modifyHere {board : Board} (h : board.Sound) (f : Cell → Cell) :
    (board.modifyHere f).Sound :=
  h.update h.headX_lt h.headY_lt (by simp)

theorem Sound.record {board : Board} (h : board.Sound) {change : Change}
    (hfits : change.FitsIn board.width board.height) : (board.record change).Sound where
  toWellFormed := ⟨h.width_pos, h.height_pos, h.size_cells, h.headX_lt, h.headY_lt⟩
  log_fits := by
    intro other hother
    rcases List.mem_cons.1 hother with rfl | hother
    · exact hfits
    · exact h.log_fits other hother
  archived_fits := h.archived_fits

theorem Sound.jumpTo {board : Board} (h : board.Sound) {x y : UInt32} (hx : x < board.width)
    (hy : y < board.height) : (board.jumpTo x y).Sound :=
  (h.update hx hy rfl).record ⟨h.headX_lt, h.headY_lt⟩

theorem Sound.goToBoundary {board : Board} (h : board.Sound) (direction : Direction) :
    (board.goToBoundary direction).Sound := by
  have hw : board.width - 1 < board.width := by have := h.width_pos; grind
  have hh : board.height - 1 < board.height := by have := h.height_pos; grind
  cases direction with
  | north => exact h.jumpTo h.headX_lt hh
  | east => exact h.jumpTo hw h.headY_lt
  | south => exact h.jumpTo h.headX_lt h.height_pos
  | west => exact h.jumpTo h.width_pos h.headY_lt

/-- A move that does not fail places the head at its target. -/
theorem moveHead_eq_ok {board next : Board} {direction : Direction} {count : UInt32}
    (h : board.moveHead direction count = .ok next) :
    ∃ x y, board.target? direction count = some (x, y) ∧
      next = { board with headX := x, headY := y }.record (.move direction.opposite count) := by
  rw [moveHead_eq] at h
  split at h
  · simp at h
  · next x y htarget => exact ⟨x, y, htarget, (Except.ok.inj h).symm⟩

theorem Sound.moveHead {board next : Board} (h : board.Sound) {direction : Direction}
    {count : UInt32} (hmove : board.moveHead direction count = .ok next) : next.Sound := by
  obtain ⟨x, y, htarget, rfl⟩ := moveHead_eq_ok hmove
  obtain ⟨hx, hy, -, -⟩ := target?_eq_some htarget
  exact (h.update hx hy rfl).record trivial

theorem Sound.take {board next : Board} (h : board.Sound) {color : Color} {count : UInt32}
    (htake : board.take color count = .ok next) : next.Sound := by
  rw [take_eq] at htake
  split at htake
  · simp at htake
  · obtain rfl := Except.ok.inj htake
    exact (h.modifyHere _).record trivial

theorem Sound.clear {board : Board} (h : board.Sound) : board.clear.Sound :=
  (h.update h.headX_lt h.headY_lt (by simp)).record h.size_cells

theorem Sound.pushState {board : Board} (h : board.Sound) : board.pushState.Sound where
  toWellFormed := ⟨h.width_pos, h.height_pos, h.size_cells, h.headX_lt, h.headY_lt⟩
  log_fits := by simp [Board.pushState]
  archived_fits := by
    intro log hlog
    rcases List.mem_cons.1 hlog with rfl | hlog
    · exact h.log_fits
    · exact h.archived_fits log hlog

theorem Sound.clearLog {board : Board} (h : board.Sound) : board.clearLog.Sound where
  toWellFormed := ⟨h.width_pos, h.height_pos, h.size_cells, h.headX_lt, h.headY_lt⟩
  log_fits := by simp [Board.clearLog]
  archived_fits := h.archived_fits

/-! ## Rolling back -/

@[simp]
theorem width_revert (board : Board) (change : Change) :
    (board.revert change).width = board.width := by
  cases change <;> simp only [revert, modifyHere]
  split <;> rfl

@[simp]
theorem height_revert (board : Board) (change : Change) :
    (board.revert change).height = board.height := by
  cases change <;> simp only [revert, modifyHere]
  split <;> rfl

@[simp]
theorem archived_revert (board : Board) (change : Change) :
    (board.revert change).archived = board.archived := by
  cases change <;> simp only [revert, modifyHere]
  split <;> rfl

theorem Sound.revert {board : Board} (h : board.Sound) {change : Change}
    (hfits : change.FitsIn board.width board.height) : (board.revert change).Sound := by
  cases change with
  | put color count => exact h.modifyHere _
  | take color count => exact h.modifyHere _
  | move direction count =>
    simp only [Board.revert]
    split
    · next x y htarget =>
      obtain ⟨hx, hy, -, -⟩ := target?_eq_some htarget
      exact h.update hx hy rfl
    · exact h
  | setHead x y => exact h.update hfits.1 hfits.2 rfl
  | restore cells => exact h.update h.headX_lt h.headY_lt (hfits.trans h.size_cells.symm)

/-- Rolling back any log that fits the grid keeps a board sound. -/
theorem Sound.foldl_revert {board : Board} (h : board.Sound) (log : ChangeLog)
    (hfits : ∀ change ∈ log, change.FitsIn board.width board.height) :
    (log.foldl Board.revert board).Sound := by
  induction log generalizing board with
  | nil => exact h
  | cons change log ih =>
    apply ih (h.revert (hfits change List.mem_cons_self))
    intro other hother
    rw [width_revert, height_revert]
    exact hfits other (List.mem_cons_of_mem _ hother)

theorem Sound.popState {board next : Board} (h : board.Sound)
    (hpop : board.popState = .ok next) : next.Sound := by
  rw [popState_eq] at hpop
  split at hpop
  · simp at hpop
  · next log archived harchived =>
    obtain rfl := Except.ok.inj hpop
    have hsound : ({ board with log, archived } : Board).Sound :=
      { toWellFormed := ⟨h.width_pos, h.height_pos, h.size_cells, h.headX_lt, h.headY_lt⟩
        log_fits := h.archived_fits log (by simp [harchived])
        archived_fits := fun other hother =>
          h.archived_fits other (by simp [harchived, hother]) }
    exact hsound.foldl_revert board.log h.log_fits

/-! ## Decoding -/

theorem Sound.updateFromBytes {board next : Board} (h : board.Sound) {bytes : List UInt8}
    (hupdate : board.updateFromBytes bytes = .ok next) : next.Sound := by
  rw [updateFromBytes_eq] at hupdate
  split at hupdate
  · simp at hupdate
  · next hlength =>
    split at hupdate
    · next w v x y rest hwords =>
      have hrest := length_wordsOfBytes bytes
      have hcells := length_cellsOfWords rest
      rw [Decidable.not_not, nativeLength, headerSize, cellSize] at hlength
      simp only [hwords, List.length_cons] at hrest
      rw [placeHead_eq] at hupdate
      split at hupdate
      · next hin =>
        obtain rfl := Except.ok.inj hupdate
        simp only [contains, Bool.and_eq_true, decide_eq_true_eq] at hin
        exact h.update hin.1 hin.2 (by simp only [List.size_toArray]; omega)
      · simp at hupdate
    · simp at hupdate

/-! ## Reachable boards -/

/-- Without logs a board is sound when it is well-formed. -/
theorem WellFormed.sound {board : Board} (h : board.WellFormed) (hlog : board.log = [])
    (harchived : board.archived = []) : board.Sound where
  toWellFormed := h
  log_fits := by simp [hlog]
  archived_fits := by simp [harchived]

theorem sound_new {width height : UInt32} {board : Board} (h : new width height = .ok board) :
    board.Sound := by
  unfold new at h
  split at h
  · simp at h
  · next hpos =>
    obtain rfl := Except.ok.inj h
    have hw : 0 < width := by grind
    have hh : 0 < height := by grind
    exact WellFormed.sound ⟨hw, hh, by simp, hw, hh⟩ rfl rfl

theorem Sound.placeHead {board next : Board} (h : board.Sound) {x y : UInt32}
    (hplace : board.placeHead x y = .ok next) : next.Sound := by
  rw [placeHead_eq] at hplace
  split at hplace
  · next hin =>
    obtain rfl := Except.ok.inj hplace
    simp only [contains, Bool.and_eq_true, decide_eq_true_eq] at hin
    exact h.update hin.1 hin.2 rfl
  · simp at hplace

theorem sound_withHead {width height x y : UInt32} {board : Board}
    (h : withHead width height x y = .ok board) : board.Sound := by
  unfold withHead at h
  cases hnew : new width height with
  | error e => simp [hnew, Except.bind] at h
  | ok start => exact (sound_new hnew).placeHead (by simpa [hnew, Except.bind] using h)

theorem sound_ofBytes {bytes : List UInt8} {board : Board} (h : ofBytes bytes = .ok board) :
    board.Sound := by
  rw [ofBytes_eq] at h
  split at h
  · next width height x y rest hwords =>
    split at h
    · simp at h
    · next expected hexpected =>
      split at h
      · simp at h
      · next hlength =>
        rw [ofParts_eq] at h
        split at h
        · simp at h
        · next hpos =>
          have hrest := length_wordsOfBytes bytes
          have hcells := length_cellsOfWords rest
          unfold nativeSize? at hexpected
          simp only [Option.ite_none_right_eq_some, Option.some.injEq] at hexpected
          simp only [cellSize, headerSize] at hexpected
          simp only [hwords, List.length_cons] at hrest
          have hsize : (cellsOfWords rest).toArray.size = area width height := by
            simp only [List.size_toArray]
            omega
          have hw : 0 < width := by grind
          have hh : 0 < height := by grind
          exact Sound.placeHead (WellFormed.sound ⟨hw, hh, hsize, hw, hh⟩ rfl rfl) h
  · simp at h

theorem Constructed.sound {board : Board} (h : Constructed board) : board.Sound := by
  cases h with
  | new h => exact sound_new h
  | withHead h => exact sound_withHead h
  | ofBytes h => exact sound_ofBytes h

/-- A request that succeeds keeps a board sound. -/
theorem Sound.perform {board next : Board} (h : board.Sound) {request : Request}
    {answer : Answer} (hperform : Board.perform request board = .ok answer next) : next.Sound := by
  cases request with
  | query query =>
    obtain ⟨-, rfl⟩ := EStateM.Result.ok.inj hperform
    exact h
  | put color count =>
    obtain ⟨-, rfl⟩ := EStateM.Result.ok.inj hperform
    exact (h.modifyHere _).record trivial
  | take color count => exact h.take (outcome_of_done hperform)
  | move direction count => exact h.moveHead (outcome_of_done hperform)
  | goToBoundary direction =>
    obtain ⟨-, rfl⟩ := EStateM.Result.ok.inj hperform
    exact h.goToBoundary direction
  | goToOrigin =>
    obtain ⟨-, rfl⟩ := EStateM.Result.ok.inj hperform
    exact h.jumpTo h.width_pos h.height_pos
  | clear =>
    obtain ⟨-, rfl⟩ := EStateM.Result.ok.inj hperform
    exact h.clear
  | pushState =>
    obtain ⟨-, rfl⟩ := EStateM.Result.ok.inj hperform
    exact h.pushState
  | popState => exact h.popState (outcome_of_done hperform)
  | clearLog =>
    obtain ⟨-, rfl⟩ := EStateM.Result.ok.inj hperform
    exact h.clearLog
  | update bytes => exact h.updateFromBytes (outcome_of_done hperform)

/-- A request keeps a board sound, whether it succeeds or fails. -/
theorem Sound.after {board : Board} (h : board.Sound) (request : Request) :
    (board.after request).Sound := by
  rcases after_cases board request with ⟨answer, hperform⟩ | hsame
  · exact h.perform hperform
  · rwa [hsame]

theorem Sound.replay {board : Board} (h : board.Sound) (requests : List Request) :
    (board.replay requests).Sound := by
  induction requests generalizing board with
  | nil => exact h
  | cons request requests ih => exact ih (h.after request)

theorem Reachable.sound {board : Board} (h : board.Reachable) : board.Sound := by
  obtain ⟨start, requests, hstart, rfl⟩ := h
  exact hstart.sound.replay requests

end Board
end Gobstones
