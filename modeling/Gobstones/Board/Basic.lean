import Gobstones.Value.Basic
/-!
# Boards

This module defines the board: a grid of cells with four stone counters each, a
head that stands on one cell, and the undo logs of the open transactions.  Every
change of the board records its inverse in the active log.

Main definitions:

- {lit}`Board`: the board, with its queries and its changes.
- {lit}`Board.Action`: what may fail halfway and leaves a board in any case.
- {lit}`Board.pushState` and {lit}`Board.popState`: open a transaction and roll it
  back.
- {lit}`Board.WellFormed`: the head lies on the grid and the grid is complete.
-/

namespace Gobstones

/-! ## Failures -/

/-- The ways in which a board operation fails. -/
inductive BoardError where
  | cannotTake (color : Color) (count available : UInt32)
  | cannotMove (direction : Direction)
  | unbalancedState
  | invalidSize (width height : UInt32)
  | headOutOfBounds (x y width height : UInt32)
  | bufferLength (expected actual : Nat)
deriving DecidableEq, Repr

namespace BoardError

/-- The report of a failed board operation. -/
def message : BoardError → String
  | cannotTake color count available =>
    s!"Cannot take {count.toNat} stone(s) of color {color.name}: only {available.toNat} present"
  | cannotMove direction => s!"Cannot move {direction.name}: the head would fall off the board"
  | unbalancedState => "pop_state without a matching push_state"
  | invalidSize width height =>
    s!"board size must be at least 1x1, got {width.toNat}x{height.toNat}"
  | headOutOfBounds x y width height =>
    s!"head ({x.toNat}, {y.toNat}) lies outside a {width.toNat}x{height.toNat} board"
  | bufferLength expected actual =>
    s!"native board buffer has {actual} bytes, expected {expected}"

end BoardError

/-! ## Cells -/

/-- Four independent stone counters, which wrap at 32 bits. -/
structure Cell where
  blue : UInt32
  black : UInt32
  red : UInt32
  green : UInt32
deriving DecidableEq, Repr

namespace Cell

/-- The cell without stones. -/
def empty : Cell :=
  ⟨0, 0, 0, 0⟩

instance : Inhabited Cell :=
  ⟨empty⟩

/-- The number of stones of a color. -/
def count (cell : Cell) : Color → UInt32
  | .blue => cell.blue
  | .black => cell.black
  | .red => cell.red
  | .green => cell.green

/-- Replace the counter of a color. -/
def setCount (cell : Cell) (color : Color) (n : UInt32) : Cell :=
  match color with
  | .blue => { cell with blue := n }
  | .black => { cell with black := n }
  | .red => { cell with red := n }
  | .green => { cell with green := n }

/-- Add stones of a color. -/
def add (cell : Cell) (color : Color) (n : UInt32) : Cell :=
  cell.setCount color (cell.count color + n)

/-- Remove stones of a color. -/
def remove (cell : Cell) (color : Color) (n : UInt32) : Cell :=
  cell.setCount color (cell.count color - n)

/-- The four counters in the order of the colors. -/
def counters (cell : Cell) : List UInt32 :=
  [cell.blue, cell.black, cell.red, cell.green]

/-- A cell without stones is empty. -/
def isEmpty (cell : Cell) : Bool :=
  cell = empty

/-- The number of stones of all colors. -/
def total (cell : Cell) : Nat :=
  cell.counters.foldl (fun n counter => n + counter.toNat) 0

@[simp]
theorem count_setCount_self (cell : Cell) (color : Color) (n : UInt32) :
    (cell.setCount color n).count color = n := by
  cases color <;> rfl

end Cell

/-! ## Logs -/

/-- One inverse operation of an undo log. -/
inductive Change where
  | put (color : Color) (count : UInt32)
  | take (color : Color) (count : UInt32)
  | move (direction : Direction) (count : UInt32)
  | setHead (x y : UInt32)
  | restore (cells : Array Cell)
deriving DecidableEq, Repr

/-- The inverse operations of a transaction, the latest first. -/
abbrev ChangeLog := List Change

/-- A grid of cells, stored row by row from the south, with the head, the active
undo log and the logs of the enclosing transactions, innermost first. -/
structure Board where
  width : UInt32
  height : UInt32
  headX : UInt32
  headY : UInt32
  cells : Array Cell
  log : ChangeLog
  archived : List ChangeLog
deriving DecidableEq, Repr

namespace Board

/-! ## Actions -/

/-- What is done with a board, step by step.  It comes to a result or fails, and the board as the
steps so far have left it is there in both cases. -/
abbrev Action := EStateM BoardError Board

/-- The board after an action that succeeds, or the reason for which it fails. -/
def Action.outcome (action : Action Unit) (board : Board) : Except BoardError Board :=
  match action board with
  | .ok _ next => .ok next
  | .error e _ => .error e

/-! ## New boards -/

/-- The number of cells of a grid. -/
def area (width height : UInt32) : Nat :=
  width.toNat * height.toNat

/-- An empty board with the head at the origin. -/
def new (width height : UInt32) : Except BoardError Board :=
  if width = 0 ∨ height = 0 then .error (.invalidSize width height)
  else
    .ok {
      width, height
      headX := 0
      headY := 0
      cells := Array.replicate (area width height) Cell.empty
      log := []
      archived := [] }

/-- Whether a position lies on the grid. -/
def contains (board : Board) (x y : UInt32) : Bool :=
  x < board.width && y < board.height

/-- Fail if a position does not lie on the grid. -/
def Action.checkInBounds (x y : UInt32) : Action Unit := do
  let board ← get
  unless board.contains x y do throw (.headOutOfBounds x y board.width board.height)

/-- Place the head without recording the change. -/
def Action.placeHead (x y : UInt32) : Action Unit := do
  checkInBounds x y
  modify fun board => { board with headX := x, headY := y }

/-- The board with the head at a position, if that lies on the grid. -/
def placeHead (board : Board) (x y : UInt32) : Except BoardError Board :=
  (Action.placeHead x y).outcome board

/-- An empty board with the head at a position. -/
def withHead (width height x y : UInt32) : Except BoardError Board :=
  (new width height).bind (·.placeHead x y)

/-! ## Queries -/

/-- The place of a position in the row-by-row order. -/
def index (board : Board) (x y : UInt32) : Nat :=
  y.toNat * board.width.toNat + x.toNat

/-- The place of the head cell. -/
def headIndex (board : Board) : Nat :=
  board.index board.headX board.headY

/-- The cell at a position of the grid. -/
def cell? (board : Board) (x y : UInt32) : Option Cell :=
  if board.contains x y then board.cells[board.index x y]? else none

/-- The cell under the head. -/
def here (board : Board) : Cell :=
  board.cells.getD board.headIndex Cell.empty

/-- The number of stones of a color under the head. -/
def numStones (board : Board) (color : Color) : UInt32 :=
  board.here.count color

/-- Whether there are stones of a color under the head. -/
def existStones (board : Board) (color : Color) : Bool :=
  0 < board.numStones color

/-- The position {lit}`count` steps away, if it lies on the grid. -/
def target? (board : Board) (direction : Direction) (count : UInt32) : Option (UInt32 × UInt32) :=
  let x := (board.headX.toNat : Int) + direction.delta.1 * count.toNat
  let y := (board.headY.toNat : Int) + direction.delta.2 * count.toNat
  if 0 ≤ x ∧ x < board.width.toNat ∧ 0 ≤ y ∧ y < board.height.toNat then
    some (UInt32.ofNat x.toNat, UInt32.ofNat y.toNat)
  else none

/-- Whether one step keeps the head on the grid. -/
def canMove (board : Board) (direction : Direction) : Bool :=
  (board.target? direction 1).isSome

/-- The number of stones on the whole board. -/
def totalStones (board : Board) : Nat :=
  board.cells.foldl (fun n cell => n + cell.total) 0

/-- The number of open transactions. -/
def stateDepth (board : Board) : Nat :=
  board.archived.length

/-- Boards have equal contents when they agree in size and cells. -/
def equalContents (a b : Board) : Bool :=
  a.width = b.width && a.height = b.height && a.cells = b.cells

/-- Boards look alike when they agree in size, cells and head.  Undo logs do not
take part. -/
def looksLike (a b : Board) : Bool :=
  a.headX = b.headX && a.headY = b.headY && a.equalContents b

/-! ## Changes -/

/-- Change the cell under the head. -/
def modifyHere (board : Board) (f : Cell → Cell) : Board :=
  { board with cells := board.cells.modify board.headIndex f }

/-- Record an inverse operation in the active log. -/
def record (board : Board) (change : Change) : Board :=
  { board with log := change :: board.log }

/-- Add stones of a color under the head. -/
def put (board : Board) (color : Color) (count : UInt32) : Board :=
  (board.modifyHere (·.add color count)).record (.take color count)

/-- Remove stones of a color under the head, if there are enough of them. -/
def Action.take (color : Color) (count : UInt32) : Action Unit := do
  let available := (← get).numStones color
  if available < count then throw (.cannotTake color count available)
  modify (·.modifyHere (·.remove color count))
  modify (·.record (.put color count))

/-- Move the head {lit}`count` steps, if it stays on the grid. -/
def Action.moveHead (direction : Direction) (count : UInt32) : Action Unit := do
  match (← get).target? direction count with
  | none => throw (.cannotMove direction)
  | some (x, y) =>
    modify fun board => { board with headX := x, headY := y }
    modify (·.record (.move direction.opposite count))

/-- The board with stones of a color removed under the head. -/
def take (board : Board) (color : Color) (count : UInt32) : Except BoardError Board :=
  (Action.take color count).outcome board

/-- The board with the head moved {lit}`count` steps. -/
def moveHead (board : Board) (direction : Direction) (count : UInt32) : Except BoardError Board :=
  (Action.moveHead direction count).outcome board

/-- Move the head to a position, recording where it was. -/
def jumpTo (board : Board) (x y : UInt32) : Board :=
  { board.record (.setHead board.headX board.headY) with headX := x, headY := y }

/-- Move the head to the edge in a direction. -/
def goToBoundary (board : Board) : Direction → Board
  | .north => board.jumpTo board.headX (board.height - 1)
  | .east => board.jumpTo (board.width - 1) board.headY
  | .south => board.jumpTo board.headX 0
  | .west => board.jumpTo 0 board.headY

/-- Move the head to the origin. -/
def goToOrigin (board : Board) : Board :=
  board.jumpTo 0 0

/-- Remove every stone from the board. -/
def clear (board : Board) : Board :=
  { board with cells := Array.replicate board.cells.size Cell.empty }.record (.restore board.cells)

/-! ## Transactions -/

/-- Apply one recorded inverse without recording anything. -/
def revert (board : Board) : Change → Board
  | .put color count => board.modifyHere (·.add color count)
  | .take color count => board.modifyHere (·.remove color count)
  | .move direction count =>
    match board.target? direction count with
    | some (x, y) => { board with headX := x, headY := y }
    | none => board
  | .setHead x y => { board with headX := x, headY := y }
  | .restore cells => { board with cells }

/-- Open a transaction: set the active log aside and start an empty one. -/
def pushState (board : Board) : Board :=
  { board with log := [], archived := board.log :: board.archived }

/-- Roll the innermost transaction back, latest change first, and take up the log
that was set aside for it. -/
def Action.popState : Action Unit := do
  match (← get).archived with
  | [] => throw .unbalancedState
  | restored :: archived =>
    modify fun board => { board with archived }
    let undo := (← get).log
    modify fun board => { board with log := restored }
    modify fun board => undo.foldl revert board

/-- The board with the innermost transaction rolled back. -/
def popState (board : Board) : Except BoardError Board :=
  Action.popState.outcome board

/-- Forget the active log. -/
def clearLog (board : Board) : Board :=
  { board with log := [] }

/-! ## What actions come to -/

/-- An action that starts with a look at the board. -/
theorem Action.get_bind {α : Type} (rest : Board → Action α) (board : Board) :
    (get >>= rest : Action α) board = rest board board :=
  rfl

/-- An action goes on from the board that its first part leaves. -/
theorem Action.bind_apply {α β : Type} (first : Action α) (rest : α → Action β) (board : Board) :
    (first >>= rest) board =
      match first board with
      | .ok a next => rest a next
      | .error e next => .error e next := by
  simp only [bind, EStateM.bind]
  cases first board <;> rfl

theorem Action.checkInBounds_apply (x y : UInt32) (board : Board) :
    Action.checkInBounds x y board =
      if board.contains x y then .ok () board
      else .error (.headOutOfBounds x y board.width board.height) board := by
  rw [checkInBounds, get_bind]
  by_cases h : board.contains x y = true
  · rw [if_pos h, if_pos h]
    rfl
  · rw [if_neg h, if_neg h]
    rfl

theorem Action.placeHead_apply (x y : UInt32) (board : Board) :
    Action.placeHead x y board =
      if board.contains x y then .ok () { board with headX := x, headY := y }
      else .error (.headOutOfBounds x y board.width board.height) board := by
  rw [Action.placeHead, bind_apply, checkInBounds_apply]
  by_cases h : board.contains x y = true
  · rw [if_pos h, if_pos h]
    rfl
  · rw [if_neg h, if_neg h]

theorem Action.take_apply (color : Color) (count : UInt32) (board : Board) :
    Action.take color count board =
      if board.numStones color < count then
        .error (.cannotTake color count (board.numStones color)) board
      else .ok () ((board.modifyHere (·.remove color count)).record (.put color count)) := by
  rw [Action.take, get_bind]
  by_cases h : board.numStones color < count
  · rw [if_pos h]
    simp only [if_pos h]
    rfl
  · rw [if_neg h]
    simp only [if_neg h]
    rfl

theorem Action.moveHead_apply (direction : Direction) (count : UInt32) (board : Board) :
    Action.moveHead direction count board =
      match board.target? direction count with
      | none => .error (.cannotMove direction) board
      | some (x, y) =>
        .ok () ({ board with headX := x, headY := y }.record (.move direction.opposite count)) := by
  rw [Action.moveHead, get_bind]
  cases board.target? direction count <;> rfl

theorem Action.popState_apply (board : Board) :
    Action.popState board =
      match board.archived with
      | [] => .error .unbalancedState board
      | log :: archived => .ok () (board.log.foldl revert { board with log, archived }) := by
  rw [Action.popState, get_bind]
  cases board.archived <;> rfl

theorem placeHead_eq (board : Board) (x y : UInt32) :
    board.placeHead x y =
      if board.contains x y then .ok { board with headX := x, headY := y }
      else .error (.headOutOfBounds x y board.width board.height) := by
  rw [placeHead, Action.outcome, Action.placeHead_apply]
  by_cases h : board.contains x y = true
  · rw [if_pos h, if_pos h]
  · rw [if_neg h, if_neg h]

theorem take_eq (board : Board) (color : Color) (count : UInt32) :
    board.take color count =
      if board.numStones color < count then
        .error (.cannotTake color count (board.numStones color))
      else .ok ((board.modifyHere (·.remove color count)).record (.put color count)) := by
  rw [take, Action.outcome, Action.take_apply]
  by_cases h : board.numStones color < count
  · rw [if_pos h, if_pos h]
  · rw [if_neg h, if_neg h]

theorem moveHead_eq (board : Board) (direction : Direction) (count : UInt32) :
    board.moveHead direction count =
      match board.target? direction count with
      | none => .error (.cannotMove direction)
      | some (x, y) =>
        .ok ({ board with headX := x, headY := y }.record (.move direction.opposite count)) := by
  rw [moveHead, Action.outcome, Action.moveHead_apply]
  cases board.target? direction count <;> rfl

theorem popState_eq (board : Board) :
    board.popState =
      match board.archived with
      | [] => .error .unbalancedState
      | log :: archived => .ok (board.log.foldl revert { board with log, archived }) := by
  rw [popState, Action.outcome, Action.popState_apply]
  cases board.archived <;> rfl

/-! ## The invariant -/

/-- The grid has at least one cell and is complete, and the head lies on it. -/
structure WellFormed (board : Board) : Prop where
  width_pos : 0 < board.width
  height_pos : 0 < board.height
  size_cells : board.cells.size = area board.width board.height
  headX_lt : board.headX < board.width
  headY_lt : board.headY < board.height

end Board
end Gobstones
