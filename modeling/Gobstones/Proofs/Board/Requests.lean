import Gobstones.Proofs.Board.Words
/-!
# Requests to a board

This module lists what a holder of a board can ask of it, and follows boards
through sequences of requests.  A request that fails leaves the board as it was: all
that can fail is checked before anything is written.

Main definitions:

- {lit}`Board.Request` and {lit}`Board.perform`: the requests and what they do.
- {lit}`Board.Careful`: what fails has not changed the board.
- {lit}`Board.replay`: the board after a sequence of requests.
- {lit}`Board.Reachable`: the boards that requests lead to from new boards.
- {lit}`Board.Nested`: sequences in which every opened transaction is rolled back.

Main results:

- Theorem {lit}`Board.careful_perform`: requests that fail leave the board as it was.
-/

namespace Gobstones
namespace Board

/-! ## Requests -/

/-- The queries of a board. -/
inductive Query where
  | numStones (color : Color)
  | existStones (color : Color)
  | canMove (direction : Direction)
  | cell (x y : UInt32)
  | totalStones
  | stateDepth
  | bytes
deriving DecidableEq, Repr

/-- What a request is answered with. -/
inductive Answer where
  | done
  | number (n : Nat)
  | flag (b : Bool)
  | cell (cell : Option Cell)
  | bytes (bytes : List UInt8)
deriving DecidableEq, Repr

/-- The answer of a board to a query. -/
def ask (board : Board) : Query → Answer
  | .numStones color => .number (board.numStones color).toNat
  | .existStones color => .flag (board.existStones color)
  | .canMove direction => .flag (board.canMove direction)
  | .cell x y => .cell (board.cell? x y)
  | .totalStones => .number board.totalStones
  | .stateDepth => .number board.stateDepth
  | .bytes => .bytes board.toBytes

/-- The requests that a holder of a board can make. -/
inductive Request where
  | query (query : Query)
  | put (color : Color) (count : UInt32)
  | take (color : Color) (count : UInt32)
  | move (direction : Direction) (count : UInt32)
  | goToBoundary (direction : Direction)
  | goToOrigin
  | clear
  | pushState
  | popState
  | clearLog
  | update (bytes : List UInt8)
deriving DecidableEq, Repr

/-- Do something with a board that needs no other answer. -/
def Action.done (action : Action Unit) : Action Answer := do
  action
  return .done

/-- Do what is requested. -/
def perform : Request → Action Answer
  | .query query => do return (← get).ask query
  | .put color count => .done (modify (·.put color count))
  | .take color count => .done (.take color count)
  | .move direction count => .done (.moveHead direction count)
  | .goToBoundary direction => .done (modify (·.goToBoundary direction))
  | .goToOrigin => .done (modify goToOrigin)
  | .clear => .done (modify clear)
  | .pushState => .done (modify pushState)
  | .popState => .done .popState
  | .clearLog => .done (modify clearLog)
  | .update bytes => .done (.update bytes)

/-- The board after a request, whether it succeeds or fails. -/
def after (board : Board) (request : Request) : Board :=
  match perform request board with
  | .ok _ next => next
  | .error _ next => next

/-! ## Failing requests -/

/-- Something that is done with a board leaves it as it was if it fails. -/
def Careful {ε α : Type} (action : EStateM ε Board α) : Prop :=
  ∀ board e next, action board = .error e next → next = board

theorem Careful.done {action : Action Unit} (h : Careful action) : Careful action.done := by
  intro board e next hfails
  rw [Action.done, Action.bind_apply] at hfails
  split at hfails
  · cases hfails
  · next e' after hafter =>
    obtain ⟨-, rfl⟩ := EStateM.Result.error.inj hfails
    exact h board e' after hafter

/-- What is done with a board, told from its outcome. -/
theorem Careful.apply_eq {action : Action Unit} (h : Careful action) (board : Board) :
    action board =
      match action.outcome board with
      | .ok next => .ok () next
      | .error e => .error e board := by
  unfold Action.outcome
  cases haction : action board with
  | ok _ next => rfl
  | error e next =>
    obtain rfl := h board e next haction
    rfl

theorem careful_modify {ε : Type} (f : Board → Board) :
    Careful (modify f : EStateM ε Board Unit) :=
  nofun

theorem careful_take (color : Color) (count : UInt32) : Careful (Action.take color count) := by
  intro board e next hfails
  rw [Action.take_apply] at hfails
  split at hfails
  · exact (EStateM.Result.error.inj hfails).2.symm
  · cases hfails

theorem careful_moveHead (direction : Direction) (count : UInt32) :
    Careful (Action.moveHead direction count) := by
  intro board e next hfails
  rw [Action.moveHead_apply] at hfails
  split at hfails
  · exact (EStateM.Result.error.inj hfails).2.symm
  · cases hfails

theorem careful_popState : Careful Action.popState := by
  intro board e next hfails
  rw [Action.popState_apply] at hfails
  split at hfails
  · exact (EStateM.Result.error.inj hfails).2.symm
  · cases hfails

theorem careful_update (bytes : List UInt8) : Careful (Action.update bytes) := by
  intro board e next hfails
  rw [Action.update_apply] at hfails
  split at hfails
  · exact (EStateM.Result.error.inj hfails).2.symm
  · split at hfails
    · split at hfails
      · cases hfails
      · exact (EStateM.Result.error.inj hfails).2.symm
    · exact (EStateM.Result.error.inj hfails).2.symm

/-- A request that fails leaves the board as it was. -/
theorem careful_perform (request : Request) : Careful (perform request) := by
  cases request with
  | query query => nofun
  | take color count => exact (careful_take color count).done
  | move direction count => exact (careful_moveHead direction count).done
  | popState => exact careful_popState.done
  | update bytes => exact (careful_update bytes).done
  | put | goToBoundary | goToOrigin | clear | pushState | clearLog => exact (careful_modify _).done

/-- A request that succeeds without an answer of its own does what its action does. -/
theorem outcome_of_done {action : Action Unit} {answer : Answer} {board next : Board}
    (h : action.done board = .ok answer next) : action.outcome board = .ok next := by
  rw [Action.done, Action.bind_apply] at h
  split at h
  · next after hafter =>
    obtain ⟨-, rfl⟩ := EStateM.Result.ok.inj h
    rw [Action.outcome, hafter]
  · cases h

/-- A request leads to the board that it leaves when it succeeds, or it fails and does not change
the board. -/
theorem after_cases (board : Board) (request : Request) :
    (∃ answer, perform request board = .ok answer (board.after request)) ∨
      board.after request = board := by
  unfold after
  split
  · next answer next hperform => exact .inl ⟨answer, hperform⟩
  · next e next hperform => exact .inr (careful_perform request board e next hperform)

/-- What is done succeeds if its outcome is a board. -/
theorem apply_of_outcome {action : Action Unit} {board next : Board}
    (h : action.outcome board = .ok next) : action board = .ok () next := by
  unfold Action.outcome at h
  cases haction : action board with
  | ok _ after =>
    rw [haction] at h
    obtain rfl := Except.ok.inj h
    rfl
  | error e after =>
    rw [haction] at h
    cases h

/-- What is requested leads to the board that its action leads to. -/
theorem after_of_outcome {action : Action Unit} {request : Request} {board next : Board}
    (h : action.outcome board = .ok next) (hrequest : perform request = action.done := by rfl) :
    board.after request = next := by
  rw [Board.after, hrequest, Action.done, Action.bind_apply, apply_of_outcome h]
  rfl

/-- The board after a sequence of requests. -/
def replay (board : Board) (requests : List Request) : Board :=
  requests.foldl after board

@[simp]
theorem replay_nil (board : Board) : board.replay [] = board :=
  rfl

@[simp]
theorem replay_cons (board : Board) (request : Request) (requests : List Request) :
    board.replay (request :: requests) = (board.after request).replay requests :=
  rfl

@[simp]
theorem replay_append (board : Board) (first second : List Request) :
    board.replay (first ++ second) = (board.replay first).replay second :=
  List.foldl_append

/-! ## Reachable boards -/

/-- The boards that are made anew or decoded from bytes. -/
inductive Constructed : Board → Prop where
  | new {width height : UInt32} {board : Board} (h : new width height = .ok board) :
    Constructed board
  | withHead {width height x y : UInt32} {board : Board}
    (h : withHead width height x y = .ok board) : Constructed board
  | ofBytes {bytes : List UInt8} {board : Board} (h : ofBytes bytes = .ok board) :
    Constructed board

/-- The boards that any requests in any order lead to. -/
def Reachable (board : Board) : Prop :=
  ∃ start requests, Constructed start ∧ board = start.replay requests

/-! ## Nested transactions -/

/-- The requests of which transactions are made: queries and changes that are recorded. -/
def Request.IsRecorded : Request → Prop
  | .query _ | .put .. | .take .. | .move .. | .goToBoundary _ | .goToOrigin | .clear => True
  | .pushState | .popState | .clearLog | .update _ => False

instance (request : Request) : Decidable request.IsRecorded := by
  cases request <;> unfold Request.IsRecorded <;> infer_instance

/-- The sequences of recorded requests in which every transaction that is opened is rolled
back, transactions lying inside or beside each other. -/
inductive Nested : List Request → Prop where
  | nil : Nested []
  | recorded {request : Request} {rest : List Request} (h : request.IsRecorded)
    (hrest : Nested rest) : Nested (request :: rest)
  | transaction {inner rest : List Request} (hinner : Nested inner) (hrest : Nested rest) :
    Nested (.pushState :: inner ++ .popState :: rest)

end Board
end Gobstones
