import Mathlib.Data.List.Basic
import Gobstones.Builtin
import Gobstones.Proofs.Board.Transaction
import Gobstones.Proofs.Outcome
/-!
# Operations on boards

This module says what the primitive operations do to a board and which results they
leave.  Every operation does what a recorded request does, so it keeps a board sound
and does not change what a rollback leads to.

Main results:

- Theorem {lit}`Operation.careful_perform`: an operation that fails leaves the board as it was.
- Theorem {lit}`Operation.apply_eq_ok`: an operation acts as a recorded request, and
  exactly the functions leave a result.
- Theorem {lit}`Operation.isValueFault_of_apply`: an operation with enough arguments fails
  only because of their values or because of the board.
-/

namespace Gobstones

namespace Operation

variable {op : Operation} {board next : Board} {args : List Value} {result : Option Value}
variable {value : Except PrimitiveError Value} {action : Board.Action Unit} {e : PrimitiveError}

/-! ## Parts of operations -/

/-- An operation that only computes leaves its value and the board as it was. -/
theorem answer_eq_ok (h : (answer value).outcome board = .ok (result, next)) :
    next = board ∧ ∃ v, value = .ok v ∧ result = some v := by
  cases value with
  | error e => cases h
  | ok v =>
    obtain ⟨rfl, rfl⟩ := Prod.mk.inj (Except.ok.inj h)
    exact ⟨rfl, v, rfl, rfl⟩

theorem answer_eq_error (h : (answer value).outcome board = .error e) : value = .error e := by
  cases value with
  | error e' =>
    obtain rfl := Except.error.inj h
    rfl
  | ok v => cases h

/-- An operation that only changes the board leaves no result. -/
theorem change_eq_ok (h : (change action).outcome board = .ok (result, next)) :
    result = none ∧ action.outcome board = .ok next := by
  unfold Action.outcome change at h
  unfold Board.Action.outcome
  cases haction : action board with
  | error e after =>
    rw [haction] at h
    cases h
  | ok _ after =>
    rw [haction] at h
    obtain ⟨rfl, rfl⟩ := Prod.mk.inj (Except.ok.inj h)
    exact ⟨rfl, rfl⟩

theorem change_eq_error (h : (change action).outcome board = .error e) :
    ∃ cause, e = .board cause ∧ action.outcome board = .error cause := by
  unfold Action.outcome change at h
  unfold Board.Action.outcome
  cases haction : action board with
  | error cause after =>
    rw [haction] at h
    exact ⟨cause, (Except.error.inj h).symm, rfl⟩
  | ok _ after =>
    rw [haction] at h
    cases h

/-- An argument is read before anything is done. -/
theorem outcome_bind {α : Type} (first : Except PrimitiveError α) (rest : α → Action)
    (board : Board) :
    Action.outcome (liftExcept first >>= rest) board =
      first.bind fun a => (rest a).outcome board := by
  cases first <;> rfl

theorem exists_of_lift_eq_ok {α : Type} {first : Except PrimitiveError α} {rest : α → Action}
    (h : Action.outcome (liftExcept first >>= rest) board = .ok (result, next)) :
    ∃ a, first = .ok a ∧ (rest a).outcome board = .ok (result, next) := by
  rw [outcome_bind] at h
  exact exists_of_bind_eq_ok h

theorem exists_of_lift_eq_error {α : Type} {first : Except PrimitiveError α} {rest : α → Action}
    (h : Action.outcome (liftExcept first >>= rest) board = .error e) :
    first = .error e ∨ ∃ a, first = .ok a ∧ (rest a).outcome board = .error e := by
  rw [outcome_bind] at h
  cases first with
  | error e' =>
    obtain rfl := Except.error.inj h
    exact .inl rfl
  | ok a => exact .inr ⟨a, rfl, h⟩

/-! ## Operations that fail -/

theorem careful_answer (value : Except PrimitiveError Value) : Board.Careful (answer value) := by
  intro board e next h
  cases value with
  | error e' => exact (EStateM.Result.error.inj h).2.symm
  | ok v => cases h

theorem careful_change (h : Board.Careful action) : Board.Careful (change action) := by
  intro board e next hfails
  unfold change at hfails
  split at hfails
  · cases hfails
  · next cause after haction =>
    obtain ⟨-, rfl⟩ := EStateM.Result.error.inj hfails
    exact h board cause after haction

theorem careful_bind {α : Type} (first : Except PrimitiveError α) {rest : α → Action}
    (h : ∀ a, Board.Careful (rest a)) :
    Board.Careful (liftExcept first >>= rest : Action) := by
  intro board e next hfails
  cases first with
  | error e' => exact (EStateM.Result.error.inj hfails).2.symm
  | ok a => exact h a board e next hfails

/-- An operation that fails leaves the board as it was. -/
theorem careful_perform (op : Operation) (args : List Value) : Board.Careful (op.perform args) := by
  cases op with
  | putStone | goToBoundary =>
    exact careful_bind _ fun _ => careful_change (Board.careful_modify _)
  | takeStone => exact careful_bind _ fun color => careful_change (Board.careful_take color 1)
  | move =>
    exact careful_bind _ fun direction => careful_change (Board.careful_moveHead direction 1)
  | goToOrigin | clearBoard => exact careful_change (Board.careful_modify _)
  | numStones | existStones | canMove => exact careful_bind _ fun _ => nofun
  | constant | next | prev | opposite | negate | relation | not | and | or | add | sub | mul
  | power | div | mod => exact careful_answer _

/-- What an operation does, told from its outcome. -/
theorem perform_eq (op : Operation) (args : List Value) (board : Board) :
    op.perform args board =
      match op.apply board args with
      | .ok (result, next) => .ok result next
      | .error e => .error e board := by
  unfold apply Action.outcome
  cases hperform : op.perform args board with
  | ok result next => rfl
  | error e next =>
    obtain rfl := careful_perform op args board e next hperform
    rfl

/-! ## Operations that succeed -/

/-- A successful operation does to the board what a request does that is recorded, and it
leaves a result exactly if it is a function. -/
theorem apply_eq_ok (h : op.apply board args = .ok (result, next)) :
    (∃ request : Board.Request, request.IsRecorded ∧ next = board.after request) ∧
      (result.isSome ↔ op.kind = .function) := by
  have hsame : ∃ request : Board.Request, request.IsRecorded ∧ board = board.after request :=
    ⟨.query .totalStones, trivial, rfl⟩
  have hanswer {value : Except PrimitiveError Value} (hop : op.kind = .function)
      (h : (answer value).outcome board = .ok (result, next)) :
      (∃ request : Board.Request, request.IsRecorded ∧ next = board.after request) ∧
        (result.isSome ↔ op.kind = .function) := by
    obtain ⟨rfl, v, -, rfl⟩ := answer_eq_ok h
    exact ⟨hsame, by simp [hop]⟩
  have hchange {action : Board.Action Unit} (request : Board.Request) (hop : op.kind = .procedure)
      (hrecorded : request.IsRecorded) (hrequest : Board.perform request = action.done)
      (h : (change action).outcome board = .ok (result, next)) :
      (∃ request : Board.Request, request.IsRecorded ∧ next = board.after request) ∧
        (result.isSome ↔ op.kind = .function) := by
    obtain ⟨rfl, hnext⟩ := change_eq_ok h
    exact ⟨⟨request, hrecorded, (Board.after_of_outcome hnext hrequest).symm⟩, by simp [hop]⟩
  cases op with
  | putStone =>
    obtain ⟨color, -, h⟩ := exists_of_lift_eq_ok h
    exact hchange (.put color 1) rfl trivial rfl h
  | takeStone =>
    obtain ⟨color, -, h⟩ := exists_of_lift_eq_ok h
    exact hchange (.take color 1) rfl trivial rfl h
  | move =>
    obtain ⟨direction, -, h⟩ := exists_of_lift_eq_ok h
    exact hchange (.move direction 1) rfl trivial rfl h
  | goToBoundary =>
    obtain ⟨direction, -, h⟩ := exists_of_lift_eq_ok h
    exact hchange (.goToBoundary direction) rfl trivial rfl h
  | goToOrigin => exact hchange (.goToOrigin) rfl trivial rfl h
  | clearBoard => exact hchange (.clear) rfl trivial rfl h
  | numStones | existStones | canMove =>
    obtain ⟨_, -, h⟩ := exists_of_lift_eq_ok h
    obtain ⟨rfl, rfl⟩ := Prod.mk.inj (Except.ok.inj h)
    exact ⟨hsame, by simp [kind]⟩
  | constant | next | prev | opposite | negate | relation | not | and | or | add | sub | mul
  | power | div | mod => exact hanswer rfl h

/-! ## Reasons for failures -/

/-- The failures that depend on the values of the arguments and on the board. -/
def IsValueFault (e : PrimitiveError) : Prop :=
  e.kind = .typeMismatch ∨ e.kind = .selfDestruction ∨ e.kind = .divisionByZero ∨
    e.kind = .negativeExponent

theorem isValueFault_arithmetic (e : ArithmeticError) : IsValueFault (.arithmetic e) := by
  cases e <;> simp [IsValueFault, PrimitiveError.kind]

theorem isValueFault_computed {f : Int64 → Int64 → Except ArithmeticError Int64}
    {args : List Value} {e : PrimitiveError} (hargs : args.length = 2)
    (h : computed f args = .error e) : IsValueFault e := by
  obtain ⟨a, b, rfl⟩ := List.length_eq_two.1 hargs
  simp only [computed, pairArgument, bind, Except.bind] at h
  split at h
  · split at h
    · simp at h
    · obtain rfl := Except.error.inj h
      exact isValueFault_arithmetic _
  · obtain rfl := Except.error.inj h
    exact .inl rfl

theorem isValueFault_connected {f : Bool → Bool → Bool} {args : List Value}
    {e : PrimitiveError} (hargs : args.length = 2) (h : connected f args = .error e) :
    IsValueFault e := by
  obtain ⟨a, b, rfl⟩ := List.length_eq_two.1 hargs
  simp only [connected, pairArgument, bind, Except.bind] at h
  split at h
  · simp at h
  · obtain rfl := Except.error.inj h
    exact .inl rfl

theorem isValueFault_related {r : Relation} {args : List Value} {e : PrimitiveError}
    (hargs : args.length = 2) (h : related r args = .error e) : IsValueFault e := by
  obtain ⟨a, b, rfl⟩ := List.length_eq_two.1 hargs
  simp only [related, pairArgument, bind, Except.bind] at h
  split at h
  · simp at h
  · obtain rfl := Except.error.inj h
    exact .inl rfl

/-- An operation that gets as many arguments as it takes fails only because of their values or
because of the board. -/
theorem isValueFault_of_apply (hargs : args.length = op.arity)
    (h : op.apply board args = .error e) : IsValueFault e := by
  have hcolor {name : String} (h : colorArgument name args = .error e) : IsValueFault e := by
    unfold colorArgument at h
    split at h
    · simp at h
    · obtain rfl := Except.error.inj h
      exact .inl rfl
  have hdirection {name : String} (h : directionArgument name args = .error e) :
      IsValueFault e := by
    unfold directionArgument at h
    split at h
    · simp at h
    · obtain rfl := Except.error.inj h
      exact .inl rfl
  have hchange {action : Board.Action Unit} (h : (change action).outcome board = .error e) :
      IsValueFault e := by
    obtain ⟨cause, rfl, -⟩ := change_eq_error h
    exact .inr (.inl rfl)
  cases op with
  | putStone | takeStone =>
    rcases exists_of_lift_eq_error h with h | ⟨_, -, h⟩
    · exact hcolor h
    · exact hchange h
  | numStones | existStones =>
    rcases exists_of_lift_eq_error h with h | ⟨_, -, h⟩
    · exact hcolor h
    · cases h
  | move | goToBoundary =>
    rcases exists_of_lift_eq_error h with h | ⟨_, -, h⟩
    · exact hdirection h
    · exact hchange h
  | canMove =>
    rcases exists_of_lift_eq_error h with h | ⟨_, -, h⟩
    · exact hdirection h
    · cases h
  | goToOrigin | clearBoard => cases h
  | constant => cases answer_eq_error h
  | next =>
    have h := answer_eq_error h
    unfold nextOf at h
    split at h <;> first | exact .inl (by rw [← Except.error.inj h]; rfl) | simp at h
  | prev =>
    have h := answer_eq_error h
    unfold prevOf at h
    split at h <;> first | exact .inl (by rw [← Except.error.inj h]; rfl) | simp at h
  | opposite =>
    have h := answer_eq_error h
    unfold oppositeOf at h
    split at h <;> first | exact .inl (by rw [← Except.error.inj h]; rfl) | simp at h
  | negate =>
    have h := answer_eq_error h
    unfold negativeOf at h
    split at h <;> first | exact .inl (by rw [← Except.error.inj h]; rfl) | simp at h
  | not =>
    have h := answer_eq_error h
    unfold notOf at h
    split at h <;> first | exact .inl (by rw [← Except.error.inj h]; rfl) | simp at h
  | relation => exact isValueFault_related hargs (answer_eq_error h)
  | and | or => exact isValueFault_connected hargs (answer_eq_error h)
  | add | sub | mul | power | div | mod => exact isValueFault_computed hargs (answer_eq_error h)

end Operation
end Gobstones
