import Mathlib.Data.List.Forall2
import Gobstones.Proofs.Board.Operations
import Gobstones.Proofs.Native.Snapshot
/-!
# Builtins as native code

This module compares the code of builtins with the operations that they stand for.  The
code takes the words of the arguments off the stack and does to the board and to the
stack what the operation does, and where the operation fails, the code branches to the
stub of its message.

Main definitions:

- {lit}`Realizes`: code does what an operation does.
- {lit}`Scalars`: the scalars of a type, and the words in which they stand.
- {lit}`BuiltinCode`: the code of a builtin, up to its labels.
- {lit}`Builtin.Admits`: arguments have the type that a typed builtin is named for.

Main results:

- Theorem {lit}`realizes_of_standard`: the code of every builtin does what its operation
  does.
-/

namespace Gobstones

/-- Arguments have the type that a typed builtin is named for. -/
def Builtin.Admits (builtin : Builtin) (args : List Value) : Prop :=
  ∀ type, (Polyname.type? builtin.name).bind ValueType.ofName? = some type →
    ∀ value ∈ args, value.type = type

instance (builtin : Builtin) (args : List Value) : Decidable (builtin.Admits args) :=
  inferInstanceAs (Decidable (∀ type, _ = some type → ∀ value ∈ args, value.type = type))

/-- The builtins of the standard table are called as what their operations are. -/
theorem Builtin.kind_of_standard :
    ∀ builtin ∈ BuiltinTable.standard.entries, builtin.kind = builtin.operation.kind := by
  decide

namespace Native

/-- Words hold scalars, one each. -/
abbrev InWords : List Value → List Word → Prop :=
  List.Forall₂ Value.InWord

/-- Code does what an operation does with admitted arguments.  An operation that fails for
another reason than the types of its arguments makes the code branch to the stub of its
message. -/
structure Realizes (stubs : List (String × Label)) (instrs : List Instr) (op : Operation)
    (admitted : List Value → Prop) : Prop where
  ok : ∀ {board next : Board} {args : List Value} {words : List Word} {result : Option Value},
    board.WellFormed → board.nativeLength < 2 ^ 63 → args.length = op.arity →
    admitted args → InWords args words → op.apply board args = .ok (result, next) →
    ∃ pushed, InWords result.toList pushed ∧
      ∀ (code : NativeCode) (v : View) (n : Nat) (rest : List Word), code.Linked →
        code.At n instrs → v.Carries board → v.live = words.reverse ++ rest →
          code.Leads v n fun v' n' =>
            n' = n + instrs.length ∧ v.Keeps v' ∧ v'.Carries next ∧ v'.live = pushed ++ rest
  error : ∀ {board : Board} {args : List Value} {words : List Word} {e : PrimitiveError},
    board.WellFormed → board.nativeLength < 2 ^ 63 → args.length = op.arity →
    admitted args → InWords args words → op.apply board args = .error e →
    e.kind ≠ .typeMismatch →
    ∃ label, (e.message, label) ∈ stubs ∧ Breaks instrs board words.reverse label

variable {stubs : List (String × Label)} {instrs : List Instr} {op : Operation}
variable {admitted : List Value → Prop}

/-! ## Operations that compute -/

section Computing

variable {f : List Value → Except PrimitiveError Value}
variable (hop : ∀ args, op.perform args = Operation.answer (f args))
include hop

/-- An operation that computes a result from its arguments. -/
theorem realizes_of_computes
    (hok : ∀ args words value, args.length = op.arity → admitted args →
      InWords args words → f args = .ok value →
        ∃ w, value.InWord w ∧ Computes instrs words.reverse w)
    (herror : ∀ args words e, args.length = op.arity → admitted args →
      InWords args words → f args = .error e → e.kind ≠ .typeMismatch →
        ∃ label, (e.message, label) ∈ stubs ∧ Fails instrs words.reverse label) :
    Realizes stubs instrs op admitted where
  ok {board next args words result} _ _ hlength hadmitted hwords happly := by
    rw [Operation.apply, hop] at happly
    obtain ⟨rfl, value, hvalue, rfl⟩ := Operation.answer_eq_ok happly
    obtain ⟨w, hw, hcomputes⟩ := hok args words value hlength hadmitted hwords hvalue
    refine ⟨[w], .cons hw .nil, fun code v n rest hlinked hat hv hlive => ?_⟩
    refine (hcomputes code v n rest hlinked hat hlive).mono ?_
    rintro v' _ ⟨rfl, hagrees, hlive'⟩
    exact ⟨rfl, hagrees.toKeeps, hagrees.carries hv, hlive'⟩
  error {board args words e} _ _ hlength hadmitted hwords happly hkind := by
    rw [Operation.apply, hop] at happly
    obtain ⟨label, hmem, hfails⟩ :=
      herror args words e hlength hadmitted hwords (Operation.answer_eq_error happly) hkind
    exact ⟨label, hmem, fun code v n rest hlinked hat _ hlive =>
      hfails code v n rest hlinked hat hlive⟩

/-- An operation that computes a result from one argument and fails only because of its
type. -/
theorem realizes_unary (hparams : op.arity = 1)
    (hok : ∀ a w value, admitted [a] → a.InWord w → f [a] = .ok value →
      ∃ w', value.InWord w' ∧ Computes instrs [w] w')
    (herror : ∀ a e, f [a] = .error e → e.kind = .typeMismatch) :
    Realizes stubs instrs op admitted := by
  apply realizes_of_computes hop
  · intro args words value hlength hadmitted hwords hvalue
    rw [hparams] at hlength
    obtain ⟨a, rfl⟩ := List.length_eq_one_iff.1 hlength
    rcases hwords with _ | ⟨hw, _ | _⟩
    exact hok a _ value hadmitted hw hvalue
  · intro args words e hlength _ _ he hkind
    rw [hparams] at hlength
    obtain ⟨a, rfl⟩ := List.length_eq_one_iff.1 hlength
    exact (hkind (herror a e he)).elim

/-- An operation that computes a result from two arguments. -/
theorem realizes_binary (hparams : op.arity = 2)
    (hok : ∀ a b m n value, a.InWord (.int m) → b.InWord (.int n) → f [a, b] = .ok value →
      ∃ w, value.InWord w ∧ Computes instrs [.int n, .int m] w)
    (herror : ∀ a b m n e, a.InWord (.int m) → b.InWord (.int n) → f [a, b] = .error e →
      e.kind ≠ .typeMismatch →
        ∃ label, (e.message, label) ∈ stubs ∧ Fails instrs [.int n, .int m] label) :
    Realizes stubs instrs op admitted := by
  apply realizes_of_computes hop
  · intro args words value hlength _ hwords hvalue
    rw [hparams] at hlength
    obtain ⟨a, b, rfl⟩ := List.length_eq_two.1 hlength
    rcases hwords with _ | ⟨ha, _ | ⟨hb, _ | _⟩⟩
    obtain ⟨m, hm, rfl⟩ := ha
    obtain ⟨n, hn, rfl⟩ := hb
    exact hok a b m n value ⟨m, hm, rfl⟩ ⟨n, hn, rfl⟩ hvalue
  · intro args words e hlength _ hwords he hkind
    rw [hparams] at hlength
    obtain ⟨a, b, rfl⟩ := List.length_eq_two.1 hlength
    rcases hwords with _ | ⟨ha, _ | ⟨hb, _ | _⟩⟩
    obtain ⟨m, hm, rfl⟩ := ha
    obtain ⟨n, hn, rfl⟩ := hb
    exact herror a b m n e ⟨m, hm, rfl⟩ ⟨n, hn, rfl⟩ he hkind

end Computing

/-- A constant. -/
theorem realizes_constant {value : Value} {imm : Int32} (h : value.InWord (.int imm.toInt64)) :
    Realizes stubs [.pushImm imm] (.constant value) admitted := by
  apply realizes_of_computes (f := fun _ => .ok value) (fun _ => rfl)
  · intro args words value' hlength _ hwords hvalue
    obtain rfl := List.eq_nil_of_length_eq_zero hlength
    rcases hwords with _ | _
    obtain rfl := Except.ok.inj hvalue
    exact ⟨_, h, computes_pushImm imm⟩
  · intro args words e _ _ _ he
    simp at he

/-- The condition that tests for a relation. -/
def condition : Relation → Condition
  | .eq => .e
  | .ne => .ne
  | .lt => .l
  | .le => .le
  | .ge => .ge
  | .gt => .g

/-- The flags of a difference tell how two integers compare. -/
theorem holds_condition (r : Relation) (m n : Int64) :
    (Flags.ofDifference m n).holds (condition r) = r.holds (Ord.compare m n) := by
  have hcompare : Ord.compare m n = if m < n then .lt else if m = n then .eq else .gt := rfl
  by_cases hlt : m < n
  · have hne : m ≠ n := Int64.ne_of_lt hlt
    cases r <;>
      simp [hcompare, hlt, hne, condition, Flags.holds, Flags.ofDifference, Relation.holds]
  · by_cases heq : m = n
    · cases r <;> simp [heq, condition, Flags.holds, Flags.ofDifference, Relation.holds]
    · cases r <;>
        simp [hcompare, hlt, heq, condition, Flags.holds, Flags.ofDifference, Relation.holds]

/-- A relation between two values of one type. -/
theorem realizes_relation (r : Relation) :
    Realizes stubs (compareCode (condition r)) (.relation r) admitted := by
  apply realizes_binary (f := Operation.related r) (fun _ => rfl) rfl
  · intro a b m n value ha hb hvalue
    cases horder : a.compare b with
    | none => simp [Operation.related, Operation.pairArgument, bind, Except.bind, horder] at hvalue
    | some order =>
      obtain rfl := Value.compare_of_inWord ha hb horder
      simp only [Operation.related, Operation.pairArgument, bind, Except.bind, horder] at hvalue
      obtain rfl := Except.ok.inj hvalue
      refine ⟨_, (Value.bool_inWord _ _).2 rfl, ?_⟩
      rw [← holds_condition]
      exact computes_compareCode (condition r) m n
  · intro a b m n e _ _ he hkind
    cases horder : a.compare b with
    | none =>
      simp only [Operation.related, Operation.pairArgument, bind, Except.bind, horder] at he
      obtain rfl := Except.error.inj he
      exact (hkind rfl).elim
    | some order =>
      simp [Operation.related, Operation.pairArgument, bind, Except.bind, horder] at he

/-- A connective of two booleans. -/
theorem realizes_connective {instr : Instr} {f : Bool → Bool → Bool} {g : Int64 → Int64 → Int64}
    (hop : ∀ args, op.perform args = Operation.answer (Operation.connected f args))
    (hparams : op.arity = 2)
    (hcode : ∀ m n, Computes (binaryCode instr) [.int n, .int m] (.int (g m n)))
    (hg : ∀ a b, g (if a = true then 1 else 0) (if b = true then 1 else 0) =
      if f a b = true then 1 else 0) :
    Realizes stubs (binaryCode instr) op admitted := by
  apply realizes_binary hop hparams
  · intro a b m n value ha hb hvalue
    cases a with
    | bool a =>
      cases b with
      | bool b =>
        obtain rfl := Word.int.inj ((Value.bool_inWord _ _).1 ha)
        obtain rfl := Word.int.inj ((Value.bool_inWord _ _).1 hb)
        obtain rfl := Except.ok.inj hvalue
        refine ⟨_, (Value.bool_inWord _ _).2 rfl, ?_⟩
        rw [← hg]
        exact hcode _ _
      | _ => simp [Operation.connected, Operation.pairArgument, bind, Except.bind] at hvalue
    | _ => simp [Operation.connected, Operation.pairArgument, bind, Except.bind] at hvalue
  · intro a b m n e _ _ he hkind
    cases a with
    | bool a =>
      cases b with
      | bool b => simp [Operation.connected, Operation.pairArgument, bind, Except.bind] at he
      | _ =>
        obtain rfl := Except.error.inj he
        exact (hkind rfl).elim
    | _ =>
      obtain rfl := Except.error.inj he
      exact (hkind rfl).elim

/-- An operation on two integers. -/
theorem realizes_arithmetic {f : Int64 → Int64 → Except ArithmeticError Int64}
    (hop : ∀ args, op.perform args = Operation.answer (Operation.computed f args))
    (hparams : op.arity = 2)
    (hok : ∀ m n k, f m n = .ok k → Computes instrs [.int n, .int m] (.int k))
    (herror : ∀ m n e, f m n = .error e →
      ∃ label, (e.message, label) ∈ stubs ∧ Fails instrs [.int n, .int m] label) :
    Realizes stubs instrs op admitted := by
  apply realizes_binary hop hparams
  · intro a b m n value ha hb hvalue
    cases a with
    | int a =>
      cases b with
      | int b =>
        obtain rfl := Word.int.inj ((Value.int_inWord _ _).1 ha)
        obtain rfl := Word.int.inj ((Value.int_inWord _ _).1 hb)
        simp only [Operation.computed, Operation.pairArgument, bind, Except.bind] at hvalue
        cases hk : f m n with
        | error e => simp [hk] at hvalue
        | ok k =>
          rw [hk] at hvalue
          obtain rfl := Except.ok.inj hvalue
          exact ⟨_, (Value.int_inWord _ _).2 rfl, hok m n k hk⟩
      | _ => simp [Operation.computed, Operation.pairArgument, bind, Except.bind] at hvalue
    | _ => simp [Operation.computed, Operation.pairArgument, bind, Except.bind] at hvalue
  · intro a b m n e ha hb he hkind
    cases a with
    | int a =>
      cases b with
      | int b =>
        obtain rfl := Word.int.inj ((Value.int_inWord _ _).1 ha)
        obtain rfl := Word.int.inj ((Value.int_inWord _ _).1 hb)
        simp only [Operation.computed, Operation.pairArgument, bind, Except.bind] at he
        cases hk : f m n with
        | ok k => simp [hk] at he
        | error cause =>
          rw [hk] at he
          obtain rfl := Except.error.inj he
          exact herror m n cause hk
      | _ =>
        obtain rfl := Except.error.inj he
        exact (hkind rfl).elim
    | _ =>
      obtain rfl := Except.error.inj he
      exact (hkind rfl).elim

/-! ## Operations on one scalar -/

/-- The scalars of a type, and the words in which they stand. -/
structure Scalars {T : Type} (wrap : T → Value) (word : T → Word) (type : ValueType) : Prop where
  exists_of_type : ∀ a : Value, a.type = type → ∃ t, a = wrap t
  inWord : ∀ t w, (wrap t).InWord w ↔ w = word t

theorem scalars_int : Scalars Value.int Word.int .int where
  exists_of_type a h := by
    cases a with
    | int n => exact ⟨n, rfl⟩
    | _ => cases h
  inWord := Value.int_inWord

theorem scalars_bool : Scalars Value.bool (fun b => .int (if b = true then 1 else 0)) .bool where
  exists_of_type a h := by
    cases a with
    | bool b => exact ⟨b, rfl⟩
    | _ => cases h
  inWord := Value.bool_inWord

theorem scalars_color : Scalars Value.color (fun c => .nat c.index) .color where
  exists_of_type a h := by
    cases a with
    | color c => exact ⟨c, rfl⟩
    | _ => cases h
  inWord := Value.color_inWord

theorem scalars_dir : Scalars Value.dir (fun d => .nat d.index) .dir where
  exists_of_type a h := by
    cases a with
    | dir d => exact ⟨d, rfl⟩
    | _ => cases h
  inWord := Value.dir_inWord

/-- An operation on the scalars of one type. -/
theorem realizes_scalar {T : Type} {wrap : T → Value} {word : T → Word} {type : ValueType}
    (hscalars : Scalars wrap word type) {f : List Value → Except PrimitiveError Value}
    (hop : ∀ args, op.perform args = Operation.answer (f args))
    (hparams : op.arity = 1) (herror : ∀ a e, f [a] = .error e → e.kind = .typeMismatch)
    (htype : ∀ a value, admitted [a] → f [a] = .ok value → a.type = type) {g : T → T}
    (hf : ∀ t, f [wrap t] = .ok (wrap (g t)))
    (hcode : ∀ t, Computes instrs [word t] (word (g t))) : Realizes stubs instrs op admitted := by
  apply realizes_unary hop hparams _ herror
  intro a w value ha hw hvalue
  obtain ⟨t, rfl⟩ := hscalars.exists_of_type a (htype a value ha hvalue)
  obtain rfl := (hscalars.inWord t w).1 hw
  obtain rfl := Except.ok.inj ((hf t).symm.trans hvalue)
  exact ⟨_, (hscalars.inWord _ _).2 rfl, hcode t⟩

/-- The operations on one scalar fail only because of its type. -/
theorem kind_of_scalar_error {f : List Value → Except PrimitiveError Value}
    (hf : f = Operation.nextOf ∨ f = Operation.prevOf ∨ f = Operation.oppositeOf ∨
      f = Operation.negativeOf ∨ f = Operation.notOf) (a : Value) (e : PrimitiveError)
    (h : f [a] = .error e) : e.kind = .typeMismatch := by
  rcases hf with rfl | rfl | rfl | rfl | rfl
  all_goals
    cases a
    all_goals first
      | cases h; done
      | exact (congrArg PrimitiveError.kind (Except.error.inj h)).symm

/-! ## Operations on the board -/

/-- Code does with the word of an argument what has the given outcome: it changes the board,
or it leaves the board and pushes a result. -/
def Performs (instrs : List Instr) (board : Board) (args : List Word) (result : Option Value)
    (next : Board) : Prop :=
  (result = none ∧ Changes instrs board args next) ∨
    ∃ value w, result = some value ∧ next = board ∧ value.InWord w ∧ Answers instrs board args w

theorem Performs.exists_pushed {board next : Board} {args : List Word} {result : Option Value}
    (h : Performs instrs board args result next) :
    ∃ pushed, InWords result.toList pushed ∧
      ∀ (code : NativeCode) (v : View) (n : Nat) (rest : List Word), code.Linked →
        code.At n instrs → v.Carries board → v.live = args ++ rest →
          code.Leads v n fun v' n' =>
            n' = n + instrs.length ∧ v.Keeps v' ∧ v'.Carries next ∧ v'.live = pushed ++ rest := by
  rcases h with ⟨rfl, hchanges⟩ | ⟨value, w, rfl, rfl, hw, hanswers⟩
  · exact ⟨[], .nil, hchanges⟩
  · refine ⟨[w], .cons hw .nil, fun code v n rest hlinked hat hv hlive => ?_⟩
    refine (hanswers code v n rest hlinked hat hv hlive).mono ?_
    rintro v' _ ⟨rfl, hagrees, hlive'⟩
    exact ⟨rfl, hagrees.toKeeps, hagrees.carries hv, hlive'⟩

/-- An operation on the board with one argument, a scalar of one type. -/
theorem realizes_of_argument {T : Type} {wrap : T → Value} {word : T → Word} {type : ValueType}
    (hscalars : Scalars wrap word type) {argument : List Value → Except PrimitiveError T}
    (hargument : ∀ a, (∃ t, a = wrap t ∧ argument [a] = .ok t) ∨
      ∃ e, argument [a] = .error e ∧ e.kind = .typeMismatch)
    {rest : T → Operation.Action}
    (hop : ∀ args, op.perform args = liftExcept (argument args) >>= rest)
    (hparams : op.arity = 1)
    (hok : ∀ board t result next, board.WellFormed → board.nativeLength < 2 ^ 63 →
      (rest t).outcome board = .ok (result, next) → Performs instrs board [word t] result next)
    (herror : ∀ board t e, board.WellFormed → board.nativeLength < 2 ^ 63 →
      (rest t).outcome board = .error e →
        ∃ label, (e.message, label) ∈ stubs ∧ Breaks instrs board [word t] label) :
    Realizes stubs instrs op admitted where
  ok {board next args words result} hboard hfits hlength _ hwords happly := by
    obtain ⟨a, rfl⟩ := List.length_eq_one_iff.1 (hlength.trans hparams)
    rcases hwords with _ | ⟨hw, _ | _⟩
    rw [Operation.apply, hop, Operation.outcome_bind] at happly
    rcases hargument a with ⟨t, rfl, ht⟩ | ⟨e, he, -⟩
    · obtain rfl := (hscalars.inWord t _).1 hw
      rw [ht] at happly
      exact (hok board t result next hboard hfits happly).exists_pushed
    · rw [he] at happly
      cases happly
  error {board args words e} hboard hfits hlength _ hwords happly hkind := by
    obtain ⟨a, rfl⟩ := List.length_eq_one_iff.1 (hlength.trans hparams)
    rcases hwords with _ | ⟨hw, _ | _⟩
    rw [Operation.apply, hop, Operation.outcome_bind] at happly
    rcases hargument a with ⟨t, rfl, ht⟩ | ⟨cause, hcause, hmismatch⟩
    · obtain rfl := (hscalars.inWord t _).1 hw
      rw [ht] at happly
      exact herror board t e hboard hfits happly
    · rw [hcause] at happly
      obtain rfl := Except.error.inj happly
      exact (hkind hmismatch).elim

/-- The argument of an operation on a color. -/
theorem colorArgument_cases (name : String) (a : Value) :
    (∃ c, a = .color c ∧ Operation.colorArgument name [a] = .ok c) ∨
      ∃ e, Operation.colorArgument name [a] = .error e ∧ e.kind = .typeMismatch := by
  cases a with
  | color c => exact .inl ⟨c, rfl, rfl⟩
  | _ => exact .inr ⟨_, rfl, rfl⟩

/-- The argument of an operation on a direction. -/
theorem directionArgument_cases (name : String) (a : Value) :
    (∃ d, a = .dir d ∧ Operation.directionArgument name [a] = .ok d) ∨
      ∃ e, Operation.directionArgument name [a] = .error e ∧ e.kind = .typeMismatch := by
  cases a with
  | dir d => exact .inl ⟨d, rfl, rfl⟩
  | _ => exact .inr ⟨_, rfl, rfl⟩

/-- An operation without arguments that changes the board. -/
theorem realizes_of_changes {after : Board → Board}
    (hop : ∀ args, op.perform args = Operation.change (modify after))
    (hparams : op.arity = 0)
    (hok : ∀ board : Board, board.WellFormed → board.nativeLength < 2 ^ 63 →
      Changes instrs board [] (after board)) : Realizes stubs instrs op admitted where
  ok {board next args words result} hboard hfits hlength _ hwords happly := by
    obtain rfl := List.eq_nil_of_length_eq_zero (hlength.trans hparams)
    rcases hwords with _ | _
    rw [Operation.apply, hop] at happly
    obtain ⟨rfl, hnext⟩ := Operation.change_eq_ok happly
    obtain rfl := Except.ok.inj hnext
    exact ⟨[], .nil, hok board hboard hfits⟩
  error _ _ _ _ _ happly _ := by
    rw [Operation.apply, hop] at happly
    obtain ⟨_, -, hfails⟩ := Operation.change_eq_error happly
    cases hfails

theorem realizes_putStone : Realizes stubs putStoneCode .putStone admitted := by
  apply realizes_of_argument scalars_color (colorArgument_cases _) (fun _ => rfl) rfl
  · intro board color result next hboard hfits happly
    obtain ⟨rfl, rfl⟩ := Prod.mk.inj (Except.ok.inj happly)
    exact .inl ⟨rfl, changes_putStone color hboard hfits⟩
  · intro board color e _ _ happly
    cases happly

theorem realizes_takeStone {enough : Label} {labels : SwitchLabels}
    {fault0 fault1 fault2 fault3 : Label}
    (hfault : ∀ color : Color, ∃ label,
      [fault0, fault1, fault2, fault3][color.index]? = some label ∧
        ((BoardError.cannotTake color 1 0).message, label) ∈ stubs) :
    Realizes stubs (takeStoneCode enough labels fault0 fault1 fault2 fault3) .takeStone
      admitted := by
  apply realizes_of_argument scalars_color (colorArgument_cases _) (fun _ => rfl) rfl
  · intro board color result next hboard hfits happly
    obtain ⟨rfl, hnext⟩ := Operation.change_eq_ok happly
    exact .inl ⟨rfl, changes_takeStone color hboard hfits hnext⟩
  · intro board color e hboard hfits happly
    obtain ⟨label, hlabel, hmem⟩ := hfault color
    obtain ⟨cause, rfl, htake⟩ := Operation.change_eq_error happly
    change board.take color 1 = _ at htake
    rw [Board.take_eq] at htake
    split at htake
    · next hnone =>
      obtain rfl := Except.error.inj htake
      have hzero : board.numStones color = 0 := by
        apply UInt32.toNat_inj.1
        rw [UInt32.lt_iff_toNat_lt, UInt32.toNat_one] at hnone
        rw [UInt32.toNat_zero]
        omega
      rw [hzero]
      exact ⟨label, hmem, breaks_takeStone color hboard hfits hnone hlabel⟩
    · cases htake

theorem realizes_numStones : Realizes stubs numStonesCode .numStones admitted := by
  apply realizes_of_argument scalars_color (colorArgument_cases _) (fun _ => rfl) rfl
  · intro board color result next hboard hfits happly
    obtain ⟨rfl, rfl⟩ := Prod.mk.inj (Except.ok.inj happly)
    exact .inr ⟨_, _, rfl, rfl, (Value.int_inWord _ _).2 rfl, answers_numStones color hboard hfits⟩
  · intro board color e _ _ happly
    cases happly

theorem realizes_existStones : Realizes stubs existStonesCode .existStones admitted := by
  apply realizes_of_argument scalars_color (colorArgument_cases _) (fun _ => rfl) rfl
  · intro board color result next hboard hfits happly
    obtain ⟨rfl, rfl⟩ := Prod.mk.inj (Except.ok.inj happly)
    exact .inr ⟨_, _, rfl, rfl, (Value.bool_inWord _ _).2 rfl,
      answers_existStones color hboard hfits⟩
  · intro board color e _ _ happly
    cases happly

theorem realizes_move {labels : SwitchLabels} {fault0 fault1 fault2 fault3 : Label}
    (hfault : ∀ direction : Direction, ∃ label,
      [fault0, fault1, fault2, fault3][direction.index]? = some label ∧
        ((BoardError.cannotMove direction).message, label) ∈ stubs) :
    Realizes stubs (moveCode labels fault0 fault1 fault2 fault3) .move admitted := by
  apply realizes_of_argument scalars_dir (directionArgument_cases _) (fun _ => rfl) rfl
  · intro board direction result next hboard _ happly
    obtain ⟨rfl, hnext⟩ := Operation.change_eq_ok happly
    exact .inl ⟨rfl, changes_move hboard hnext⟩
  · intro board direction e hboard _ happly
    obtain ⟨label, hlabel, hmem⟩ := hfault direction
    obtain ⟨cause, rfl, hmove⟩ := Operation.change_eq_error happly
    change board.moveHead direction 1 = _ at hmove
    rw [Board.moveHead_eq] at hmove
    split at hmove
    · next hnone =>
      obtain rfl := Except.error.inj hmove
      exact ⟨label, hmem, breaks_move hboard hnone hlabel⟩
    · cases hmove

theorem realizes_goToBoundary {labels : SwitchLabels} :
    Realizes stubs (goToBoundaryCode labels) .goToBoundary admitted := by
  apply realizes_of_argument scalars_dir (directionArgument_cases _) (fun _ => rfl) rfl
  · intro board direction result next hboard _ happly
    obtain ⟨rfl, rfl⟩ := Prod.mk.inj (Except.ok.inj happly)
    exact .inl ⟨rfl, changes_goToBoundary hboard direction⟩
  · intro board direction e _ _ happly
    cases happly

theorem realizes_canMove {labels : SwitchLabels} :
    Realizes stubs (canMoveCode labels) .canMove admitted := by
  apply realizes_of_argument scalars_dir (directionArgument_cases _) (fun _ => rfl) rfl
  · intro board direction result next hboard _ happly
    obtain ⟨rfl, rfl⟩ := Prod.mk.inj (Except.ok.inj happly)
    exact .inr ⟨_, _, rfl, rfl, (Value.bool_inWord _ _).2 rfl, answers_canMove hboard direction⟩
  · intro board direction e _ _ happly
    cases happly

theorem realizes_goToOrigin : Realizes stubs goToOriginCode .goToOrigin admitted :=
  realizes_of_changes (fun _ => rfl) rfl fun _ _ _ => changes_goToOrigin

theorem realizes_clearBoard {top done : Label} :
    Realizes stubs (clearBoardCode top done) .clearBoard admitted :=
  realizes_of_changes (fun _ => rfl) rfl fun _ hboard hfits => changes_clearBoard hboard hfits

/-! ## All builtins -/

/-- The code of a builtin, up to its labels.  A stub is given with its message. -/
def BuiltinCode (stubs : List (String × Label)) (name : String) (instrs : List Instr) : Prop :=
  match name with
  | "TakeStone" =>
    ∃ enough labels fault0 fault1 fault2 fault3,
      (∀ color : Color, ∃ label, [fault0, fault1, fault2, fault3][color.index]? = some label ∧
        ((BoardError.cannotTake color 1 0).message, label) ∈ stubs) ∧
      instrs = takeStoneCode enough labels fault0 fault1 fault2 fault3
  | "Move" =>
    ∃ labels fault0 fault1 fault2 fault3,
      (∀ direction : Direction, ∃ label,
        [fault0, fault1, fault2, fault3][direction.index]? = some label ∧
          ((BoardError.cannotMove direction).message, label) ∈ stubs) ∧
      instrs = moveCode labels fault0 fault1 fault2 fault3
  | "GoToBoundary" => ∃ labels, instrs = goToBoundaryCode labels
  | "canMove" => ∃ labels, instrs = canMoveCode labels
  | "ClearBoard" => ∃ top done, instrs = clearBoardCode top done
  | "^" =>
    ∃ negative top skip done, (ArithmeticError.negativeExponent.message, negative) ∈ stubs ∧
      instrs = powerCode negative top skip done
  | "div" =>
    ∃ byZero normal exact done, (ArithmeticError.divisionByZero.message, byZero) ∈ stubs ∧
      instrs = divisionCode .quotient byZero normal exact done
  | "mod" =>
    ∃ byZero normal exact done, (ArithmeticError.divisionByZero.message, byZero) ∈ stubs ∧
      instrs = divisionCode .remainder byZero normal exact done
  | _ => plainCode? name = some instrs

theorem realizes_power {negative top skip done : Label}
    (hstub : (ArithmeticError.negativeExponent.message, negative) ∈ stubs) :
    Realizes stubs (powerCode negative top skip done) .power admitted := by
  apply realizes_arithmetic (f := Arithmetic.power) (fun _ => rfl) rfl
  · intro m n k hk
    by_cases hsign : n < 0
    · rw [Arithmetic.power_eq_error_iff.2 ⟨rfl, hsign⟩] at hk
      cases hk
    · rw [Arithmetic.power_eq hsign] at hk
      obtain rfl := Except.ok.inj hk
      exact computes_powerCode m n hsign
  · intro m n e he
    obtain ⟨rfl, hsign⟩ := Arithmetic.power_eq_error_iff.1 he
    exact ⟨negative, hstub, (rejects_powerCode m n hsign).fails⟩

/-- A division, whose result is the quotient or the remainder. -/
theorem realizes_division {result : DivisionResult} {byZero normal exact done : Label}
    (hop : ∀ args, op.perform args = Operation.answer (Operation.computed result.of args))
    (hparams : op.arity = 2)
    (hstub : (ArithmeticError.divisionByZero.message, byZero) ∈ stubs) :
    Realizes stubs (divisionCode result byZero normal exact done) op admitted := by
  apply realizes_arithmetic hop hparams
  · intro m n k hk
    by_cases hzero : n = 0
    · rw [result.of_eq_error_iff.2 ⟨rfl, hzero⟩] at hk
      cases hk
    · exact computes_divisionCode result hzero hk
  · intro m n e he
    obtain ⟨rfl, rfl⟩ := result.of_eq_error_iff.1 he
    exact ⟨byZero, hstub, (rejects_divisionCode result m).fails⟩

/-- Only booleans are negated. -/
theorem realizes_not :
    Realizes stubs (unaryCode [.aluImm .xor .rax 1]) .not admitted := by
  apply realizes_scalar scalars_bool (f := Operation.notOf) (fun _ => rfl) rfl
    (kind_of_scalar_error (by simp)) _ (fun _ => rfl) computes_xorOne
  intro a value _ hvalue
  cases a with
  | bool b => rfl
  | _ => cases hvalue

/-- A sum, a difference or a product. -/
theorem realizes_wrapping {instr : Instr} {g : Int64 → Int64 → Int64}
    (hop : ∀ args,
      op.perform args = Operation.answer (Operation.computed (fun m n => .ok (g m n)) args))
    (hparams : op.arity = 2)
    (hcode : ∀ m n, Computes (binaryCode instr) [.int n, .int m] (.int (g m n))) :
    Realizes stubs (binaryCode instr) op admitted := by
  apply realizes_arithmetic hop hparams
  · intro m n k hk
    rw [← Except.ok.inj hk]
    exact hcode m n
  · intro m n e he
    cases he

/-- A typed builtin. -/
theorem realizes_typed {builtin : Builtin} {T : Type} {wrap : T → Value} {word : T → Word}
    {type : ValueType} (hscalars : Scalars wrap word type)
    (htype : (Polyname.type? builtin.name).bind ValueType.ofName? = some type)
    {f : List Value → Except PrimitiveError Value}
    (hf : f = Operation.nextOf ∨ f = Operation.prevOf ∨ f = Operation.oppositeOf ∨
      f = Operation.negativeOf ∨ f = Operation.notOf)
    (hop : ∀ args, builtin.operation.perform args = Operation.answer (f args))
    (hparams : builtin.operation.arity = 1) {g : T → T}
    (hg : ∀ t, f [wrap t] = .ok (wrap (g t)))
    (hcode : ∀ t, Computes instrs [word t] (word (g t))) :
    Realizes stubs instrs builtin.operation builtin.Admits :=
  realizes_scalar hscalars hop hparams (kind_of_scalar_error hf)
    (fun a _ hadmits _ => hadmits type htype a List.mem_cons_self) hg hcode

/-- The code of every builtin under an untyped name does what its operation does. -/
theorem realizes_of_untyped {builtin : Builtin} (hmem : builtin ∈ Builtin.untyped)
    (hcode : BuiltinCode stubs builtin.name instrs) :
    Realizes stubs instrs builtin.operation admitted := by
  simp only [Builtin.untyped, List.mem_cons, List.not_mem_nil, or_false] at hmem
  rcases hmem with rfl | rfl | rfl | rfl | rfl | rfl | rfl | rfl | rfl | rfl | rfl | rfl | rfl |
    rfl | rfl | rfl | rfl | rfl | rfl | rfl | rfl | rfl | rfl | rfl | rfl | rfl | rfl | rfl | rfl |
    rfl | rfl | rfl | rfl | rfl
  · obtain rfl := Option.some.inj hcode
    exact realizes_putStone
  · obtain ⟨enough, labels, fault0, fault1, fault2, fault3, hfault, rfl⟩ := hcode
    exact realizes_takeStone hfault
  · obtain ⟨labels, fault0, fault1, fault2, fault3, hfault, rfl⟩ := hcode
    exact realizes_move hfault
  · obtain ⟨labels, rfl⟩ := hcode
    exact realizes_goToBoundary
  · obtain rfl := Option.some.inj hcode
    exact realizes_goToOrigin
  · obtain ⟨top, done, rfl⟩ := hcode
    exact realizes_clearBoard
  · obtain rfl := Option.some.inj hcode
    exact realizes_numStones
  · obtain rfl := Option.some.inj hcode
    exact realizes_existStones
  · obtain ⟨labels, rfl⟩ := hcode
    exact realizes_canMove
  · obtain rfl := Option.some.inj hcode
    exact realizes_constant ((Value.bool_inWord _ _).2 rfl)
  · obtain rfl := Option.some.inj hcode
    exact realizes_constant ((Value.bool_inWord _ _).2 rfl)
  · obtain rfl := Option.some.inj hcode
    exact realizes_constant ((Value.color_inWord _ _).2 rfl)
  · obtain rfl := Option.some.inj hcode
    exact realizes_constant ((Value.color_inWord _ _).2 rfl)
  · obtain rfl := Option.some.inj hcode
    exact realizes_constant ((Value.dir_inWord _ _).2 rfl)
  · obtain rfl := Option.some.inj hcode
    exact realizes_constant ((Value.dir_inWord _ _).2 rfl)
  -- The builtins with typed instances have no code under their untyped names.
  · cases hcode
  · cases hcode
  · cases hcode
  · cases hcode
  · obtain rfl := Option.some.inj hcode
    exact realizes_relation .eq
  · obtain rfl := Option.some.inj hcode
    exact realizes_relation .ne
  · obtain rfl := Option.some.inj hcode
    exact realizes_relation .lt
  · obtain rfl := Option.some.inj hcode
    exact realizes_relation .le
  · obtain rfl := Option.some.inj hcode
    exact realizes_relation .ge
  · obtain rfl := Option.some.inj hcode
    exact realizes_relation .gt
  · obtain rfl := Option.some.inj hcode
    exact realizes_not
  · obtain rfl := Option.some.inj hcode
    exact realizes_connective (g := (· &&& ·)) (fun _ => rfl) rfl
      (fun m n => computes_binary m n (by simp)) (by decide)
  · obtain rfl := Option.some.inj hcode
    exact realizes_connective (g := (· ||| ·)) (fun _ => rfl) rfl
      (fun m n => computes_binary m n (by simp)) (by decide)
  · obtain rfl := Option.some.inj hcode
    exact realizes_wrapping (fun _ => rfl) rfl fun m n => computes_binary m n (by simp)
  · obtain rfl := Option.some.inj hcode
    exact realizes_wrapping (fun _ => rfl) rfl fun m n => computes_binary m n (by simp)
  · obtain rfl := Option.some.inj hcode
    exact realizes_wrapping (fun _ => rfl) rfl fun m n => computes_binary m n (by simp)
  · obtain ⟨negative, top, skip, done, hstub, rfl⟩ := hcode
    exact realizes_power hstub
  · obtain ⟨byZero, normal, exact, done, hstub, rfl⟩ := hcode
    exact realizes_division (fun _ => rfl) rfl hstub
  · obtain ⟨byZero, normal, exact, done, hstub, rfl⟩ := hcode
    exact realizes_division (fun _ => rfl) rfl hstub

/-- The code of every builtin that is named for a type does what its operation does with
arguments of the type. -/
theorem realizes_of_typed {builtin : Builtin} (hmem : builtin ∈ Builtin.typed)
    (hcode : BuiltinCode stubs builtin.name instrs) :
    Realizes stubs instrs builtin.operation builtin.Admits := by
  simp only [Builtin.typed, Builtin.typedInstances, List.mem_append, List.mem_cons,
    List.not_mem_nil, or_false, List.flatMap_cons, List.flatMap_nil, List.map_cons, List.map_nil,
    ValueType.name] at hmem
  rcases hmem with (rfl | rfl | rfl | rfl) | (rfl | rfl | rfl | rfl) | (rfl | rfl | rfl) |
    (rfl | rfl)
  all_goals
    obtain rfl := Option.some.inj hcode
  · exact realizes_typed scalars_int (by decide +kernel) (by simp) (fun _ => rfl) rfl
      (fun _ => rfl) fun n => computes_addImm n 1
  · exact realizes_typed scalars_bool (by decide +kernel) (by simp) (fun _ => rfl) rfl
      (fun _ => rfl) computes_xorOne
  · exact realizes_typed scalars_color (by decide +kernel) (by simp) (fun _ => rfl) rfl
      (fun _ => rfl) fun c => computes_cycle _ _ _ (by cases c <;> rfl)
  · exact realizes_typed scalars_dir (by decide +kernel) (by simp) (fun _ => rfl) rfl
      (fun _ => rfl) fun d => computes_cycle _ _ _ (by cases d <;> rfl)
  · exact realizes_typed scalars_int (by decide +kernel) (by simp) (fun _ => rfl) rfl
      (fun _ => rfl) fun n => computes_subImm n 1
  · exact realizes_typed scalars_bool (by decide +kernel) (by simp) (fun _ => rfl) rfl
      (fun _ => rfl) computes_xorOne
  · exact realizes_typed scalars_color (by decide +kernel) (by simp) (fun _ => rfl) rfl
      (fun _ => rfl) fun c => computes_cycle _ _ _ (by cases c <;> rfl)
  · exact realizes_typed scalars_dir (by decide +kernel) (by simp) (fun _ => rfl) rfl
      (fun _ => rfl) fun d => computes_cycle _ _ _ (by cases d <;> rfl)
  · exact realizes_typed scalars_int (by decide +kernel) (by simp) (fun _ => rfl) rfl
      (fun _ => rfl) computes_neg
  · exact realizes_typed scalars_bool (by decide +kernel) (by simp) (fun _ => rfl) rfl
      (fun _ => rfl) computes_xorOne
  · exact realizes_typed scalars_dir (by decide +kernel) (by simp) (fun _ => rfl) rfl
      (fun _ => rfl) fun d => computes_cycle _ _ _ (by cases d <;> rfl)
  · exact realizes_typed scalars_int (by decide +kernel) (by simp) (fun _ => rfl) rfl
      (fun _ => rfl) computes_neg
  · exact realizes_typed scalars_dir (by decide +kernel) (by simp) (fun _ => rfl) rfl
      (fun _ => rfl) fun d => computes_cycle _ _ _ (by cases d <;> rfl)

/-- The code of every builtin does what its operation does, if typed builtins get arguments
of their type. -/
theorem realizes_of_standard {builtin : Builtin} (hmem : builtin ∈ BuiltinTable.standard.entries)
    (hcode : BuiltinCode stubs builtin.name instrs) :
    Realizes stubs instrs builtin.operation builtin.Admits :=
  (List.mem_append.1 hmem).elim (realizes_of_untyped · hcode) (realizes_of_typed · hcode)

end Native
end Gobstones
