import Gobstones.Fault
/-!
# Builtin operations

This module defines the operations that every program can call, what they do to
the board, and the tables in which programs find them.  An operation whose
meaning depends on the type of its operand is also listed once for each type,
under a name with the type attached.

Main definitions:

- {lit}`Operation` and {lit}`Operation.perform`: the operations and what they do.
- {lit}`Builtin` and {lit}`BuiltinTable`: operations under names.
- {lit}`BuiltinTable.standard`: the table that programs start with.
-/

namespace Gobstones

/-! ## Operations -/

/-- The relations between comparable values. -/
inductive Relation where
  | eq
  | ne
  | lt
  | le
  | ge
  | gt
deriving DecidableEq, Repr

namespace Relation

/-- Whether a relation holds between values in a given order. -/
def holds : Relation → Ordering → Bool
  | eq, order => order = .eq
  | ne, order => order ≠ .eq
  | lt, order => order = .lt
  | le, order => order ≠ .gt
  | ge, order => order ≠ .lt
  | gt, order => order = .gt

end Relation

/-- The primitive operations. -/
inductive Operation where
  | putStone
  | takeStone
  | move
  | goToBoundary
  | goToOrigin
  | clearBoard
  | numStones
  | existStones
  | canMove
  | constant (value : Value)
  | next
  | prev
  | opposite
  | negate
  | relation (r : Relation)
  | not
  | and
  | or
  | add
  | sub
  | mul
  | power
  | div
  | mod
deriving DecidableEq, Repr

namespace Operation

/-- The number of arguments that an operation takes. -/
def arity : Operation → Nat
  | goToOrigin | clearBoard | constant _ => 0
  | putStone | takeStone | move | goToBoundary | numStones | existStones | canMove | next | prev
  | opposite | negate | not => 1
  | relation _ | and | or | add | sub | mul | power | div | mod => 2

/-- The kind of an operation: procedures change the board, functions leave a result. -/
def kind : Operation → RoutineKind
  | putStone | takeStone | move | goToBoundary | goToOrigin | clearBoard => .procedure
  | _ => .function

/-- What an operation does with a board, step by step.  It may leave a result. -/
abbrev Action := EStateM PrimitiveError Board (Option Value)

/-- A result, if the operation leaves one, and the board afterwards. -/
abbrev Outcome := Except PrimitiveError (Option Value × Board)

/-- The result and the board after an operation that succeeds, or the reason for which it fails. -/
def Action.outcome (action : Action) (board : Board) : Outcome :=
  match action board with
  | .ok result after => .ok (result, after)
  | .error e _ => .error e

/-- The first argument, which has to be a color. -/
def colorArgument (name : String) : List Value → Except PrimitiveError Color
  | .color c :: _ => .ok c
  | _ => .error (.notColor name)

/-- The first argument, which has to be a direction. -/
def directionArgument (name : String) : List Value → Except PrimitiveError Direction
  | .dir d :: _ => .ok d
  | _ => .error (.notDirection name)

/-- The two arguments of a binary operation. -/
def pairArgument : List Value → Except PrimitiveError (Value × Value)
  | [a, b] => .ok (a, b)
  | args => .error (.operandCount args.length)

/-- Do something with the board that leaves no result. -/
def change (action : Board.Action Unit) : Action := fun board =>
  match action board with
  | .ok _ after => .ok none after
  | .error e after => .error (.board e) after

/-- The successor of a scalar. -/
def nextOf : List Value → Except PrimitiveError Value
  | .int n :: _ => .ok (.int (n + 1))
  | .bool b :: _ => .ok (.bool !b)
  | .color c :: _ => .ok (.color c.next)
  | .dir d :: _ => .ok (.dir d.next)
  | _ => .error (.notScalar "next")

/-- The predecessor of a scalar. -/
def prevOf : List Value → Except PrimitiveError Value
  | .int n :: _ => .ok (.int (n - 1))
  | .bool b :: _ => .ok (.bool !b)
  | .color c :: _ => .ok (.color c.prev)
  | .dir d :: _ => .ok (.dir d.prev)
  | _ => .error (.notScalar "prev")

/-- The opposite of a scalar. -/
def oppositeOf : List Value → Except PrimitiveError Value
  | .int n :: _ => .ok (.int (-n))
  | .bool b :: _ => .ok (.bool !b)
  | .dir d :: _ => .ok (.dir d.opposite)
  | _ => .error (.notReversible "opposite")

/-- The negative of an integer, or the opposite of a direction. -/
def negativeOf : List Value → Except PrimitiveError Value
  | .int n :: _ => .ok (.int (-n))
  | .dir d :: _ => .ok (.dir d.opposite)
  | _ => .error (.notReversible "unary minus")

/-- Whether a relation holds between two arguments. -/
def related (r : Relation) (args : List Value) : Except PrimitiveError Value := do
  let (a, b) ← pairArgument args
  match a.compare b with
  | some order => .ok (.bool (r.holds order))
  | none => .error .incomparable

/-- The negation of a boolean. -/
def notOf : List Value → Except PrimitiveError Value
  | .bool b :: _ => .ok (.bool !b)
  | _ => .error .notBoolean

/-- A connective of two booleans. -/
def connected (f : Bool → Bool → Bool) (args : List Value) : Except PrimitiveError Value := do
  match ← pairArgument args with
  | (.bool a, .bool b) => .ok (.bool (f a b))
  | _ => .error .notBoolean

/-- An operation on two integers. -/
def computed (f : Int64 → Int64 → Except ArithmeticError Int64) (args : List Value) :
    Except PrimitiveError Value := do
  match ← pairArgument args with
  | (.int a, .int b) =>
    match f a b with
    | .ok n => .ok (.int n)
    | .error e => .error (.arithmetic e)
  | _ => .error .notNumeric

/-- Leave what is computed without a look at the board. -/
def answer (value : Except PrimitiveError Value) : Action := do
  return some (← liftExcept value)

/-- Do what an operation does with arguments in the order of the parameters. -/
def perform (op : Operation) (args : List Value) : Action :=
  match op with
  | putStone => do
    let color ← liftExcept (colorArgument "PutStone" args)
    change (modify (·.put color 1))
  | takeStone => do
    let color ← liftExcept (colorArgument "TakeStone" args)
    change (.take color 1)
  | move => do
    let direction ← liftExcept (directionArgument "Move" args)
    change (.moveHead direction 1)
  | goToBoundary => do
    let direction ← liftExcept (directionArgument "GoToBoundary" args)
    change (modify (·.goToBoundary direction))
  | goToOrigin => change (modify (·.goToOrigin))
  | clearBoard => change (modify (·.clear))
  | numStones => do
    let color ← liftExcept (colorArgument "numStones" args)
    return some (.int (Int64.ofNat ((← get).numStones color).toNat))
  | existStones => do
    let color ← liftExcept (colorArgument "existStones" args)
    return some (.bool ((← get).existStones color))
  | canMove => do
    let direction ← liftExcept (directionArgument "canMove" args)
    return some (.bool ((← get).canMove direction))
  | constant value => answer (.ok value)
  | next => answer (nextOf args)
  | prev => answer (prevOf args)
  | opposite => answer (oppositeOf args)
  | negate => answer (negativeOf args)
  | relation r => answer (related r args)
  | not => answer (notOf args)
  | and => answer (connected (· && ·) args)
  | or => answer (connected (· || ·) args)
  | add => answer (computed (fun a b => .ok (a + b)) args)
  | sub => answer (computed (fun a b => .ok (a - b)) args)
  | mul => answer (computed (fun a b => .ok (a * b)) args)
  | power => answer (computed Arithmetic.power args)
  | div => answer (computed Arithmetic.floorDiv args)
  | mod => answer (computed Arithmetic.floorMod args)

/-- The outcome of an operation on a board. -/
def apply (op : Operation) (board : Board) (args : List Value) : Outcome :=
  (op.perform args).outcome board

end Operation

/-! ## Builtins -/

/-- An operation under a name, with the kind and the parameters that it is called with.  What is
called as a function leaves a result, and an operation has a parameter for each argument that it
takes; an operation that leaves a result may be called as a procedure, which drops it. -/
structure Builtin where
  name : String
  kind : RoutineKind
  params : List String
  operation : Operation
  answers : kind = .function → operation.kind = .function := by simp [Operation.kind]
  takes : params.length = operation.arity := by rfl
deriving DecidableEq, Repr

namespace Builtin

/-- The number of arguments that a builtin takes. -/
def arity (builtin : Builtin) : Nat :=
  builtin.params.length

/-- The builtin under another name. -/
def withName (builtin : Builtin) (name : String) : Builtin :=
  { builtin with name }

/-- Take a stone from the cell under the head. -/
def takeStone : Builtin :=
  .mk "TakeStone" .procedure ["color"] .takeStone

/-- Move the head to the origin. -/
def goToOrigin : Builtin :=
  .mk "GoToOrigin" .procedure [] .goToOrigin

/-- The least boolean. -/
def minBool : Builtin :=
  .mk "minBool" .function [] (.constant (.bool false))

/-- The next value of a type. -/
def next : Builtin :=
  .mk "next" .function ["x"] .next

/-- The previous value of a type. -/
def prev : Builtin :=
  .mk "prev" .function ["x"] .prev

/-- The opposite of a value. -/
def opposite : Builtin :=
  .mk "opposite" .function ["x"] .opposite

/-- The negative of a number, or the opposite of a direction. -/
def negate : Builtin :=
  .mk "unary-" .function ["x"] .negate

/-- The builtin procedures and functions, each under its untyped name. -/
def untyped : List Builtin :=
  [.mk "PutStone" .procedure ["color"] .putStone,
    takeStone,
    .mk "Move" .procedure ["dir"] .move,
    .mk "GoToBoundary" .procedure ["dir"] .goToBoundary,
    goToOrigin,
    .mk "ClearBoard" .procedure [] .clearBoard,
    .mk "numStones" .function ["color"] .numStones,
    .mk "existStones" .function ["color"] .existStones,
    .mk "canMove" .function ["dir"] .canMove,
    minBool,
    .mk "maxBool" .function [] (.constant (.bool true)),
    .mk "minColor" .function [] (.constant (.color .blue)),
    .mk "maxColor" .function [] (.constant (.color .green)),
    .mk "minDir" .function [] (.constant (.dir .north)),
    .mk "maxDir" .function [] (.constant (.dir .west)),
    next,
    prev,
    opposite,
    negate,
    .mk "==" .function ["x", "y"] (.relation .eq),
    .mk "/=" .function ["x", "y"] (.relation .ne),
    .mk "<" .function ["x", "y"] (.relation .lt),
    .mk "<=" .function ["x", "y"] (.relation .le),
    .mk ">=" .function ["x", "y"] (.relation .ge),
    .mk ">" .function ["x", "y"] (.relation .gt),
    .mk "not" .function ["x"] .not,
    .mk "&&" .function ["x", "y"] .and,
    .mk "||" .function ["x", "y"] .or,
    .mk "+" .function ["x", "y"] .add,
    .mk "-" .function ["x", "y"] .sub,
    .mk "*" .function ["x", "y"] .mul,
    .mk "^" .function ["x", "y"] .power,
    .mk "div" .function ["x", "y"] .div,
    .mk "mod" .function ["x", "y"] .mod]

/-- The builtins with typed instances, and the types of their instances. -/
def typedInstances : List (Builtin × List ValueType) :=
  [(next, [.int, .bool, .color, .dir]),
    (prev, [.int, .bool, .color, .dir]),
    (opposite, [.int, .bool, .dir]),
    (negate, [.int, .dir])]

/-- The typed instances.  Each is named for its builtin and its type. -/
def typed : List Builtin :=
  typedInstances.flatMap fun (builtin, types) =>
    types.map fun type => builtin.withName (builtin.name ++ "@" ++ type.name)

end Builtin

/-- A table of builtins, no two of them under one name. -/
structure BuiltinTable where
  entries : List Builtin
  distinct : (entries.map Builtin.name).Nodup
deriving DecidableEq, Repr

namespace BuiltinTable

/-- The table without entries. -/
def empty : BuiltinTable where
  entries := []
  distinct := .nil

/-- The table that every program starts with. -/
def standard : BuiltinTable where
  entries := Builtin.untyped ++ Builtin.typed
  distinct := by decide +kernel

/-- The builtin of a name. -/
def get? (table : BuiltinTable) (name : String) : Option Builtin :=
  table.entries.find? (·.name = name)

/-- Whether there is a builtin of a name. -/
def contains (table : BuiltinTable) (name : String) : Bool :=
  (table.get? name).isSome

/-- Add a builtin, in the place of one with its name. -/
def insert (table : BuiltinTable) (builtin : Builtin) : BuiltinTable where
  entries := builtin :: table.entries.filter (·.name ≠ builtin.name)
  distinct := by
    refine List.nodup_cons.2 ⟨fun hmem => ?_, ?_⟩
    · obtain ⟨other, hother, hname⟩ := List.mem_map.1 hmem
      simp [hname] at hother
    · exact table.distinct.sublist (List.filter_sublist.map Builtin.name)

/-- The names of the table in ascending order. -/
def names (table : BuiltinTable) : List String :=
  (table.entries.map (·.name)).mergeSort (fun a b => decide (a ≤ b))

end BuiltinTable
end Gobstones
