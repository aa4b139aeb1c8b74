import Gobstones.Fault
import Gobstones.Program.Instruction
/-!
# Routines

This module defines routines.  The labels of a routine are resolved once, when it
is built: every jump gets the index of the instruction after its label.

Main definitions:

- {lit}`LoadError`: the ways in which routines and programs cannot be built.
- {lit}`Routine`: a routine with its resolved jumps.
- {lit}`Routine.new`: build a routine from its instructions.
-/

namespace Gobstones

/-- The ways in which routines and programs cannot be built. -/
inductive LoadError where
  | duplicateLabel (routine label : String)
  | unresolvedLabel (routine : String) (position : Nat) (label : String)
  | duplicateRoutine (name : String)
deriving DecidableEq, Repr

namespace LoadError

/-- The report of a failed load. -/
def message : LoadError → String
  | duplicateLabel routine label => s!"routine {routine}: label {label} is defined twice"
  | unresolvedLabel routine position label =>
    s!"routine {routine}: jump at instruction {position} targets unknown label {label}"
  | duplicateRoutine name => s!"routine {name} is defined twice"

end LoadError

namespace Labels

/-- Collect the labels of the instructions from {lit}`position` on, each with the index of
the instruction after it.  A label that is already known is an error. -/
def collectFrom (known : List (String × Nat)) (position : Nat) :
    List Instruction → Except String (List (String × Nat))
  | [] => .ok known
  | .label name :: rest =>
    if (known.lookup name).isSome then .error name
    else collectFrom ((name, position + 1) :: known) (position + 1) rest
  | _ :: rest => collectFrom known (position + 1) rest

/-- The destinations of the instructions from {lit}`position` on.  A jump to a label that
is not known is an error. -/
def targetsFrom (labels : List (String × Nat)) (position : Nat) :
    List Instruction → Except (Nat × String) (List (Option Nat))
  | [] => .ok []
  | instruction :: rest =>
    match instruction.jumpLabel? with
    | none => (targetsFrom labels (position + 1) rest).map (none :: ·)
    | some label =>
      match labels.lookup label with
      | none => .error (position, label)
      | some target => (targetsFrom labels (position + 1) rest).map (some target :: ·)

/-- The destinations of all instructions of a routine.  A label that is defined twice
is reported before a label that is not defined. -/
def resolve (routine : String) (code : List Instruction) : Except LoadError (List (Option Nat)) :=
  match collectFrom [] 0 code with
  | .error label => .error (.duplicateLabel routine label)
  | .ok labels =>
    match targetsFrom labels 0 code with
    | .error (position, label) => .error (.unresolvedLabel routine position label)
    | .ok targets => .ok targets

end Labels

/-- A procedure, function or entrypoint with its resolved jumps. -/
structure Routine where
  kind : RoutineKind
  name : String
  params : List String
  code : Array Instruction
  targets : Array (Option Nat)
  resolved : Labels.resolve name code.toList = .ok targets.toList

namespace Routine

/-- Build a routine from its instructions. -/
def new (kind : RoutineKind) (name : String) (params : List String) (code : List Instruction) :
    Except LoadError Routine :=
  match h : Labels.resolve name code with
  | .error e => .error e
  | .ok targets =>
    .ok { kind, name, params, code := code.toArray, targets := targets.toArray, resolved := by simpa using h }

/-- The destination of the jump at a position. -/
def target? (routine : Routine) (position : Nat) : Option Nat :=
  routine.targets[position]?.join

/-- The number of arguments that a routine takes. -/
def arity (routine : Routine) : Nat :=
  routine.params.length

/-- The count of the first return of a routine. -/
def firstReturn? (routine : Routine) : Option Nat :=
  routine.code.toList.findSome? fun
    | .ret n => some n
    | _ => none

/-- The number of values that a routine leaves for its caller: as many as the first
return of a function says, and none for other routines. -/
def resultCount (routine : Routine) : Nat :=
  if routine.kind = .function then routine.firstReturn?.getD 0 else 0

end Routine
end Gobstones
