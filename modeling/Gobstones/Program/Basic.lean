import Gobstones.Builtin
import Gobstones.Ordered
import Gobstones.Program.Routine
/-!
# Programs

This module defines programs: the routines of one module, the builtins that they
may call, and the routines of other modules that are linked to them under local
names.  A program contains the modules that it links to, so links never form a
cycle.

Main definitions:

- {lit}`Program`: a module with its builtins and its links.
- {lit}`Program.entrypoint?`: the routine where execution starts.
- {lit}`Program.resolve?`: what a called name stands for.
-/

namespace Gobstones

/-! ## Distinct names -/

/-- The first name that occurs again after its first occurrence, names in {lit}`seen`
counting as occurrences. -/
def firstRepeated? (seen : List String) : List String → Option String
  | [] => none
  | name :: rest => if name ∈ seen then some name else firstRepeated? (name :: seen) rest

theorem firstRepeated?_eq_none_iff (seen names : List String) :
    firstRepeated? seen names = none ↔ names.Nodup ∧ ∀ name ∈ names, name ∉ seen := by
  induction names generalizing seen with
  | nil => simp [firstRepeated?]
  | cons name rest ih =>
    by_cases h : name ∈ seen
    · simp [firstRepeated?, h]
    · simp only [firstRepeated?, h, if_false, ih, List.nodup_cons, List.mem_cons, not_or]
      constructor
      · rintro ⟨hnodup, hrest⟩
        refine ⟨⟨fun hmem => (hrest name hmem).1 rfl, hnodup⟩, ?_⟩
        rintro n (rfl | hn)
        · exact h
        · exact (hrest n hn).2
      · rintro ⟨⟨hname, hnodup⟩, hrest⟩
        exact ⟨hnodup, fun n hn => ⟨fun heq => hname (heq ▸ hn), hrest n (.inr hn)⟩⟩

/-! ## Links -/

/-- A routine of another module under a local name. -/
structure Link (α : Type) where
  name : String
  target : α
  routine : String

/-! ## Programs -/

/-- The routines of a module with distinct names, the builtins that they may call, and
the links to other modules in ascending order of local names. -/
structure Program where
  moduleName : String
  routines : List Routine
  builtins : BuiltinTable
  links : List (Link Program)
  distinct : (routines.map Routine.name).Nodup

/-- What a called name stands for. -/
inductive CallTarget where
  | builtin (builtin : Builtin)
  | own (routine : Routine)
  | external (program : Program) (routine : Routine)

namespace Program

/-- A program in the module {lit}`main` with the standard builtins and no links. -/
def new (routines : List Routine) : Except LoadError Program :=
  match h : firstRepeated? [] (routines.map Routine.name) with
  | some name => .error (.duplicateRoutine name)
  | none =>
    .ok {
      moduleName := "main"
      routines
      builtins := BuiltinTable.standard
      links := []
      distinct := ((firstRepeated?_eq_none_iff _ _).1 h).1 }

/-- The same program in another module. -/
def withModule (program : Program) (moduleName : String) : Program :=
  { program with moduleName }

/-- The same program with other builtins. -/
def withBuiltins (program : Program) (builtins : BuiltinTable) : Program :=
  { program with builtins }

/-- Make a routine of another module callable under a local name. -/
def link (program : Program) (name : String) (target : Program) (routine : String) : Program :=
  { program with links := Ordered.insert Link.name ⟨name, target, routine⟩ program.links }

/-- The routine of a name. -/
def routine? (program : Program) (name : String) : Option Routine :=
  program.routines.find? (·.name = name)

/-- The link of a local name. -/
def link? (program : Program) (name : String) : Option (Link Program) :=
  program.links.find? (·.name = name)

/-- The names tried in turn when no routine is marked as entrypoint. -/
def entrypointNames : List String :=
  ["program", "interactive", "Main"]

/-- The routine where execution starts. -/
def entrypoint? (program : Program) : Option Routine :=
  match program.routines.find? (·.kind = .entrypoint) with
  | some routine => some routine
  | none => entrypointNames.findSome? program.routine?

/-- What a called name stands for: a builtin if there is one of that name, else a routine
of the module, else a linked routine. -/
def resolve? (program : Program) (name : String) : Option CallTarget :=
  match program.builtins.get? name with
  | some builtin => some (.builtin builtin)
  | none =>
    match program.routine? name with
    | some routine => some (.own routine)
    | none => do
      let link ← program.link? name
      let routine ← link.target.routine? link.routine
      return .external link.target routine

/-- A linked module is smaller than the program that contains it. -/
theorem sizeOf_target_lt {program : Program} {link : Link Program} (h : link ∈ program.links) :
    sizeOf link.target < sizeOf program := by
  have hmem := List.sizeOf_lt_of_mem h
  cases program
  cases link
  simp only [Program.mk.sizeOf_spec, Link.mk.sizeOf_spec] at *
  omega

end Program

namespace CallTarget

/-- The number of arguments that a call has to pass. -/
def arity : CallTarget → Nat
  | builtin b => b.arity
  | own routine => routine.arity
  | external _ routine => routine.arity

/-- The number of values that a call leaves on the stack. -/
def resultCount : CallTarget → Nat
  | builtin b => if b.kind = .function then 1 else 0
  | own routine => routine.resultCount
  | external _ routine => routine.resultCount

end CallTarget
end Gobstones
