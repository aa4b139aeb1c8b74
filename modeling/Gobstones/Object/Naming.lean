import Gobstones.Object.Spelling
import Gobstones.Program.Basic
/-!
# Names in object text

This module chooses the names under which routines, variables and labels are
written.  The verbose style keeps every name and marks routines with their module;
the compact style generates short names from the number of names generated before.
Builtins, entrypoints and returned variables keep their names in both styles.

Main definitions:

- {lit}`Naming`: the names chosen so far in one writing session.
- {lit}`Naming.routineName`, {lit}`Naming.variableName` and {lit}`Naming.labelName`: choose or
  recall a name.
- {lit}`Naming.digits`: the generated part of a compact name.
-/

namespace Gobstones

/-- The names chosen so far in a writing session.  Each table lists generated names, the
latest first, and {lit}`kept` lists the variables that keep their names. -/
structure Naming where
  style : Style
  root : String
  routines : List ((String × String) × String)
  locals : List (String × String)
  labels : List (String × String)
  kept : List String

namespace Naming

/-- A fresh session for a program whose module is {lit}`root`. -/
def new (style : Style) (root : String) : Naming :=
  { style, root, routines := [], locals := [], labels := [], kept := [] }

/-! ## Generated names -/

/-- The digits of generated names. -/
def alphabet : List Char :=
  "abcdefghijklmnopqrstuvwxyzABCDEFGHIJKLMNOPQRSTUVWXYZ0123456789_".toList

/-- The digit of a value below the size of the alphabet. -/
def digit (n : Nat) : Char :=
  alphabet.getD n 'a'

/-- The digits of a number, most significant first.  Zero has none. -/
def digits (n : Nat) : List Char :=
  if n = 0 then [] else digits (n / 63) ++ [digit (n % 63)]
termination_by n
decreasing_by exact Nat.div_lt_self (Nat.pos_of_ne_zero ‹_›) (by decide)

/-- The generated name of a number, with an initial that tells what is named. -/
def generated (initial : Char) (n : Nat) : String :=
  String.ofList (initial :: digits n)

/-- Recall the generated name of a key, or generate the next one. -/
def chooseFrom {α : Type} [BEq α] (initial : Char) (table : List (α × String)) (key : α) :
    String × List (α × String) :=
  match table.lookup key with
  | some name => (name, table)
  | none => (generated initial table.length, (key, generated initial table.length) :: table)

/-! ## Choosing names -/

/-- Whether a program starts, or could start, at a routine. -/
def keepsName (program : Program) (routine : Routine) : Bool :=
  routine.kind = .entrypoint || program.entrypoint?.any (·.name = routine.name)

/-- The marked name of a routine: its module, which is left out for the root module, and
its own name behind a dollar sign. -/
def marked (naming : Naming) (program : Program) (name : String) : String :=
  let mark := if program.moduleName = naming.root then "" else program.moduleName
  mark ++ "$" ++ name

/-- The written name of a routine that a program calls.  A linked routine has the name that
it has in its own module. -/
def routineName (naming : Naming) (program : Program) (name : String) : String × Naming :=
  if program.builtins.contains name then (name, naming)
  else
    match program.routine? name with
    | some callee =>
      if naming.style = .verbose ∨ keepsName program callee then
        (naming.marked program name, naming)
      else
        let (chosen, routines) := chooseFrom 'R' naming.routines (program.moduleName, name)
        (chosen, { naming with routines })
    | none =>
      match h : program.link? name with
      | some link =>
        have : sizeOf link.target < sizeOf program :=
          Program.sizeOf_target_lt (List.mem_of_find?_eq_some h)
        naming.routineName link.target link.routine
      | none => (name, naming)
termination_by sizeOf program

/-- Keep the names of the variables that a routine returns. -/
def keepResults (naming : Naming) (routine : Routine) : Naming :=
  let kept := routine.code.toList.flatMap fun
    | .returnVars _ names => names.map Polyname.base
    | _ => []
  { naming with kept }

/-- The written name of a variable. -/
def variableName (naming : Naming) (name : String) : String × Naming :=
  if naming.style = .verbose ∨ name ∈ naming.kept then (name, naming)
  else
    let (chosen, locals) := chooseFrom 'V' naming.locals name
    (chosen, { naming with locals })

/-- The written name of a label. -/
def labelName (naming : Naming) (name : String) : String × Naming :=
  if naming.style = .verbose then (name, naming)
  else
    let (chosen, labels) := chooseFrom 'L' naming.labels name
    (chosen, { naming with labels })

end Naming
end Gobstones
