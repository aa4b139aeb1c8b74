import Gobstones.Check.Problem
import Gobstones.Native.Emitter
import Gobstones.Program.Routine
import Gobstones.Value.Literal
/-!
# Native frames

This module places the variables of a routine on the native stack.  The caller has
pushed the arguments in order, so the last parameter lies right above the return
address; below the saved frame pointer lie the local variables in the order of
their first use.

Main definitions:

- {lit}`NativeError`: the ways in which a program cannot be compiled or run natively.
- {lit}`wordOffset`: the size of stack words in bytes.
- {lit}`Slot` and {lit}`FrameLayout`: the places of variables.
-/

namespace Gobstones
namespace Native

/-! ## Errors -/

/-- The reasons for which a program has no native code. -/
inductive UnsupportedReason where
  | untypedBuiltin (name : String)
  | noInlineCode (name : String)
  | tupleConstant (value : Value)
  | reservedInteger (value : Value)
  | leaveWithoutReturn (kind : RoutineKind) (name : String)
  | unknownLabel (name : String)
  | noSlot (name : String)
  | notCompiled (routine moduleName : String)
deriving DecidableEq, Repr

/-- The ways in which a program cannot be compiled or run natively. -/
inductive NativeError where
  | unsupported (reason : UnsupportedReason)
  | untypedResult (name : String)
  | rejected (problems : List Problem)
  | frameTooLarge (words : Nat)
  | noEntrypoint
  | link (error : LinkError)
  | unavailable
  | fault (message : String)
  | board (error : BoardError)
deriving DecidableEq, Repr

namespace UnsupportedReason

/-- The report of what native code cannot express. -/
def message : UnsupportedReason → String
  | untypedBuiltin name => s!"untyped polymorphic builtin \"{name}\""
  | noInlineCode name => s!"builtin \"{name}\" has no native template"
  | tupleConstant value => s!"tuple constant {value.text}"
  | reservedInteger value => s!"integer literal {value.text} is too big for a native word"
  | leaveWithoutReturn kind name => s!"{kind.keyword} {name}: leave not followed by return"
  | unknownLabel name => s!"jump to unknown label {name}"
  | noSlot name => s!"variable {name} has no slot"
  | notCompiled routine moduleName =>
    s!"routine {routine} of module {moduleName} was not compiled"

end UnsupportedReason

/-- The report of a misused label. -/
def LinkError.message : LinkError → String
  | undefinedLabel label => s!"label {label} is referenced but never bound"
  | labelRebound label => s!"label {label} is bound twice"

namespace NativeError

/-- The report of a failure of native code. -/
def message : NativeError → String
  | unsupported reason => s!"not supported by the native backend: {reason.message}"
  | untypedResult name =>
    s!"result \"{name}\" has no native type (expected an @Int, @Bool, @Color or @Dir suffix)"
  | rejected problems =>
    let list := "; ".intercalate (problems.map Problem.message)
    s!"bytecode rejected: {list}"
  | frameTooLarge words => s!"{words} stack words do not fit a native frame"
  | noEntrypoint => "program has no entrypoint"
  | link error => error.message
  | unavailable => "native execution is not available on this host"
  | fault text => text
  | board error => error.message

end NativeError

/-! ## Offsets -/

/-- The greatest count of stack words. -/
def maxWords : Nat :=
  UInt64.size - 1

/-- The least count of stack words that does not fit into a displacement. -/
def frameLimit : Nat :=
  0x10000000

/-- The size of stack words in bytes, if it fits into a displacement. -/
def wordOffset (words : Nat) : Except NativeError Int32 :=
  if words < frameLimit then .ok (Int32.ofNat (8 * words)) else .error (.frameTooLarge words)

/-! ## Slots -/

/-- The place of a variable: parameters count from one back from the last, the routine's own
variables from one in the order of first use. -/
inductive Slot where
  | param (k : Nat)
  | own (k : Nat)
deriving DecidableEq, Repr

namespace Slot

/-- The place of a slot relative to the frame pointer. -/
def memory : Slot → Except NativeError Memory
  | param k => (wordOffset (min (k + 1) maxWords)).map fun disp => ⟨.rbp, disp⟩
  | own k => (wordOffset k).map fun disp => ⟨.rbp, -disp⟩

end Slot

/-- The slots of the variables of a routine. -/
structure FrameLayout where
  slots : List (String × Slot)
  params : Nat
  locals : Nat
deriving DecidableEq, Repr

namespace FrameLayout

/-- The slot of a variable. -/
def slot? (layout : FrameLayout) (name : String) : Option Slot :=
  layout.slots.lookup name

/-- Give a variable the next local slot, unless it has one. -/
def addLocal (layout : FrameLayout) (name : String) : FrameLayout :=
  if (layout.slot? name).isSome then layout
  else
    { layout with
      slots := (name, .own (layout.locals + 1)) :: layout.slots
      locals := layout.locals + 1 }

/-- The variables for which an instruction needs slots. -/
def variablesOf : Instruction → List String
  | .pushFrom name | .popTo name | .delVar name => [name]
  | .returnVars _ names => names.map Polyname.base
  | _ => []

/-- The slots of parameters.  Of two parameters with one name the later has it. -/
def paramSlots : List String → List (String × Slot) → List (String × Slot)
  | [], slots => slots
  | name :: rest, slots => paramSlots rest ((name, .param (rest.length + 1)) :: slots)

/-- The slots of the variables of a routine. -/
def ofRoutine (routine : Routine) : FrameLayout :=
  let start : FrameLayout :=
    { slots := paramSlots routine.params [], params := routine.params.length, locals := 0 }
  (routine.code.toList.flatMap variablesOf).foldl addLocal start

/-- The place of a variable relative to the frame pointer. -/
def memory (layout : FrameLayout) (name : String) : Except NativeError Memory :=
  match layout.slot? name with
  | some slot => slot.memory
  | none => .error (.unsupported (.noSlot name))

end FrameLayout
end Native
end Gobstones
