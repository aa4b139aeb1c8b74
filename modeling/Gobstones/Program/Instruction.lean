import Gobstones.Value.Basic
/-!
# Instructions

This module defines the instructions of a routine and the typed names under which
variables are returned.

Main definitions:

- {lit}`Instruction`: the instructions, with the label that one may jump to and the
  variable that one uses.
- {lit}`Opcode`: the instructions without their operands.
- {lit}`Polyname.base` and {lit}`Polyname.type?`: the two parts of a typed name.
-/

namespace Gobstones

/-- The instructions without their operands. -/
inductive Opcode where
  | pushConst
  | pushFrom
  | popTo
  | call
  | raise
  | label
  | jump
  | jumpIfFalse
  | jumpIfNotIn
  | ret
  | returnVars
  | enter
  | leave
  | delVar
  | setImmutable
  | unsetImmutable
deriving DecidableEq, Repr

/-- The instructions of a routine. -/
inductive Instruction where
  /-- Push a literal. -/
  | pushConst (value : Value)
  /-- Push the value of a variable. -/
  | pushFrom (name : String)
  /-- Pop a value into a variable. -/
  | popTo (name : String)
  /-- Forget a variable. -/
  | delVar (name : String)
  /-- Call a builtin or a routine with arguments from the stack. -/
  | call (name : String) (argc : Nat)
  /-- Fail with a message. -/
  | raise (message : String)
  /-- Mark a place to jump to. -/
  | label (name : String)
  /-- Go on after a label. -/
  | jump (label : String)
  /-- Pop a boolean and jump if it is false. -/
  | jumpIfFalse (label : String)
  /-- Pop a value and jump unless it is listed. -/
  | jumpIfNotIn (values : List Value) (label : String)
  /-- Return values from the stack. -/
  | ret (n : Nat)
  /-- Return the values of variables. -/
  | returnVars (n : Nat) (names : List String)
  /-- Open a board transaction. -/
  | enter
  /-- Roll a board transaction back. -/
  | leave
  /-- Protect a variable from assignment. -/
  | setImmutable (name : String)
  /-- Allow assignment to a variable again. -/
  | unsetImmutable (name : String)
deriving DecidableEq, Repr, Inhabited

namespace Instruction

/-- The opcode of an instruction. -/
def opcode : Instruction → Opcode
  | pushConst _ => .pushConst
  | pushFrom _ => .pushFrom
  | popTo _ => .popTo
  | delVar _ => .delVar
  | call .. => .call
  | raise _ => .raise
  | label _ => .label
  | jump _ => .jump
  | jumpIfFalse _ => .jumpIfFalse
  | jumpIfNotIn .. => .jumpIfNotIn
  | ret _ => .ret
  | returnVars .. => .returnVars
  | enter => .enter
  | leave => .leave
  | setImmutable _ => .setImmutable
  | unsetImmutable _ => .unsetImmutable

/-- The label that an instruction may jump to. -/
def jumpLabel? : Instruction → Option String
  | jump target => some target
  | jumpIfFalse target => some target
  | jumpIfNotIn _ target => some target
  | _ => none

/-- The variable that an instruction reads, writes or protects. -/
def localName? : Instruction → Option String
  | pushFrom name => some name
  | popTo name => some name
  | delVar name => some name
  | setImmutable name => some name
  | unsetImmutable name => some name
  | _ => none

end Instruction

namespace Polyname

/-- The name in front of the first type suffix. -/
def base (name : String) : String :=
  String.ofList (name.toList.takeWhile (· ≠ '@'))

/-- The first type suffix of a name. -/
def type? (name : String) : Option String :=
  match name.toList.dropWhile (· ≠ '@') with
  | [] => none
  | _ :: suffix => some (String.ofList (suffix.takeWhile (· ≠ '@')))

end Polyname
end Gobstones
