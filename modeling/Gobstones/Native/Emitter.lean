import Gobstones.Native.Link
/-!
# Code under construction

This module collects instructions while code is generated, hands out labels, and
keeps one fault stub for every message.  A fault stub stores its message in the
result buffer and leaves the whole program with a status that no other exit has.

Main definitions:

- {lit}`Emitter`: the instructions and the requested stubs so far.
- {lit}`Emitter.fault`: the label of the stub of a message.
- {lit}`messageWords`: a message as the words that its stub stores.
- {lit}`Emitter.placeStubs`: emit the requested stubs.
-/

namespace Gobstones
namespace Native

/-! ## Messages -/

/-- The status of a fault, and the word of a variable without a value. -/
def sentinel : Int64 :=
  0x7fffffffffffffff

/-- The number of bytes reserved for a message with its terminator. -/
def messageCapacity : Nat :=
  512

/-- As many whole characters from the front of a message as fit into a number of bytes. -/
def fittingChars (room : Nat) : List Char → List Char
  | [] => []
  | c :: cs => if c.utf8Size ≤ room then c :: fittingChars (room - c.utf8Size) cs else []

/-- The bytes of a message, cut between characters to leave room for the terminator. -/
def messageBytes (message : String) : List UInt8 :=
  (fittingChars (messageCapacity - 1) message.toList).flatMap String.utf8EncodeChar

/-- The words that a stub stores for a message, its terminator included. -/
def messageWords (message : String) : List Int64 :=
  (quadsOfBytes (messageBytes message ++ [0])).map UInt64.toInt64

/-! ## Emitters -/

/-- The instructions emitted so far, the number of labels handed out, the stubs requested so
far in the order of their requests, and how many of these have been placed. -/
structure Emitter where
  instrs : Array Instr
  labels : Nat
  stubs : List (String × Label)
  placed : Nat

namespace Emitter

/-- Nothing emitted and nothing requested. -/
def empty : Emitter :=
  { instrs := #[], labels := 0, stubs := [], placed := 0 }

/-- Emit an instruction. -/
def emit (em : Emitter) (instr : Instr) : Emitter :=
  { em with instrs := em.instrs.push instr }

/-- Emit instructions in order. -/
def emitAll (em : Emitter) (instrs : List Instr) : Emitter :=
  { em with instrs := em.instrs ++ instrs }

/-- Hand out a label. -/
def fresh (em : Emitter) : Label × Emitter :=
  (em.labels, { em with labels := em.labels + 1 })

/-- The label of the stub of a message, which is requested if it was not before. -/
def fault (em : Emitter) (message : String) : Label × Emitter :=
  match em.stubs.lookup message with
  | some label => (label, em)
  | none =>
    (em.labels, { em with labels := em.labels + 1, stubs := em.stubs ++ [(message, em.labels)] })

/-- The number of stubs requested so far. -/
def faultCount (em : Emitter) : Nat :=
  em.stubs.length

@[simp]
theorem instrs_emitAll (em : Emitter) (instrs : List Instr) :
    (em.emitAll instrs).instrs = em.instrs ++ instrs :=
  rfl

@[simp]
theorem instrs_fault (em : Emitter) (message : String) :
    (em.fault message).2.instrs = em.instrs := by
  unfold fault
  split <;> rfl

end Emitter

/-! ## Entry and exit -/

/-- A memory operand of a register and a displacement in bytes. -/
def memAt (base : Register) (disp : Int) : Memory :=
  ⟨base, Int32.ofInt disp⟩

/-- Save the registers that belong to the host. -/
def saveHostRegisters : List Instr :=
  [.push .rbp, .mov .rbp .rsp, .push .rbx, .push .r12, .push .r13, .push .r14, .push .r15]

/-- Restore the registers that belong to the host. -/
def restoreHostRegisters : List Instr :=
  [.pop .r15, .pop .r14, .pop .r13, .pop .r12, .pop .rbx, .pop .rbp]

/-- Store words one after the other from a place of the result buffer on. -/
def storeWords (index : Nat) : List Int64 → List Instr
  | [] => []
  | word :: rest =>
    .movImm .rax word :: .store (memAt .r15 (8 * index)) .rax :: storeWords (index + 1) rest

/-- The fault stub of a message. -/
def faultStub (message : String) (label : Label) : List Instr :=
  .bind label :: storeWords 0 (messageWords message) ++
    .movImm .rax sentinel :: .mov .rsp .rsi :: restoreHostRegisters ++ [.ret]

namespace Emitter

/-- Emit the requested stubs that have not been placed. -/
def placeStubs (em : Emitter) : Emitter :=
  let pending := em.stubs.drop em.placed
  { em.emitAll (pending.flatMap fun stub => faultStub stub.1 stub.2) with
    placed := em.stubs.length }

/-- Link the emitted instructions. -/
def link (em : Emitter) : Except LinkError LinkedCode :=
  Native.link em.labels em.instrs.toList

end Emitter
end Native
end Gobstones
