import Gobstones.Board.Layout
import Gobstones.Machine.State
import Gobstones.Native.Compile
import Gobstones.Native.Processor
/-!
# Native runs

This module loads native code and runs it on boards.  A run that ends leaves the
final board, and its results are read from the result buffer; a fault leaves the
board as it was, and its message is read from there.

Main definitions:

- {lit}`Target` and {lit}`load`: where native code can be loaded.
- {lit}`Host`: what native code finds of its caller.
- {lit}`NativeCode.start`: the processor at the entry stub.
- {lit}`NativeCode.runFor` and {lit}`NativeCode.run`: the results of a run and the board
  afterwards.
-/

namespace Gobstones
namespace Native

/-! ## Loading -/

/-- The places where native code can be loaded: executable memory of the host, or none. -/
inductive Target where
  | host
  | unavailable
deriving DecidableEq, Repr

/-- The number of bytes of a page of executable memory. -/
def pageSize : Nat :=
  4096

/-- Machine code in executable memory. -/
structure LoadedCode where
  size : Nat
deriving DecidableEq, Repr

namespace LoadedCode

/-- The number of bytes of the pages that hold the code.  There is at least one page. -/
def capacity (loaded : LoadedCode) : Nat :=
  (max loaded.size 1 + pageSize - 1) / pageSize * pageSize

end LoadedCode

/-- Load machine code of a size at a target. -/
def load (target : Target) (size : Nat) : Except NativeError LoadedCode :=
  match target with
  | .host => .ok { size }
  | .unavailable => .error .unavailable

/-! ## Running -/

/-- The places of labels among instructions, each right of its pseudo-instruction. -/
def placesFrom (places : Array (Option Nat)) (position : Nat) : List Instr → Array (Option Nat)
  | [] => places
  | .bind label :: rest =>
    placesFrom (places.setIfInBounds label (some (position + 1))) (position + 1) rest
  | _ :: rest => placesFrom places (position + 1) rest

/-- What native code finds of its caller: the words in the registers, and the words that lie
below the place to return to on the stack, which may be left over from anything. -/
structure Host where
  regs : Registers
  stale : Nat → Word

/-- A host with zero in all registers and on the stack. -/
def Host.idle : Host where
  regs := .replicate (.int 0)
  stale _ := .int 0

namespace NativeCode

/-- The places of the labels of the code. -/
def places (code : NativeCode) : Array (Option Nat) :=
  placesFrom (Array.replicate code.labels none) 0 code.instrs.toList

/-- The number of 64-bit words of the result buffer, which has room for the results and for
a message. -/
def bufferWords (code : NativeCode) : Nat :=
  max code.results.length (messageCapacity / 8)

/-- The processor at the entry stub, called by the host with a board and an empty result
buffer.  The host is returned to at the end of the code. -/
def start (code : NativeCode) (host : Host) (board : Board) : Processor :=
  { regs := ((host.regs.set .rdi (.board 0)).set .rsi (.results 0)).set .rsp (.stack (-8))
    flags := none
    stack := #[.code code.instrs.size]
    stale := host.stale
    board := board.toWords.toArray
    results := Array.replicate code.bufferWords 0
    position := 0 }

/-- The message in a result buffer, up to the first zero byte. -/
def messageOf (results : List Int64) : String :=
  let bytes := (results.flatMap fun word => quadBytes word.toUInt64).takeWhile (· ≠ 0)
  (String.fromUTF8? ⟨bytes.toArray⟩).getD ""

/-- The values of the results in a result buffer. -/
def readResults : List (String × ValueType) → List Int64 → Except NativeError Bindings
  | (name, type) :: results, word :: words =>
    match Value.ofWord? word type with
    | none => .error (.untypedResult name)
    | some value => (readResults results words).map ((name, value) :: ·)
  | _, _ => .ok []

/-- The outcome of a processor that has returned to the host: a fault, or the results and
the board afterwards. -/
def outcome (code : NativeCode) (board : Board) (p : Processor) :
    Except NativeError (Bindings × Board) := do
  if p.reg .rax = .int sentinel then throw (.fault (messageOf p.results.toList))
  match board.updateFromBytes (p.board.toList.flatMap wordBytes) with
  | .error e => throw (.board e)
  | .ok board => return (← readResults code.results p.results.toList, board)

/-- Run the code on a board for a host, at most {lit}`fuel` instructions.  There is no outcome
when they do not suffice or the processor stops. -/
def runFor (code : NativeCode) (host : Host) (fuel : Nat) (board : Board) :
    Option (Except NativeError (Bindings × Board)) :=
  let places := code.places
  match (code.start host board).run fuel code.instrs (fun label => places[label]?.join) with
  | .finished p => some (code.outcome board p)
  | _ => none

/-- Run the code on a board for an idle host. -/
def run (code : NativeCode) (fuel : Nat) (board : Board) :
    Option (Except NativeError (Bindings × Board)) :=
  code.runFor .idle fuel board

end NativeCode
end Native
end Gobstones
