import Gobstones.Proofs.Native.Layout
import Gobstones.Proofs.Native.Regions
import Gobstones.Proofs.Native.Scenes
import Gobstones.Proofs.Native.Tracing
/-!
# What native code keeps to

This module says what has to be the case in every state of a run for native code to stay
inside its own memory, and gives rules to show it of the runs from a view on.  Nothing is
assumed of the words that a program computes with: they may have any type, and they may be
addresses that native code takes for integers.

Main definitions:

- {lit}`NativeCode.KeepsBoard`: the head stays on the grid, the cells are accessed in their
  bounds, divisions have a result, and a closed transaction has restored the board.
- {lit}`Program.Activates`: open calls that have led to an activation of a routine.
- {lit}`NativeCode.OwnWord`: a variable lies in the words of its own activation.
- {lit}`NativeCode.Recovers`: the host can be returned to at once.
- {lit}`Stage.Guarded`: a state of a run keeps to all that.
- {lit}`Stage.Tends`: runs from a view on keep to it for a number of steps.

Main results:

- Theorem {lit}`Stage.Tends.instr`: an instruction with a known effect.
- Theorem {lit}`Stage.Tends.quiet`: an instruction that computes something in registers.
- Theorems {lit}`Stage.Tends.jmp`, {lit}`Stage.Tends.branch`, {lit}`Stage.Tends.call` and
  {lit}`Stage.Tends.ret`: branches.
-/

namespace Gobstones

/-! ## Variables of an activation -/

/-- The number of bytes that a saved board takes on the stack. -/
def Native.SavedBoard.bytes (saved : Native.SavedBoard) : Nat :=
  8 * (saved.cells.length / 2 + 2)

/-- The offset up to which an activation keeps its operands: they lie below the local variables
and below the board that its transaction has found. -/
def Native.OpenCall.base (call : Native.OpenCall) (routine : Routine) : Int :=
  call.link - 8 * ((Native.FrameLayout.ofRoutine routine).locals + 1 : Nat) -
    (call.saved.elim 0 Native.SavedBoard.bytes : Nat)

/-- The open calls that have led to an activation of a routine: the host has called the
entrypoint, and each other routine has been called by an instruction of its caller with
arguments from the operands of its caller. -/
inductive Program.Activates (program : Program) (entry : Routine) :
    Program → Routine → Native.OpenCall → List Native.OpenCall → Prop where
  | host {call : Native.OpenCall} (hlink : call.link = -64) :
    Activates program entry program entry call []
  | call {home home' : Program} {routine callee : Routine} {caller call : Native.OpenCall}
    {callers : List Native.OpenCall} {name : String}
    (h : Activates program entry home routine caller callers)
    (hcall : .call name callee.arity ∈ routine.code)
    (hcallee : home.callee? name = some (home', callee))
    (hargs : call.link + 8 * (callee.arity + 1 : Nat) ≤ caller.base routine) :
    Activates program entry home' callee call (caller :: callers)

namespace Native

/-- The memory operand of an instruction, and the number of bytes that are accessed there. -/
def Instr.access? : Instr → Option (Memory × Nat)
  | .load _ mem | .store mem _ | .pushMem mem | .popMem mem => some (mem, 8)
  | .load32 _ mem | .store32 mem _ => some (mem, 4)
  | _ => none

/-- The activation that a state of a run is in: the innermost open call has entered the code of
its routine, its frame lies below the place to return to, and the variable of a name lies in a
word of that frame. -/
structure NativeCode.OwnWord (code : NativeCode) (program : Program) (entry : Routine)
    (routines : RoutineLabels) (s : Traced) (call : OpenCall) (routine : Routine) (name : String)
    (offset : Int) : Prop where
  activates : ∃ home callers before after label, s.calls = call :: callers ∧
    program.Activates entry home routine call callers ∧
    code.Generates routines home routine before after ∧
    before.instrs.size ≤ s.cpu.position ∧ s.cpu.position < after.instrs.size ∧
    code.instrs[call.site]? = some (.call label) ∧
    code.place label = some (before.instrs.size + 1)
  rbp : s.cpu.reg .rbp = .stack (call.link - 8)
  own : ∃ slot, (FrameLayout.ofRoutine routine).slot? name = some slot ∧
    ((∃ k, slot = .own k ∧ 1 ≤ k ∧ k ≤ (FrameLayout.ofRoutine routine).locals ∧
        offset = call.link - 8 * (k + 1 : Nat)) ∨
      ∃ k, slot = .param k ∧ 1 ≤ k ∧ k ≤ routine.arity ∧ offset = call.link + 8 * k)

/-- Reading a variable ends the run with the report of a variable without a value. -/
def NativeCode.FaultsOn (code : NativeCode) (board : Board) (p : Processor) (name : String) :
    Prop :=
  ∃ fuel p', p.run fuel code.instrs code.place = .finished p' ∧
    code.outcome board p' =
      .error (.fault (shownMessage (FaultCause.uninitialized name).message))

/-- Every variable that is accessed lies in the words of its own activation, and a local
variable that is read without having been assigned is reported. -/
structure NativeCode.KeepsVariables (code : NativeCode) (program : Program) (entry : Routine)
    (routines : RoutineLabels) (board : Board) (s : Traced) : Prop where
  own : ∀ instr mem size, code.instrs[s.cpu.position]? = some instr →
    instr.access? = some (mem, size) → mem.base = .rbp → ∃ call routine name offset,
      code.OwnWord program entry routines s call routine name offset ∧
      s.cpu.address? mem = some (.stack offset)
  faults : ∀ dst mem call callers, code.instrs[s.cpu.position]? = some (.load dst mem) →
    mem.base = .rbp → s.calls = call :: callers → mem.disp < 0 → mem.disp ∉ call.assigned →
      ∃ routine name offset, code.OwnWord program entry routines s call routine name offset ∧
        s.cpu.address? mem = some (.stack offset) ∧ code.FaultsOn board s.cpu name

/-! ## The board -/

/-- A register holds a coordinate below a bound.  It may hold the bound itself between the two
instructions with which the head goes to the edge. -/
def NativeCode.HoldsCoordinate (code : NativeCode) (p : Processor) (coord bound : Register)
    (n : Nat) : Prop :=
  ∃ c, p.reg coord = .nat c ∧
    (c < n ∨ c = n ∧ ∃ m, p.position = m + 1 ∧
      code.At m [.mov coord bound, .aluImm .sub coord 1])

/-- The board is safe in a state of a run: the head lies on the grid, what is accessed in the
memory of the board lies in the cells, a division has a result, and a return behind the end of a
transaction finds the cells and the head that the transaction has found. -/
structure NativeCode.KeepsBoard (code : NativeCode) (board : Board) (s : Traced) : Prop where
  headX : code.HoldsCoordinate s.cpu .r11 .r13 board.width.toNat
  headY : code.HoldsCoordinate s.cpu .r12 .r14 board.height.toNat
  inside : ∀ instr mem size offset, code.instrs[s.cpu.position]? = some instr →
    instr.access? = some (mem, size) → s.cpu.address? mem = some (.board offset) →
      16 ≤ offset ∧ offset + size ≤ 16 + 16 * (board.width.toNat * board.height.toNat : Nat)
  divides : ∀ divisor, code.instrs[s.cpu.position]? = some (.idiv divisor) →
    ∃ n, s.cpu.reg divisor = .int n ∧ n ≠ 0 ∧ n ≠ -1 ∧
      ∃ next, s.cpu.step code.instrs code.place = .running next
  restores : code.instrs[s.cpu.position]? = some .ret → ∀ call callers,
    s.calls = call :: callers → call.leaving = true →
      call.saved = some ⟨s.cpu.cells, s.cpu.reg .r11, s.cpu.reg .r12⟩

/-! ## The host -/

/-- What the stub of a message relies on: the place of the result buffer, and the place where the
entry stub has saved the registers of the host, whose words are still there. -/
structure NativeCode.Recovers (code : NativeCode) (host : Host) (p : Processor) : Prop where
  results : p.reg .r15 = .results 0
  checkpoint : p.reg .rsi = .stack (-56)
  words : ∀ (i : Nat) (w : Word), (hostWords host code)[i]? = some w →
    p.read64 (.stack (8 * i - 56)) = some w

/-! ## Kinds of instructions -/

namespace Instr

/-- Whether an instruction changes nothing but the flags and registers for intermediate
values. -/
def isQuiet : Instr → Bool
  | mov dst _ | movImm dst _ | load dst _ | load32 dst _ | lea dst _ | setcc _ dst
  | alu _ dst _ | aluImm _ dst _ | imul dst _ | neg dst | shl dst _ | shr dst _
  | movzx dst _ => dst.isScratch
  | test .. | idiv _ | cqo | bind _ => true
  | _ => false

/-- Whether an instruction relies on what the entry stub has set up for the way back to the host:
it stores something in the result buffer, or it returns to the saved registers. -/
def isHostly : Instr → Bool
  | store ⟨.r15, _⟩ _ | mov .rsp .rsi => true
  | _ => false

/-- Whether nothing has to be the case for an instruction but that the head lies on the grid. -/
def isHarmless : Instr → Bool
  | load .. | store .. | load32 .. | store32 .. | pushMem .. | popMem .. | idiv .. | ret
  | mov .rsp .rsi => false
  | _ => true

/-- Whether nothing is noted of an instruction for the open calls. -/
def isUnnoted : Instr → Bool
  | call _ | ret | alu .sub .rsp _ | pop .r12 | popMem _ => false
  | store mem _ => mem.base ≠ .rbp
  | _ => true

end Instr

variable {p p' q : Processor} {place : Label → Option Nat} {code : NativeCode}
variable {calls : List OpenCall} {v v' : View} {s' : Traced}

/-- The open calls stay as they are. -/
theorem noteCalls_of_isUnnoted {instr : Instr} (h : instr.isUnnoted = true) :
    noteCalls p p' instr calls = calls := by
  have hhead (hnote : ∀ call : OpenCall, call.note p instr = call) :
      calls.modifyHead (·.note p instr) = calls := by
    cases calls with
    | nil => rfl
    | cons call calls => rw [List.modifyHead_cons, hnote]
  cases instr with
  | call | ret | popMem => cases h
  | alu op dst src =>
    cases op <;> first | exact hhead fun _ => rfl | skip
    cases dst <;> first | exact hhead fun _ => rfl | cases h
  | pop dst => cases dst <;> first | exact hhead fun _ => rfl | cases h
  | store mem src =>
    obtain ⟨base, disp⟩ := mem
    cases base <;> first | exact hhead fun _ => rfl | simp [Instr.isUnnoted] at h
  | _ => exact hhead fun _ => rfl

theorem isUnnoted_of_isQuiet {instr : Instr} (h : instr.isQuiet = true) :
    instr.isUnnoted = true := by
  cases instr with
  | alu op dst src =>
    cases op <;> first | rfl | skip
    cases dst <;> first | rfl | cases h
  | call | ret | pop | popMem | store => cases h
  | _ => rfl

/-! ## Intermediate values -/

/-- Nothing but the flags and registers for intermediate values has changed. -/
structure Processor.Recomputes (p p' : Processor) : Prop where
  rest : p' = { p with regs := p'.regs, flags := p'.flags }
  regs : ∀ r, r.isScratch = false → p'.reg r = p.reg r

theorem Processor.Recomputes.trans (h : p.Recomputes p') (h' : p'.Recomputes q) :
    p.Recomputes q := by
  refine ⟨?_, fun r hr => (h'.regs r hr).trans (h.regs r hr)⟩
  rw [h'.rest, h.rest]

theorem recomputes_withFlags (flags : Option Flags) : p.Recomputes (p.withFlags flags) :=
  ⟨rfl, fun _ _ => rfl⟩

theorem recomputes_setReg {dst : Register} (hdst : dst.isScratch = true) (w : Word) :
    p.Recomputes (p.setReg dst w) := by
  refine ⟨rfl, fun r hr => Registers.get_set_of_ne _ _ ?_⟩
  rintro rfl
  rw [hdst] at hr
  cases hr

theorem recomputes_bitwise {f : Int64 → Int64 → Int64} {dst : Register}
    (hdst : dst.isScratch = true) {a b : Word} (h : p.bitwise f dst a b = some p') :
    p.Recomputes p' := by
  unfold Processor.bitwise at h
  split at h
  · obtain rfl := Option.some.inj h
    exact (recomputes_setReg hdst _).trans (recomputes_withFlags _)
  · cases h

theorem recomputes_alu {op : AluOp} {dst : Register} (hdst : dst.isScratch = true) {b : Word}
    (h : p.alu op dst b = some p') : p.Recomputes p' := by
  cases op with
  | add | sub =>
    obtain ⟨w, -, rfl⟩ := Option.map_eq_some_iff.1 h
    exact (recomputes_setReg hdst w).trans (recomputes_withFlags _)
  | cmp =>
    obtain ⟨flags, -, rfl⟩ := Option.map_eq_some_iff.1 h
    exact recomputes_withFlags _
  | and | or | xor => exact recomputes_bitwise hdst h

theorem recomputes_of_perform {instr : Instr} (hquiet : instr.isQuiet = true)
    (h : p.perform place instr = some p') : p.Recomputes p' := by
  have hset {dst : Register} (hdst : dst.isScratch = true) (w : Word) (flags : Option Flags) :
      p.Recomputes ((p.setReg dst w).withFlags flags) :=
    (recomputes_setReg hdst w).trans (recomputes_withFlags flags)
  cases instr with
  | mov dst src | movImm dst imm =>
    obtain rfl := Option.some.inj h
    exact recomputes_setReg hquiet _
  | load dst mem | load32 dst mem =>
    obtain ⟨address, -, h⟩ := Option.bind_eq_some_iff.1 h
    obtain ⟨w, -, h⟩ := Option.bind_eq_some_iff.1 h
    obtain rfl := Option.some.inj h
    exact recomputes_setReg hquiet _
  | cqo =>
    obtain ⟨n, -, h⟩ := Option.bind_eq_some_iff.1 h
    obtain rfl := Option.some.inj h
    exact recomputes_setReg rfl _
  | lea dst mem | setcc cond dst | movzx dst src =>
    obtain ⟨w, -, h⟩ := Option.bind_eq_some_iff.1 h
    obtain rfl := Option.some.inj h
    exact recomputes_setReg hquiet _
  | alu op dst src =>
    simp only [Processor.perform] at h
    split at h
    · obtain rfl := Option.some.inj h
      exact hset hquiet _ _
    · exact recomputes_alu hquiet h
  | aluImm op dst imm => exact recomputes_alu hquiet h
  | test a b =>
    obtain ⟨m, -, h⟩ := Option.bind_eq_some_iff.1 h
    obtain ⟨n, -, h⟩ := Option.bind_eq_some_iff.1 h
    obtain rfl := Option.some.inj h
    exact recomputes_withFlags _
  | imul dst src =>
    obtain ⟨m, -, h⟩ := Option.bind_eq_some_iff.1 h
    obtain ⟨n, -, h⟩ := Option.bind_eq_some_iff.1 h
    obtain rfl := Option.some.inj h
    exact hset hquiet _ _
  | neg r | shl r amount | shr r amount =>
    obtain ⟨n, -, h⟩ := Option.bind_eq_some_iff.1 h
    obtain rfl := Option.some.inj h
    exact hset hquiet _ _
  | idiv divisor =>
    obtain ⟨n, -, h⟩ := Option.bind_eq_some_iff.1 h
    obtain ⟨high, -, h⟩ := Option.bind_eq_some_iff.1 h
    obtain ⟨low, -, h⟩ := Option.bind_eq_some_iff.1 h
    dsimp only at h
    split at h
    · cases h
    · split at h
      · obtain rfl := Option.some.inj h
        exact ((recomputes_setReg rfl _).trans (recomputes_setReg rfl _)).trans (recomputes_withFlags _)
      · cases h
  | bind label =>
    obtain rfl := Option.some.inj h
    exact ⟨rfl, fun _ _ => rfl⟩
  | _ => cases hquiet

/-- A quiet instruction is performed on what its operands are taken for. -/
theorem exists_blurred_of_next {instr : Instr} (hquiet : instr.isQuiet = true)
    (hinstr : code.instrs[p.position]? = some instr) (hnext : code.Next ⟨p, calls⟩ s') :
    ∃ q, (p.goTo (p.position + 1)).Recomputes q ∧
      (∀ r, q.reg r = p.reg r ∨ r ∈ instr.operands ∧ ∃ n, q.reg r = .int n) ∧
      q.perform code.place instr = some s'.cpu ∧ s'.calls = calls := by
  obtain ⟨other, q, hother, hq, hstep, hcalls⟩ := hnext
  obtain rfl : instr = other := Option.some.inj (hinstr.symm.trans hother)
  have hblurs : p.Recomputes q ∧
      ∀ r, q.reg r = p.reg r ∨ r ∈ instr.operands ∧ ∃ n, q.reg r = .int n := by
    rcases hq with rfl | ⟨-, hblurs⟩
    · exact ⟨⟨rfl, fun _ _ => rfl⟩, fun _ => .inl rfl⟩
    · refine ⟨⟨?_, fun r hr => ?_⟩, fun r => ?_⟩
      · rw [hblurs.rest]
      · rcases hblurs.regs r with hsame | ⟨-, hscratch, -⟩
        · exact hsame
        · rw [hscratch] at hr
          cases hr
      · rcases hblurs.regs r with hsame | ⟨hmem, -, -, hint⟩
        · exact .inl hsame
        · exact .inr ⟨hmem, hint⟩
  have hposition : q.position = p.position := by rw [hblurs.1.rest]
  obtain ⟨other, hother', hperform⟩ := NativeCode.exists_instr_of_step hstep
  rw [hposition] at hother' hperform
  obtain rfl : instr = other := Option.some.inj (hinstr.symm.trans hother')
  refine ⟨q.goTo (p.position + 1), ⟨?_, hblurs.1.regs⟩, hblurs.2, hperform, ?_⟩
  · rw [hblurs.1.rest]
    rfl
  · rw [hcalls, noteCalls_of_isUnnoted (isUnnoted_of_isQuiet hquiet)]

/-- Nothing but the flags and registers for intermediate values has changed. -/
structure View.Recomputes (v v' : View) : Prop where
  rest : v' = { v with regs := v'.regs, flags := v'.flags }
  regs : ∀ r, r.isScratch = false → r ≠ .rsp → v'.regs.get r = v.regs.get r

theorem View.Recomputes.agrees (h : v.Recomputes v') : v.Agrees v' := by
  have hregs (r : Register) (hr : r.isScratch = false) (hrsp : r ≠ .rsp) := h.regs r hr hrsp
  refine ⟨⟨hregs .rbp rfl (by decide), hregs .rsi rfl (by decide), hregs .r15 rfl (by decide), ?_⟩,
    hregs .rbx rfl (by decide), hregs .r11 rfl (by decide), hregs .r12 rfl (by decide),
    hregs .r13 rfl (by decide), hregs .r14 rfl (by decide), ?_⟩
  · rw [h.rest]
  · rw [h.rest]

theorem View.Recomputes.trans {v'' : View} (h : v.Recomputes v') (h' : v'.Recomputes v'') :
    v.Recomputes v'' := by
  refine ⟨?_, fun r hr hrsp => (h'.regs r hr hrsp).trans (h.regs r hr hrsp)⟩
  rw [h'.rest, h.rest]

theorem View.Recomputes.live (h : v.Recomputes v') : v'.live = v.live := by
  rw [h.rest]

theorem View.Recomputes.dead (h : v.Recomputes v') : v'.dead = v.dead := by
  rw [h.rest]

theorem View.Recomputes.rdi (h : v.Recomputes v') : v'.regs.rdi = v.regs.rdi :=
  h.regs .rdi rfl (by decide)

/-- The processor shows what has been recomputed. -/
theorem Processor.Shows.recomputes (hp : p.Shows v) (h : p.Recomputes p') :
    v.Recomputes (v.adopt p') ∧ p'.Shows (v.adopt p') := by
  have hrest := h.rest
  have hsame : p' = p.attach p' := by
    rw [hrest]
    rfl
  refine ⟨⟨?_, fun r hr hrsp => ?_⟩, ?_⟩
  · rw [hrest, View.adopt, hp.board, hp.results]
  · have hreg : p'.reg r = v.reg r := (h.regs r hr).trans (hp.reg r)
    exact hreg.trans (Registers.get_set_of_ne _ _ hrsp)
  · rw [hsame]
    refine hp.adopt ((h.regs .rsp rfl).trans ?_)
    rw [hp.reg]
    rfl

/-! ## Stages -/

/-- A program with its native code and the board that it is started on, with the ends of the code
of its routines and the registers of the host. -/
structure Stage extends Setting where
  first : Nat
  last : Nat

open NativeCode (shows_release)

namespace Stage

/-- A state of a run keeps to what native code may do: while routines run, the board is safe and
variables are accessed in their own words.  At the end there is a fault or a board, and on the way
there the host can be returned to. -/
structure Guarded (stage : Stage) (s : Traced) : Prop where
  running : stage.first ≤ s.cpu.position → s.cpu.position < stage.last →
    stage.code.KeepsBoard stage.board s ∧
      stage.code.KeepsVariables stage.program stage.entry stage.routines stage.board s
  ended : stage.code.instrs.size ≤ s.cpu.position → s.cpu.reg .rax = .int sentinel ∨
    ∃ board, stage.board.updateFromBytes (s.cpu.board.toList.flatMap wordBytes) = .ok board
  recovers : ∀ instr, stage.code.instrs[s.cpu.position]? = some instr → instr.isHostly = true →
    stage.code.Recovers stage.host s.cpu

/-- Runs from a view on keep to what native code may do for a number of steps. -/
def Tends (stage : Stage) (k : Nat) (calls : List OpenCall) (v : View) (n : Nat) : Prop :=
  ∀ p : Processor, p.Shows v → p.position = n → stage.code.SafeFor stage.Guarded k ⟨p, calls⟩

/-- Runs from a view on keep to what native code may do for fewer steps. -/
def Soon (stage : Stage) (k : Nat) (calls : List OpenCall) (v : View) (n : Nat) : Prop :=
  ∀ j < k, stage.Tends j calls v n

/-- What native code may do is the case in a view. -/
def GuardAt (stage : Stage) (calls : List OpenCall) (v : View) (n : Nat) : Prop :=
  ∀ p : Processor, p.Shows v → p.position = n → stage.Guarded ⟨p, calls⟩

variable {stage : Stage} {k n m : Nat} {calls : List OpenCall} {v v' : View} {p p' : Processor}
variable {s' : Traced}

theorem Tends.soon (h : stage.Tends k calls v n) : stage.Soon k calls v n :=
  fun _ hj p hp hposition => (h p hp hposition).mono (Nat.le_of_lt hj)

theorem Tends.soon_succ (h : stage.Tends k calls v n) : stage.Soon (k + 1) calls v n :=
  fun _ hj p hp hposition => (h p hp hposition).mono (Nat.le_of_lt_succ hj)

theorem Soon.tends (h : stage.Soon (k + 1) calls v n) : stage.Tends k calls v n :=
  h k (Nat.lt_succ_self k)

theorem Soon.mono {j : Nat} (h : stage.Soon k calls v n) (hle : j ≤ k) : stage.Soon j calls v n :=
  fun i hi => h i (Nat.lt_of_lt_of_le hi hle)

/-! ## Steps -/

/-- An instruction that the processor performs is the only way to go on. -/
theorem eq_of_next {code : NativeCode} {instr : Instr}
    (hinstr : code.instrs[p.position]? = some instr)
    (hperform : (p.goTo (p.position + 1)).perform code.place instr = some p')
    (hnext : code.Next ⟨p, calls⟩ s') : s' = ⟨p', noteCalls p p' instr calls⟩ := by
  have hstep : p.step code.instrs code.place = .running p' := by
    simp only [Processor.step, hinstr, hperform]
  obtain ⟨other, q, hother, hq, hrun, hcalls⟩ := hnext
  obtain rfl : instr = other := Option.some.inj (hinstr.symm.trans hother)
  have hq : q = p := by
    rcases hq with hq | ⟨hstopped, -⟩
    · exact hq
    · rw [hstep] at hstopped
      cases hstopped
  subst hq
  have hcpu : p' = s'.cpu := Processor.Progress.running.inj (hstep.symm.trans hrun)
  subst hcpu
  cases s'
  simp only [Traced.mk.injEq]
  exact ⟨trivial, hcalls⟩

/-- What the runs from a view on keep to, given by the states after one step. -/
theorem tends_of_next (hguard : stage.GuardAt calls v n)
    (h : ∀ p : Processor, p.Shows v → p.position = n → ∀ s', stage.code.Next ⟨p, calls⟩ s' →
      ∃ v', s'.cpu.Shows v' ∧ stage.Soon k s'.calls v' s'.cpu.position) :
    stage.Tends k calls v n := by
  intro p hp hposition
  cases k with
  | zero => trivial
  | succ k =>
    refine ⟨hguard p hp hposition, fun s' hnext => ?_⟩
    obtain ⟨v', hp', hsoon⟩ := h p hp hposition s' hnext
    exact hsoon k (Nat.lt_succ_self k) s'.cpu hp' rfl

/-- What the runs from a view on keep to, given by the effect of the next instruction. -/
theorem tends_of_perform {instr : Instr} (hinstr : stage.code.instrs[n]? = some instr)
    (hguard : stage.GuardAt calls v n)
    (h : ∀ p : Processor, p.Shows v → p.position = n → ∃ p' v',
      (p.goTo (n + 1)).perform stage.code.place instr = some p' ∧ p'.Shows v' ∧
        stage.Soon k (noteCalls p p' instr calls) v' p'.position) : stage.Tends k calls v n := by
  refine tends_of_next hguard fun p hp hposition s' hnext => ?_
  obtain ⟨p', v', hperform, hp', hsoon⟩ := h p hp hposition
  subst hposition
  obtain rfl := eq_of_next hinstr hperform hnext
  exact ⟨v', hp', hsoon⟩

/-- An instruction whose effect on the view is known. -/
theorem Tends.noted {calls' : List OpenCall} {instr : Instr}
    (hinstr : stage.code.instrs[n]? = some instr)
    (hview : v.perform instr = some v') (hguard : stage.GuardAt calls v n)
    (hnote : ∀ p p' : Processor, p.Shows v → noteCalls p p' instr calls = calls')
    (hrest : stage.Soon k calls' v' (n + 1)) : stage.Tends k calls v n := by
  refine tends_of_perform hinstr hguard fun p hp hposition => ?_
  have hgo : (p.goTo (n + 1)).Shows v := ⟨hp.regs, hp.flags, hp.board, hp.results, hp.words⟩
  obtain ⟨p', hperform, hp', hposition'⟩ := hgo.perform hview
  refine ⟨p', v', hperform, hp', ?_⟩
  rw [hnote p p' hp, hposition']
  exact hrest

/-- An instruction whose effect on the view is known and of which nothing is noted. -/
theorem Tends.instr {instr : Instr} (hinstr : stage.code.instrs[n]? = some instr)
    (hview : v.perform instr = some v') (hguard : stage.GuardAt calls v n)
    (hunnoted : instr.isUnnoted = true) (hrest : stage.Soon k calls v' (n + 1)) :
    stage.Tends k calls v n :=
  .noted hinstr hview hguard (fun _ _ _ => noteCalls_of_isUnnoted hunnoted) hrest

/-- An instruction that computes something in registers, given by what its operands are taken
for. -/
theorem Tends.blurred {instr : Instr} (hinstr : stage.code.instrs[n]? = some instr)
    (hquiet : instr.isQuiet = true) (hguard : stage.GuardAt calls v n)
    (hrest : ∀ (q p' : Processor) (v' : View),
      (∀ r, q.reg r = v.reg r ∨ r ∈ instr.operands ∧ ∃ a, q.reg r = .int a) →
      q.perform stage.code.place instr = some p' → v.Recomputes v' → p'.Shows v' →
        stage.Soon k calls v' (n + 1)) : stage.Tends k calls v n := by
  refine tends_of_next hguard fun p hp hposition s' hnext => ?_
  subst hposition
  obtain ⟨q, hblurs, hoperands, hperform, hcalls⟩ := exists_blurred_of_next hquiet hinstr hnext
  have hrecomputes := hblurs.trans (recomputes_of_perform hquiet hperform)
  have hgo : (p.goTo (p.position + 1)).Shows v :=
    ⟨hp.regs, hp.flags, hp.board, hp.results, hp.words⟩
  obtain ⟨hview, hshows⟩ := hgo.recomputes hrecomputes
  have hposition : s'.cpu.position = p.position + 1 := by
    rw [hrecomputes.rest]
    rfl
  refine ⟨_, hshows, ?_⟩
  rw [hcalls, hposition]
  exact hrest q s'.cpu _ (fun r => hp.reg r ▸ hoperands r) hperform hview hshows

/-- An instruction that computes something in registers, whatever it computes. -/
theorem Tends.quiet {instr : Instr} (hinstr : stage.code.instrs[n]? = some instr)
    (hquiet : instr.isQuiet = true) (hguard : stage.GuardAt calls v n)
    (hrest : ∀ v', v.Recomputes v' → stage.Soon k calls v' (n + 1)) : stage.Tends k calls v n :=
  .blurred hinstr hquiet hguard fun _ _ v' _ _ hv' _ => hrest v' hv'

/-! ## Branches -/

/-- A jump. -/
theorem Tends.jmp {label : Label} (hinstr : stage.code.instrs[n]? = some (.jmp label))
    (hplace : stage.code.place label = some m) (hguard : stage.GuardAt calls v n)
    (hrest : stage.Soon k calls v m) : stage.Tends k calls v n := by
  refine tends_of_perform hinstr hguard fun p hp _ =>
    ⟨p.goTo m, v, ?_, ⟨hp.regs, hp.flags, hp.board, hp.results, hp.words⟩, ?_⟩
  · simp [Processor.perform, hplace, Processor.goTo]
  · rw [noteCalls_of_isUnnoted rfl]
    exact hrest

/-- A conditional jump that is taken. -/
theorem Tends.taken {label : Label} {cond : Condition} {flags : Flags}
    (hinstr : stage.code.instrs[n]? = some (.jcc cond label)) (hflags : v.flags = some flags)
    (hcond : flags.holds cond = true) (hplace : stage.code.place label = some m)
    (hguard : stage.GuardAt calls v n) (hrest : stage.Soon k calls v m) :
    stage.Tends k calls v n := by
  refine tends_of_perform hinstr hguard fun p hp _ =>
    ⟨p.goTo m, v, ?_, ⟨hp.regs, hp.flags, hp.board, hp.results, hp.words⟩, ?_⟩
  · simp [Processor.perform, Processor.goTo, hp.flags, hflags, hcond, hplace]
  · rw [noteCalls_of_isUnnoted rfl]
    exact hrest

/-- A conditional jump that is not taken. -/
theorem Tends.passed {label : Label} {cond : Condition} {flags : Flags}
    (hinstr : stage.code.instrs[n]? = some (.jcc cond label)) (hflags : v.flags = some flags)
    (hcond : flags.holds cond = false) (hguard : stage.GuardAt calls v n)
    (hrest : stage.Soon k calls v (n + 1)) : stage.Tends k calls v n := by
  refine tends_of_perform hinstr hguard fun p hp _ =>
    ⟨p.goTo (n + 1), v, ?_, ⟨hp.regs, hp.flags, hp.board, hp.results, hp.words⟩, ?_⟩
  · simp [Processor.perform, Processor.goTo, hp.flags, hflags, hcond]
  · rw [noteCalls_of_isUnnoted rfl]
    exact hrest

/-- A conditional jump of which it is not known whether it is taken. -/
theorem Tends.branch {label : Label} {cond : Condition}
    (hinstr : stage.code.instrs[n]? = some (.jcc cond label))
    (hplace : stage.code.place label = some m) (hguard : stage.GuardAt calls v n)
    (htaken : stage.Soon k calls v m) (hpassed : stage.Soon k calls v (n + 1)) :
    stage.Tends k calls v n := by
  cases hflags : v.flags with
  | some flags =>
    cases hcond : flags.holds cond with
    | true => exact .taken hinstr hflags hcond hplace hguard htaken
    | false => exact .passed hinstr hflags hcond hguard hpassed
  | none =>
    -- Without flags the processor stops, whatever is taken for an integer.
    refine tends_of_next hguard fun p hp hposition s' hnext => ?_
    subst hposition
    obtain ⟨other, q, hother, hq, hstep, -⟩ := hnext
    have hnone : q.flags = none ∧ q.position = p.position := by
      rcases hq with rfl | ⟨-, hblurs⟩
      · exact ⟨hp.flags.trans hflags, rfl⟩
      · rw [hblurs.rest]
        exact ⟨hp.flags.trans hflags, rfl⟩
    obtain ⟨other, hother, hperform⟩ := NativeCode.exists_instr_of_step hstep
    rw [hnone.2, hinstr] at hother
    obtain rfl := Option.some.inj hother
    obtain ⟨flags, hflags', -⟩ := Option.bind_eq_some_iff.1 hperform
    have hflags' : q.flags = some flags := hflags'
    rw [hnone.1] at hflags'
    cases hflags'

/-- The place of a label. -/
theorem Tends.bind {label : Label} (hinstr : stage.code.instrs[n]? = some (.bind label))
    (hguard : stage.GuardAt calls v n) (hrest : stage.Soon k calls v (n + 1)) :
    stage.Tends k calls v n := by
  refine tends_of_perform hinstr hguard fun p hp _ =>
    ⟨p.goTo (n + 1), v, rfl, ⟨hp.regs, hp.flags, hp.board, hp.results, hp.words⟩, ?_⟩
  rw [noteCalls_of_isUnnoted rfl]
  exact hrest

/-- A call pushes the place behind it and is open from then on. -/
theorem Tends.call {label : Label} (hinstr : stage.code.instrs[n]? = some (.call label))
    (hplace : stage.code.place label = some m) (hguard : stage.GuardAt calls v n)
    (hrest : stage.Soon k (⟨n, -(8 * (v.live.length + 1 : Nat)), none, false, []⟩ :: calls)
      (v.push (.code (n + 1))) m) : stage.Tends k calls v n := by
  refine tends_of_perform hinstr hguard fun p hp hposition => ?_
  have hgo : (p.goTo (n + 1)).Shows v := ⟨hp.regs, hp.flags, hp.board, hp.results, hp.words⟩
  obtain ⟨p', hpush, hp', -⟩ := hgo.pushWord (.code (n + 1))
  refine ⟨p'.goTo m, v.push (.code (n + 1)), ?_,
    ⟨hp'.regs, hp'.flags, hp'.board, hp'.results, hp'.words⟩, ?_⟩
  · have hpush : (p.goTo (n + 1)).pushWord (.code (p.goTo (n + 1)).position) = some p' := hpush
    simp only [Processor.perform, hplace, hpush]
    rfl
  · have hlink : (p'.goTo m).reg .rsp = .stack (-(8 * (v.live.length + 1 : Nat))) :=
      hp'.reg .rsp
    simp only [noteCalls, hlink, hposition, Word.offset]
    exact hrest

/-- A return goes on at the place on top of the stack and ends the innermost call. -/
theorem Tends.ret (hinstr : stage.code.instrs[n]? = some .ret)
    (hpop : v.pop? = some (.code m, v')) (hguard : stage.GuardAt calls v n)
    (hrest : stage.Soon k calls.tail v' m) : stage.Tends k calls v n := by
  refine tends_of_perform hinstr hguard fun p hp _ => ?_
  have hgo : (p.goTo (n + 1)).Shows v := ⟨hp.regs, hp.flags, hp.board, hp.results, hp.words⟩
  obtain ⟨p', hp', hshows, -⟩ := hgo.popWord hpop
  refine ⟨p'.goTo m, v', ?_,
    ⟨hshows.regs, hshows.flags, hshows.board, hshows.results, hshows.words⟩, hrest⟩
  simp [Processor.perform, hp']

/-! ## The stack pointer -/

/-- The stack pointer is set to the address of an earlier word. -/
theorem Tends.setStackPointer {src : Register} {above below : List Word}
    (hinstr : stage.code.instrs[n]? = some (.mov .rsp src)) (hlive : v.live = above ++ below)
    (hsrc : v.reg src = .stack (-(8 * below.length))) (hguard : stage.GuardAt calls v n)
    (hrest : stage.Soon k calls { v with live := below, dead := above.reverse ++ v.dead } (n + 1)) :
    stage.Tends k calls v n := by
  refine tends_of_perform hinstr hguard fun p hp _ => ?_
  have hshows := shows_release hp hlive v.flags
  refine ⟨(p.goTo (n + 1)).setReg .rsp (.stack (-(8 * below.length))), _, ?_,
    ⟨hshows.regs, hp.flags, hp.board, hp.results, hshows.words⟩, ?_⟩
  · have hreg : (p.goTo (n + 1)).reg src = .stack (-(8 * below.length)) := (hp.reg src).trans hsrc
    rw [Processor.perform, hreg]
  · rw [noteCalls_of_isUnnoted rfl]
    exact hrest

/-- Words are dropped by moving the stack pointer. -/
theorem Tends.release {imm : Int32} {above below : List Word}
    (hinstr : stage.code.instrs[n]? = some (.aluImm .add .rsp imm))
    (hlive : v.live = above ++ below)
    (himm : imm.toInt64.toInt = 8 * above.length) (hguard : stage.GuardAt calls v n)
    (hrest : stage.Soon k calls { v with live := below, dead := above.reverse ++ v.dead, flags := none }
      (n + 1)) : stage.Tends k calls v n := by
  refine tends_of_perform hinstr hguard fun p hp _ => ?_
  have hgo : (p.goTo (n + 1)).Shows v := ⟨hp.regs, hp.flags, hp.board, hp.results, hp.words⟩
  obtain ⟨p', hperform, hposition, hp'⟩ :=
    NativeCode.exists_release hgo hlive himm stage.code.place
  refine ⟨p', _, hperform, hp', ?_⟩
  rw [noteCalls_of_isUnnoted rfl, hposition]
  exact hrest

/-- Room for words is made by moving the stack pointer, where a transaction starts. -/
theorem Tends.reserve {src : Register} {size : Int64} {words : Nat} {call : OpenCall}
    (hinstr : stage.code.instrs[n]? = some (.alu .sub .rsp src)) (hsrc : v.reg src = .int size)
    (hsize : size.toInt = 8 * words) (hguard : stage.GuardAt (call :: calls) v n)
    (hrest : ∀ found : List Word, found.length = words → stage.Soon k
      ({ call with saved := some ⟨v.board.toList.drop 4, v.reg .r11, v.reg .r12⟩ } :: calls)
        { v with live := found ++ v.live, dead := [], flags := none } (n + 1)) :
    stage.Tends k (call :: calls) v n := by
  refine tends_of_perform hinstr hguard fun p hp _ => ?_
  have hgo : (p.goTo (n + 1)).Shows v := ⟨hp.regs, hp.flags, hp.board, hp.results, hp.words⟩
  obtain ⟨p', found, hperform, hposition, hfound, hp'⟩ :=
    NativeCode.exists_reserve hgo hsrc hsize stage.code.place
  refine ⟨p', _, hperform, hp', ?_⟩
  have hnote : noteCalls p p' (.alu .sub .rsp src) (call :: calls) =
      { call with saved := some ⟨v.board.toList.drop 4, v.reg .r11, v.reg .r12⟩ } :: calls := by
    rw [← hp.board, ← hp.reg, ← hp.reg]
    rfl
  rw [hnote, hposition]
  exact hrest found hfound

end Stage
end Native
end Gobstones
