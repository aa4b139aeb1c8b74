import Gobstones.Proofs.Native.Guards
/-!
# Roles of registers

This module says which registers the code of routines writes.  The entry stub sets up some
registers once and for all: where the cells and the result buffer are, how large the grid is, and
where the registers of the host have been saved.  No instruction of a routine writes to them.  The
registers of the head are written by the code that moves the head and by the end of a
transaction, which takes the head back.

This is so whatever a program contains.  What the code leaves on the stack is another matter.

Main definitions:

- {lit}`Instr.writes`: the registers that an instruction writes.
- {lit}`Register.isReserved`: the registers that are set up once.
- {lit}`KeepsRoles`: code in which registers keep their roles.

Main results:

- Theorem {lit}`NativeCode.reg_of_next`: a step changes nothing but the registers that its
  instruction writes.
- Theorem {lit}`Emitted.keepsRoles`: the code of all routines keeps the roles of registers.
-/

namespace Gobstones
namespace Native

/-! ## Written registers -/

/-- The registers that an instruction writes. -/
def Instr.writes : Instr → List Register
  | .mov dst _ | .movImm dst _ | .load dst _ | .load32 dst _ | .lea dst _ | .imul dst _ | .neg dst
  | .shl dst _ | .shr dst _ | .setcc _ dst | .movzx dst _ => [dst]
  | .alu .cmp _ _ | .aluImm .cmp _ _ => []
  | .alu _ dst _ | .aluImm _ dst _ => [dst]
  | .idiv _ => [.rax, .rdx]
  | .cqo => [.rdx]
  | .pop dst => [.rsp, dst]
  | .push _ | .pushImm _ | .pushMem _ | .popMem _ | .call _ | .ret => [.rsp]
  | .store .. | .store32 .. | .test .. | .jmp _ | .jcc .. | .bind _ => []

variable {p p' : Processor} {place : Label → Option Nat} {r dst : Register} {w : Word}

namespace Processor

theorem reg_setReg_self : (p.setReg r w).reg r = w :=
  Registers.get_set_self _ _ _

theorem reg_setReg_of_ne (h : r ≠ dst) : (p.setReg dst w).reg r = p.reg r :=
  Registers.get_set_of_ne _ _ h

theorem reg_of_write64 {address : Word} (h : p.write64 address w = some p') :
    p'.reg r = p.reg r := by
  rw [reg, reg, (write64_keeps h).1]

theorem reg_of_write32 {address : Word} {n : UInt32} (h : p.write32 address n = some p') :
    p'.reg r = p.reg r := by
  unfold write32 at h
  split at h
  · obtain ⟨i, -, h⟩ := Option.bind_eq_some_iff.1 h
    split at h
    · obtain rfl := Option.some.inj h
      rfl
    · cases h
  · cases h

theorem reg_of_pushWord (h : p.pushWord w = some p') (hr : r ≠ .rsp) : p'.reg r = p.reg r := by
  obtain ⟨top, -, h⟩ := Option.bind_eq_some_iff.1 h
  exact (reg_of_write64 h).trans (reg_setReg_of_ne hr)

theorem reg_of_popWord (h : p.popWord = some (w, p')) (hr : r ≠ .rsp) : p'.reg r = p.reg r := by
  obtain ⟨_, -, h⟩ := Option.bind_eq_some_iff.1 h
  obtain ⟨_, -, h⟩ := Option.bind_eq_some_iff.1 h
  obtain rfl := (Prod.mk.inj (Option.some.inj h)).2
  exact reg_setReg_of_ne hr

theorem reg_of_alu {op : AluOp} {b : Word} (h : p.alu op dst b = some p')
    (hr : op ≠ .cmp → r ≠ dst) : p'.reg r = p.reg r := by
  have hbits {f : Int64 → Int64 → Int64} {a : Word} (hne : r ≠ dst)
      (h : p.bitwise f dst a b = some p') : p'.reg r = p.reg r := by
    unfold bitwise at h
    split at h
    · obtain rfl := Option.some.inj h
      exact reg_setReg_of_ne hne
    · cases h
  cases op with
  | add | sub =>
    obtain ⟨_, -, rfl⟩ := Option.map_eq_some_iff.1 h
    exact reg_setReg_of_ne (hr (by decide))
  | cmp =>
    obtain ⟨_, -, rfl⟩ := Option.map_eq_some_iff.1 h
    rfl
  | and | or | xor => exact hbits (hr (by decide)) h

/-- Performing an instruction changes nothing but the registers that it writes. -/
theorem reg_of_perform {instr : Instr} (h : p.perform place instr = some p')
    (hr : r ∉ instr.writes) : p'.reg r = p.reg r := by
  have hne {other : Register} (hmem : other ∈ instr.writes) : r ≠ other :=
    fun hsame => hr (hsame ▸ hmem)
  cases instr with
  | mov dst src | movImm dst imm =>
    obtain rfl := Option.some.inj h
    exact reg_setReg_of_ne (hne List.mem_cons_self)
  | load dst mem | load32 dst mem =>
    obtain ⟨_, -, h⟩ := Option.bind_eq_some_iff.1 h
    obtain ⟨_, -, h⟩ := Option.bind_eq_some_iff.1 h
    obtain rfl := Option.some.inj h
    exact reg_setReg_of_ne (hne List.mem_cons_self)
  | lea dst mem | setcc cond dst | movzx dst src | cqo | neg dst | shl dst amount
  | shr dst amount =>
    obtain ⟨_, -, h⟩ := Option.bind_eq_some_iff.1 h
    obtain rfl := Option.some.inj h
    exact reg_setReg_of_ne (hne List.mem_cons_self)
  | imul dst src =>
    obtain ⟨_, -, h⟩ := Option.bind_eq_some_iff.1 h
    obtain ⟨_, -, h⟩ := Option.bind_eq_some_iff.1 h
    obtain rfl := Option.some.inj h
    exact reg_setReg_of_ne (hne List.mem_cons_self)
  | alu op dst src =>
    have hdst : op ≠ .cmp → r ≠ dst := by
      intro hop
      cases op <;> first | exact hne List.mem_cons_self | exact (hop rfl).elim
    simp only [perform] at h
    split at h
    · next hclears =>
      obtain rfl := Option.some.inj h
      exact reg_setReg_of_ne (hdst (by rw [hclears.1]; decide))
    · exact reg_of_alu h hdst
  | aluImm op dst imm =>
    refine reg_of_alu h fun hop => ?_
    cases op <;> first | exact hne List.mem_cons_self | exact (hop rfl).elim
  | test a b =>
    obtain ⟨_, -, h⟩ := Option.bind_eq_some_iff.1 h
    obtain ⟨_, -, h⟩ := Option.bind_eq_some_iff.1 h
    obtain rfl := Option.some.inj h
    rfl
  | idiv divisor =>
    obtain ⟨_, -, h⟩ := Option.bind_eq_some_iff.1 h
    obtain ⟨_, -, h⟩ := Option.bind_eq_some_iff.1 h
    obtain ⟨_, -, h⟩ := Option.bind_eq_some_iff.1 h
    dsimp only at h
    split at h
    · cases h
    · split at h
      · obtain rfl := Option.some.inj h
        exact (reg_setReg_of_ne (hne (List.mem_cons_of_mem _ List.mem_cons_self))).trans
          (reg_setReg_of_ne (hne List.mem_cons_self))
      · cases h
  | store mem src =>
    obtain ⟨_, -, h⟩ := Option.bind_eq_some_iff.1 h
    exact reg_of_write64 h
  | store32 mem src =>
    obtain ⟨_, -, h⟩ := Option.bind_eq_some_iff.1 h
    obtain ⟨_, -, h⟩ := Option.bind_eq_some_iff.1 h
    exact reg_of_write32 h
  | push src | pushImm imm => exact reg_of_pushWord h (hne List.mem_cons_self)
  | pushMem mem =>
    obtain ⟨_, -, h⟩ := Option.bind_eq_some_iff.1 h
    obtain ⟨_, -, h⟩ := Option.bind_eq_some_iff.1 h
    exact reg_of_pushWord h (hne List.mem_cons_self)
  | pop dst =>
    obtain ⟨⟨_, popped⟩, hpop, h⟩ := Option.bind_eq_some_iff.1 h
    obtain rfl := Option.some.inj h
    exact (reg_setReg_of_ne (hne (List.mem_cons_of_mem _ List.mem_cons_self))).trans
      (reg_of_popWord hpop (hne List.mem_cons_self))
  | popMem mem =>
    obtain ⟨⟨_, popped⟩, hpop, h⟩ := Option.bind_eq_some_iff.1 h
    obtain ⟨_, -, h⟩ := Option.bind_eq_some_iff.1 h
    exact (reg_of_write64 h).trans (reg_of_popWord hpop (hne List.mem_cons_self))
  | jmp target =>
    obtain ⟨_, -, h⟩ := Option.bind_eq_some_iff.1 h
    obtain rfl := Option.some.inj h
    rfl
  | jcc cond target =>
    obtain ⟨_, -, h⟩ := Option.bind_eq_some_iff.1 h
    split at h
    · obtain ⟨_, -, h⟩ := Option.bind_eq_some_iff.1 h
      obtain rfl := Option.some.inj h
      rfl
    · obtain rfl := Option.some.inj h
      rfl
  | call target =>
    obtain ⟨_, -, h⟩ := Option.bind_eq_some_iff.1 h
    obtain ⟨pushed, hpush, h⟩ := Option.bind_eq_some_iff.1 h
    obtain rfl := Option.some.inj h
    exact (reg_of_pushWord hpush (hne List.mem_cons_self) : pushed.reg r = p.reg r)
  | ret =>
    obtain ⟨popped, hpop, h⟩ := Option.bind_eq_some_iff.1 h
    split at h
    · obtain rfl := Option.some.inj h
      exact (reg_of_popWord hpop (hne List.mem_cons_self) : _ = p.reg r)
    · cases h
  | bind label =>
    obtain rfl := Option.some.inj h
    rfl

end Processor

/-- A step of a run changes no registers but those that its instruction writes, and those for
intermediate values, in which addresses may be taken for integers. -/
theorem NativeCode.reg_of_next {code : NativeCode} {s s' : Traced} {instr : Instr}
    (h : code.Next s s') (hinstr : code.instrs[s.cpu.position]? = some instr)
    (hr : r ∉ instr.writes) (hscratch : r.isScratch = false) : s'.cpu.reg r = s.cpu.reg r := by
  obtain ⟨other, q, hother, hq, hstep, -⟩ := h
  obtain rfl : instr = other := Option.some.inj (hinstr.symm.trans hother)
  have hblurred : q.reg r = s.cpu.reg r ∧ q.position = s.cpu.position := by
    rcases hq with rfl | ⟨-, hblurs⟩
    · exact ⟨rfl, rfl⟩
    · refine ⟨(hblurs.regs r).resolve_right ?_, by rw [hblurs.rest]⟩
      rintro ⟨-, hr, -⟩
      rw [hscratch] at hr
      cases hr
  obtain ⟨other, hother, hperform⟩ := NativeCode.exists_instr_of_step hstep
  rw [hblurred.2, hinstr] at hother
  obtain rfl := Option.some.inj hother
  exact (Processor.reg_of_perform hperform hr).trans hblurred.1

/-! ## Roles -/

/-- Whether a register is set up by the entry stub and has the same word from then on.  One of them
has no use at all. -/
def Register.isReserved : Register → Bool
  | rbx | rsi | r8 | r13 | r14 | r15 => true
  | _ => false

/-- Whether a register holds a coordinate of the head. -/
def Register.isHead : Register → Bool
  | r11 | r12 => true
  | _ => false

/-- Whether an instruction writes to no register that is set up once. -/
def Instr.isDiscreet (instr : Instr) : Bool :=
  instr.writes.all fun r => !r.isReserved

/-- Whether an instruction writes to no register of the head. -/
def Instr.isStill (instr : Instr) : Bool :=
  instr.writes.all fun r => !r.isHead

/-- Code that moves the head: that of one of three builtins, or the end of a transaction with the
return after it. -/
def MovesHead (stubs : List (String × Label)) (piece : List Instr) : Prop :=
  (∃ name ∈ ["Move", "GoToBoundary", "GoToOrigin"], BuiltinCode stubs name piece) ∨
    ∃ n, LeaveCode n piece

/-- Registers keep their roles in a piece of code: those that are set up once are not written, and
the head is moved by the code for that only. -/
structure KeepsRoles (stubs : List (String × Label)) (instrs : List Instr) : Prop where
  reserved : ∀ instr ∈ instrs, instr.isDiscreet = true
  head : ∃ pieces : List (List Instr), instrs = pieces.flatten ∧
    ∀ piece ∈ pieces, MovesHead stubs piece ∨ ∀ instr ∈ piece, instr.isStill = true

variable {stubs : List (String × Label)} {instrs first second : List Instr} {name : String}

theorem KeepsRoles.append (h : KeepsRoles stubs first) (h' : KeepsRoles stubs second) :
    KeepsRoles stubs (first ++ second) where
  reserved := List.forall_mem_append.2 ⟨h.reserved, h'.reserved⟩
  head := by
    obtain ⟨pieces, rfl, hpieces⟩ := h.head
    obtain ⟨others, rfl, hothers⟩ := h'.head
    exact ⟨pieces ++ others, List.flatten_append.symm,
      List.forall_mem_append.2 ⟨hpieces, hothers⟩⟩

/-- Code that writes neither to the head nor to registers that are set up once. -/
theorem KeepsRoles.of_all
    (h : instrs.all (fun instr => instr.isDiscreet && instr.isStill) = true) :
    KeepsRoles stubs instrs := by
  have hall (instr : Instr) (hmem : instr ∈ instrs) :=
    Bool.and_eq_true_iff.1 (List.all_eq_true.1 h instr hmem)
  exact ⟨fun instr hmem => (hall instr hmem).1, [instrs], by simp,
    List.forall_mem_singleton.2 (.inr fun instr hmem => (hall instr hmem).2)⟩

theorem KeepsRoles.nil : KeepsRoles stubs [] :=
  .of_all rfl

theorem KeepsRoles.flatten {parts : List (List Instr)}
    (h : ∀ part ∈ parts, KeepsRoles stubs part) : KeepsRoles stubs parts.flatten := by
  induction parts with
  | nil => exact .nil
  | cons part parts ih =>
    rw [List.forall_mem_cons] at h
    exact h.1.append (ih h.2)

/-- Code that moves the head. -/
theorem MovesHead.keepsRoles (h : MovesHead stubs instrs)
    (hreserved : instrs.all Instr.isDiscreet = true) : KeepsRoles stubs instrs :=
  ⟨List.all_eq_true.1 hreserved, [instrs], by simp, List.forall_mem_singleton.2 (.inl h)⟩

/-! ## Builtins -/

theorem keepsRoles_of_plainCode? (hne : name ≠ "GoToOrigin") (h : plainCode? name = some instrs) :
    KeepsRoles stubs instrs := by
  unfold plainCode? at h
  split at h <;> first | exact (hne rfl).elim | (cases h <;> exact .of_all rfl)

/-- Of the builtins, three move the head, and no other one writes to its registers. -/
theorem keepsRoles_of_builtinCode (h : BuiltinCode stubs name instrs) :
    KeepsRoles stubs instrs := by
  have hcode := h
  unfold BuiltinCode at h
  split at h
  · obtain ⟨enough, labels, fault0, fault1, fault2, fault3, -, rfl⟩ := h
    exact .of_all rfl
  · have hmoves : MovesHead stubs instrs := .inl ⟨"Move", by simp, hcode⟩
    obtain ⟨labels, fault0, fault1, fault2, fault3, -, rfl⟩ := h
    exact hmoves.keepsRoles rfl
  · have hmoves : MovesHead stubs instrs := .inl ⟨"GoToBoundary", by simp, hcode⟩
    obtain ⟨labels, rfl⟩ := h
    exact hmoves.keepsRoles rfl
  · obtain ⟨labels, rfl⟩ := h
    exact .of_all rfl
  · obtain ⟨top, done, rfl⟩ := h
    exact .of_all rfl
  · obtain ⟨negative, top, skip, done, -, rfl⟩ := h
    exact .of_all rfl
  · obtain ⟨byZero, normal, exact, done, -, rfl⟩ := h
    exact .of_all rfl
  · obtain ⟨byZero, normal, exact, done, -, rfl⟩ := h
    exact .of_all rfl
  · by_cases horigin : name = "GoToOrigin"
    · subst horigin
      have hmoves : MovesHead stubs instrs := .inl ⟨"GoToOrigin", by simp, hcode⟩
      obtain rfl := Option.some.inj h
      exact hmoves.keepsRoles rfl
    · exact keepsRoles_of_plainCode? horigin h

/-! ## Instructions -/

theorem keepsRoles_of_failCode {cause : FaultCause} (h : FailCode stubs cause instrs) :
    KeepsRoles stubs instrs := by
  obtain ⟨label, -, rfl⟩ := h
  exact .of_all rfl

theorem keepsRoles_of_readCode {layout : FrameLayout} (h : ReadCode layout stubs name instrs) :
    KeepsRoles stubs instrs := by
  obtain ⟨memory, label, -, -, rfl⟩ := h
  exact .of_all rfl

theorem keepsRoles_of_reads {layout : FrameLayout} {names : List String} {reads : List (List Instr)}
    (h : List.Forall₂ (fun name => ReadCode layout stubs (Polyname.base name)) names reads) :
    KeepsRoles stubs reads.flatten := by
  induction h with
  | nil => exact .nil
  | cons hread _ ih => exact (keepsRoles_of_readCode hread).append ih

theorem all_of_dropWords {n : Nat} (h : dropWords n = .ok instrs) :
    instrs.all (fun instr => instr.isDiscreet && instr.isStill) = true := by
  unfold dropWords at h
  split at h
  · obtain rfl := Except.ok.inj h
    rfl
  · obtain ⟨disp, -, rfl⟩ := exists_of_map_eq_ok h
    rfl

theorem keepsRoles_of_returnCode {n : Nat} (h : ReturnCode n instrs) : KeepsRoles stubs instrs := by
  obtain ⟨drop, hdrop, rfl⟩ := h
  exact (KeepsRoles.of_all (all_of_dropWords hdrop)).append (.of_all rfl)

/-- The end of a transaction takes the head back. -/
theorem keepsRoles_of_leaveCode {n : Nat} (h : LeaveCode n instrs) : KeepsRoles stubs instrs := by
  have hmoves : MovesHead stubs instrs := .inr ⟨n, h⟩
  obtain ⟨drop, top, done, hdrop, rfl⟩ := h
  have hdrop : drop.all Instr.isDiscreet = true :=
    List.all_eq_true.2 (@KeepsRoles.of_all stubs _ (all_of_dropWords hdrop)).reserved
  refine hmoves.keepsRoles ?_
  rw [List.append_assoc, List.all_append, hdrop]
  rfl

variable {rc : RoutineCompiler}

theorem keepsRoles_of_pushResults {n : Nat} (h : RoutineCompiler.pushResults n = .ok instrs) :
    KeepsRoles stubs instrs := by
  unfold RoutineCompiler.pushResults at h
  split at h
  · cases h
  clear * - h
  generalize List.range n = indices at h
  induction indices generalizing instrs with
  | nil =>
    obtain rfl := Except.ok.inj h
    exact .nil
  | cons i indices ih =>
    rw [List.mapM_cons] at h
    obtain ⟨first, hfirst, h⟩ := exists_of_bind_eq_ok h
    obtain ⟨others, hothers, h⟩ := exists_of_bind_eq_ok h
    obtain rfl := Except.ok.inj h
    obtain ⟨mem, -, rfl⟩ := exists_of_map_eq_ok hfirst
    have hpush : KeepsRoles stubs [.pushMem mem] := .of_all rfl
    exact hpush.append (ih hothers)

theorem keepsRoles_of_routineCallCode {home : Program} {callee : Routine} {argc : Nat}
    (h : rc.RoutineCallCode stubs home callee argc instrs) : KeepsRoles stubs instrs := by
  unfold RoutineCompiler.RoutineCallCode at h
  split at h
  · exact keepsRoles_of_failCode h
  · obtain ⟨label, drop, results, -, hdrop, hresults, rfl⟩ := h
    have hcall : KeepsRoles stubs [.call label] := .of_all rfl
    exact (hcall.append (.of_all (all_of_dropWords hdrop))).append
      (keepsRoles_of_pushResults hresults)

theorem keepsRoles_of_callCode {argc : Nat} (h : rc.CallCode stubs name argc instrs) :
    KeepsRoles stubs instrs := by
  unfold RoutineCompiler.CallCode at h
  split at h
  · exact keepsRoles_of_failCode h
  · split at h
    · exact keepsRoles_of_failCode h
    · exact keepsRoles_of_builtinCode h
  · exact keepsRoles_of_routineCallCode h
  · exact keepsRoles_of_routineCallCode h

theorem keepsRoles_jumpUnlessListed (words : List Int64) (matched target : Label) :
    KeepsRoles stubs (RoutineCompiler.jumpUnlessListed words matched target) := by
  have hword (word : Int64) : KeepsRoles stubs (compareWord word ++ [.jcc .e matched]) := by
    unfold compareWord
    split <;> exact .of_all rfl
  have hwords : KeepsRoles stubs
      (words.flatMap fun word => compareWord word ++ [.jcc .e matched]) := by
    rw [List.flatMap]
    exact .flatten (List.forall_mem_map.2 fun word _ => hword word)
  have hpop : KeepsRoles stubs [.pop .rax] := .of_all rfl
  exact (hpop.append hwords).append (.of_all rfl)

/-- The code of every instruction keeps the roles of registers. -/
theorem keepsRoles_of_instructionCode {instruction : Instruction}
    (h : rc.InstructionCode stubs instruction instrs) : KeepsRoles stubs instrs := by
  cases instruction with
  | pushConst value =>
    obtain ⟨word, -, -, rfl⟩ := h
    unfold pushWord
    split <;> exact .of_all rfl
  | pushFrom name => exact keepsRoles_of_readCode h
  | popTo name | delVar name =>
    obtain ⟨memory, -, rfl⟩ := h
    exact .of_all rfl
  | setImmutable name | unsetImmutable name =>
    obtain rfl := h
    exact .nil
  | label name | jump name | jumpIfFalse name =>
    obtain ⟨label, -, rfl⟩ := h
    exact .of_all rfl
  | jumpIfNotIn values name =>
    obtain ⟨target, matched, words, -, -, rfl⟩ := h
    exact keepsRoles_jumpUnlessListed words matched target
  | raise message => exact keepsRoles_of_failCode h
  | call name argc => exact keepsRoles_of_callCode h
  | ret n => exact keepsRoles_of_returnCode h
  | returnVars n names =>
    obtain ⟨reads, last, hreads, hlast, rfl⟩ := h
    exact (keepsRoles_of_reads hreads).append (keepsRoles_of_returnCode hlast)
  | enter =>
    obtain ⟨top, done, rfl⟩ := h
    exact .of_all rfl
  | leave => exact h.elim

/-! ## Routines -/

theorem keepsRoles_of_translates {code : List Instruction} (h : rc.Translates stubs code instrs) :
    KeepsRoles stubs instrs := by
  induction h with
  | nil => exact .nil
  | leave hfirst _ ih => exact (keepsRoles_of_leaveCode hfirst).append ih
  | cons hfirst _ ih => exact (keepsRoles_of_instructionCode hfirst).append ih

theorem keepsRoles_prologue (start : Label) (locals : Nat) :
    KeepsRoles stubs (prologue start locals) := by
  have hopen : KeepsRoles stubs [.bind start, .push .rbp, .mov .rbp .rsp] := .of_all rfl
  refine hopen.append ?_
  split
  · exact .nil
  · refine .of_all ?_
    rw [List.all_cons, List.all_replicate]
    simp [Instr.isDiscreet, Instr.isStill, Instr.writes, Register.isReserved, Register.isHead]

variable {em em' : Emitter} {routines : RoutineLabels} {home : Program} {routine : Routine}

/-- What is emitted between two emitters keeps the roles of registers. -/
def EmitsRoles (em em' : Emitter) : Prop :=
  ∃ instrs, em.Emits em' instrs ∧ ∀ stubs, em'.stubs ⊆ stubs → KeepsRoles stubs instrs

theorem emitsRoles_of_emitRoutine (h : emitRoutine routines home em routine = .ok em') :
    EmitsRoles em em' := by
  obtain ⟨labels, body, last, hemits, hcode⟩ := exists_parts_of_emitRoutine h
  refine ⟨_, hemits, fun stubs hstubs => ?_⟩
  obtain ⟨htranslates, hfail⟩ := hcode stubs hstubs
  exact ((keepsRoles_prologue _ _).append (keepsRoles_of_translates htranslates)).append
    (keepsRoles_of_failCode hfail)

/-- What is emitted for items one after the other keeps the roles of registers, if it does so for
every item. -/
theorem emitsRoles_of_foldlM {α : Type} {f : Emitter → α → Except NativeError Emitter}
    {items : List α} (hf : ∀ em em' item, f em item = .ok em' → EmitsRoles em em')
    (h : items.foldlM f em = .ok em') : EmitsRoles em em' := by
  induction items generalizing em with
  | nil =>
    obtain rfl := Except.ok.inj h
    exact ⟨[], .refl em, fun _ _ => .nil⟩
  | cons item items ih =>
    rw [List.foldlM_cons] at h
    obtain ⟨next, hnext, h⟩ := exists_of_bind_eq_ok h
    obtain ⟨first, hemits, hfirst⟩ := hf em next item hnext
    obtain ⟨rest, hemits', hrest⟩ := ih h
    exact ⟨_, hemits.trans hemits', fun stubs hstubs =>
      (hfirst stubs fun _ hmem => hstubs (hemits'.stubs hmem)).append (hrest stubs hstubs)⟩

/-! ## Programs -/

variable {program : Program} {opened closed : Emitter} {code : NativeCode}

/-- The code between the entry stub and the stubs of messages keeps the roles of registers. -/
theorem Emitted.keepsRoles (h : Emitted code program routines stubs opened closed) :
    KeepsRoles stubs
      ((code.instrs.toList.take closed.instrs.size).drop opened.instrs.size) := by
  obtain ⟨instrs, hemits, hroles⟩ := emitsRoles_of_foldlM
    (fun _ _ _ => emitsRoles_of_foldlM fun _ _ _ => emitsRoles_of_emitRoutine) h.emits
  have hcode : code.instrs.toList =
      opened.instrs.toList ++ (instrs ++ stubs.flatMap fun stub => faultStub stub.1 stub.2) := by
    rw [h.placed, hemits.instrs, List.append_assoc]
  have hsize : closed.instrs.size = opened.instrs.toList.length + instrs.length := by
    rw [← Array.length_toList, hemits.instrs, List.length_append]
  have hbody : (code.instrs.toList.take closed.instrs.size).drop opened.instrs.size = instrs := by
    rw [hsize, hcode, List.take_length_add_append, List.take_left, ← Array.length_toList,
      List.drop_left]
  rw [hbody]
  exact hroles stubs fun _ hmem => h.requested ▸ hmem

/-- Where an instruction lies says whether it is a part of the code of routines. -/
theorem NativeCode.mem_body {n first last : Nat} {instr : Instr}
    (hinstr : code.instrs[n]? = some instr) (hfirst : first ≤ n) (hlast : n < last) :
    instr ∈ (code.instrs.toList.take last).drop first := by
  refine List.mem_of_getElem? (i := n - first) ?_
  rw [List.getElem?_drop, Nat.add_sub_cancel' hfirst, List.getElem?_take_of_lt hlast,
    Array.getElem?_toList, hinstr]

/-- While a routine runs, the registers that are set up once stay as they are. -/
theorem Emitted.reg_of_next (h : Emitted code program routines stubs opened closed) {s s' : Traced}
    (hnext : code.Next s s') (hfirst : opened.instrs.size ≤ s.cpu.position)
    (hlast : s.cpu.position < closed.instrs.size) (hr : r.isReserved = true) :
    s'.cpu.reg r = s.cpu.reg r := by
  obtain ⟨instr, _, hinstr, -⟩ := id hnext
  have hmem := NativeCode.mem_body hinstr hfirst hlast
  refine NativeCode.reg_of_next hnext hinstr (fun hwrites => ?_) ?_
  · have hdiscreet := List.all_eq_true.1 (h.keepsRoles.reserved instr hmem) r hwrites
    rw [hr] at hdiscreet
    cases hdiscreet
  · cases r <;> first | rfl | cases hr

end Native
end Gobstones
