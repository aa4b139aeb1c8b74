import Gobstones.Check.Basic
import Gobstones.Proofs.Check.Calls
import Gobstones.Proofs.Check.Depths
import Gobstones.Proofs.Machine.Rollback
/-!
# Accepted programs do not go wrong

This module shows that the checks of programs are sound: a program that passes them,
together with the modules behind it, never fails for a reason that lies in its code.
All calls in progress share one operand stack.  It always holds the depth recorded at the
current instruction and, for every call that waits, what the caller had below the
arguments.  Procedures may leave more behind, which does no harm.

Main definitions:

- {lit}`Program.Verified`: all modules behind a program pass the checks.
- {lit}`Machine.Waiting`: the callers of a routine, with the values that they have kept.
- {lit}`Machine.Supported`: the stack and the open transactions suffice for the calls in
  progress.

Main results:

- Theorem {lit}`Machine.Supported.step`: a step keeps a machine supported.
- Theorem {lit}`Machine.fault_of_accepted`: the faults of accepted programs do not lie in
  their code.
-/

namespace Gobstones

/-! ## Verified programs -/

/-- All modules behind a program pass the checks of calls and stack depths. -/
structure Program.Measured (program : Program) : Prop where
  calls : ∀ home, program.Reaches home → home.callProblems = []
  depths : ∀ home, program.Reaches home → home.depthProblems = []

/-- All modules behind a program pass the checks of calls, transactions and stack depths. -/
structure Program.Verified (program : Program) : Prop extends program.Transactional where
  calls : ∀ home, program.Reaches home → home.callProblems = []
  depths : ∀ home, program.Reaches home → home.depthProblems = []

namespace Program

/-- A call that enters a routine leaves the results of the routine. -/
theorem effect_call_of_callee {program home : Program} {routine : Routine} {name : String}
    {argc : Nat} (h : program.callee? name = some (home, routine)) :
    program.effect (.call name argc) = (argc, routine.resultCount) := by
  unfold callee? at h
  unfold effect
  split at h
  · next hresolve =>
    obtain ⟨rfl, rfl⟩ := Prod.mk.inj (Option.some.inj h)
    simp [hresolve, CallTarget.resultCount]
  · next hresolve =>
    obtain ⟨rfl, rfl⟩ := Prod.mk.inj (Option.some.inj h)
    simp [hresolve, CallTarget.resultCount]
  · simp at h

/-- A sound call does not always fail. -/
theorem CallSound.alwaysFails_eq_false {program : Program} {routine : String}
    {instruction : Instruction} (h : program.CallSound routine instruction) :
    program.alwaysFails instruction = false := by
  cases instruction with
  | call name argc =>
    obtain ⟨target, hresolve, harity⟩ := h
    simp [alwaysFails, hresolve, harity]
  | _ => rfl

namespace Measured

variable {program home : Program} {routine : Routine} {position depth : Nat}
  {instruction : Instruction}

theorem callSound (h : program.Measured) (howns : program.Owns home routine)
    (hinstruction : routine.code[position]? = some instruction) :
    home.CallSound routine.name instruction :=
  callProblems_eq_nil_iff.1 (h.calls home howns.reaches) routine howns.mem instruction
    (Array.mem_of_getElem? hinstruction)

theorem depthsFit (h : program.Measured) (howns : program.Owns home routine) :
    home.DepthsFit routine (home.depthAt? routine) :=
  .of_mem (h.depths home howns.reaches) howns.mem

/-- Where a depth is recorded there is an instruction, and the depth is right for it. -/
theorem depthFits (h : program.Measured) (howns : program.Owns home routine)
    (hdepth : home.depthAt? routine position = some depth)
    (hinstruction : routine.code[position]? = some instruction) :
    home.DepthFits routine (fun q d => home.depthAt? routine q = some d) position depth
      instruction := by
  obtain ⟨other, hother, hfits⟩ := (h.depthsFit howns).closed position depth hdepth
  obtain rfl : instruction = other := by simpa [hinstruction] using hother
  exact hfits

/-- A routine goes on behind a call with its results in the place of the arguments. -/
theorem depthAt?_after_call (h : program.Measured) (howns : program.Owns home routine)
    (hdepth : home.depthAt? routine position = some depth) {name : String} {argc : Nat}
    (hcall : routine.code[position]? = some (.call name argc)) {target : Program}
    {callee : Routine} (hcallee : home.callee? name = some (target, callee)) :
    home.depthAt? routine (position + 1) = some (depth - argc + callee.resultCount) := by
  have hnext : position + 1 ∈ home.successors routine position (.call name argc) := by
    simp [successors, (h.callSound howns hcall).alwaysFails_eq_false]
  have hafter := (h.depthFits howns hdepth hcall).next _ hnext
  rwa [depthAfter, effect_call_of_callee hcallee] at hafter

end Measured

theorem Verified.measured {program : Program} (h : program.Verified) : program.Measured :=
  ⟨h.calls, h.depths⟩

end Program

/-- A return that passes the check leaves nothing else behind, and a function leaves with it
what its calls expect. -/
theorem Routine.returnProblems_eq_nil {routine : Routine} {position n depth : Nat}
    (hret : routine.code[position]? = some (.ret n))
    (h : routine.returnProblems position n depth = []) :
    depth = n ∧ (routine.kind = .function → routine.resultCount = n) := by
  unfold returnProblems at h
  obtain ⟨hmixed, hbalanced⟩ := List.append_eq_nil_iff.1 h
  refine ⟨by simpa using hbalanced, fun hkind => ?_⟩
  have hsome : routine.firstReturn?.isSome := by
    rw [firstReturn?, List.findSome?_isSome_iff]
    exact ⟨.ret n, by simpa using Array.mem_of_getElem? hret, rfl⟩
  obtain ⟨first, hfirst⟩ := Option.isSome_iff_exists.1 hsome
  simp only [hkind, hfirst] at hmixed
  simpa [resultCount, hkind, hfirst] using hmixed

namespace Machine

/-! ## Callers and what they have kept -/

/-- The callers of a routine, innermost first, and how many values they have kept below the
arguments of their calls. -/
inductive Waiting (program : Program) : Routine → List Activation → Nat → Prop where
  | nil {routine : Routine} : Waiting program routine [] 0
  | cons {routine : Routine} {home : Program} {caller : Activation} {callers : List Activation}
    {name : String} {argc depth kept : Nat}
    (howns : program.Owns caller.program caller.routine)
    (hcall : caller.instruction? = some (.call name argc))
    (hcallee : caller.program.callee? name = some (home, routine))
    (hdepth : caller.program.depthAt? caller.routine caller.ip = some depth)
    (h : Waiting program caller.routine callers kept) :
    Waiting program routine (caller :: callers) (depth - argc + kept)

/-- The operand stack and the open transactions suffice for the calls in progress. -/
structure Supported (program : Program) (top : Activation) (callers : List Activation)
    (machine : Machine) : Prop where
  frames : machine.frames = top :: callers
  owns : program.Owns top.program top.routine
  stack : ∃ depth kept, top.program.depthAt? top.routine top.ip = some depth ∧
    Waiting program top.routine callers kept ∧ depth + kept ≤ machine.stack.length
  archived : machine.frames.countP Activation.inTransaction ≤ machine.board.archived.length

variable {program : Program} {top : Activation} {callers : List Activation}
  {machine next : Machine} {instruction : Instruction}

/-- A return leaves at least what the calls of the routine expect. -/
theorem resultCount_le_of_return (hverified : program.Verified)
    (howns : program.Owns top.program top.routine) {depth : Nat}
    (hdepth : top.program.depthAt? top.routine top.ip = some depth)
    (hinstruction : top.instruction? = some instruction)
    (hreturn : (∃ n, instruction = .ret n) ∨ ∃ n names, instruction = .returnVars n names) :
    top.routine.resultCount ≤ depth := by
  by_cases hkind : top.routine.kind = .function
  · rcases hreturn with ⟨n, rfl⟩ | ⟨n, names, rfl⟩
    · have hfits := hverified.measured.depthFits howns hdepth hinstruction
      obtain ⟨hbalanced, hcount⟩ :=
        Routine.returnProblems_eq_nil hinstruction (hfits.ret_ok n rfl)
      rw [hcount hkind, hbalanced]
    · exact absurd (Array.mem_of_getElem? hinstruction)
        (hverified.returns _ howns.reaches _ howns.mem hkind n names)
  · simp [Routine.resultCount, hkind]

/-- Instructions that stay in an activation open and close as many transactions as the
activation has. -/
theorem Reboards.length_archived {board after : Board} {here : Activation}
    (hboard : Reboards board instruction after) (hbracketed : top.routine.Bracketed)
    (hinstruction : top.instruction? = some instruction)
    (hroutine : here.routine = top.routine)
    (hip : here.ip ∈ top.program.successors top.routine top.ip instruction)
    (h : (top :: callers).countP Activation.inTransaction ≤ board.archived.length) :
    (here :: callers).countP Activation.inTransaction ≤ after.archived.length := by
  obtain ⟨henter, hleave, hother⟩ :=
    Activation.inTransaction_stay hbracketed hinstruction hroutine hip
  rw [List.countP_cons] at h ⊢
  cases hboard with
  | enter =>
    rw [(henter rfl).2]
    simp only [(henter rfl).1, Bool.false_eq_true, if_false] at h
    simpa [Board.pushState] using h
  | leave hpop =>
    rw [(hleave rfl).2]
    simp only [(hleave rfl).1, if_true, Board.popState_eq_ok hpop] at h
    simpa using h
  | other hne hne' hrequest hnext =>
    rw [(hother hne hne').1, hnext, Board.archived_after hrequest]
    exact h

/-- A step keeps a machine supported. -/
theorem Supported.step (hverified : program.Verified) (h : Supported program top callers machine)
    (hstep : machine.step = (next, .running)) :
    ∃ top' callers', Supported program top' callers' next := by
  obtain ⟨first, others, instruction, hframes, hinstruction, hmoves⟩ := moves_of_step hstep
  obtain ⟨rfl, rfl⟩ : top = first ∧ callers = others := by simpa [hframes] using h.frames.symm
  obtain ⟨depth, kept, hdepth, hwaiting, hstack⟩ := h.stack
  have hbracketed := hverified.bracketed h.owns
  have hfits := hverified.measured.depthFits h.owns hdepth hinstruction
  have harchived := h.archived
  have hpops := hfits.pops_le
  cases hmoves with
  | @stay _ _ here hframes' hprogram hroutine hip _ _ hstack' hboard =>
    refine ⟨here, callers, hframes', by rw [hprogram, hroutine]; exact h.owns,
      ⟨_, kept, by rw [hprogram, hroutine]; exact hfits.next here.ip hip,
        hroutine ▸ hwaiting, ?_⟩, ?_⟩
    · rw [hstack', Program.depthAfter]
      omega
    · rw [hframes']
      exact hboard.length_archived hbracketed hinstruction hroutine hip (hframes ▸ harchived)
  | @call name argc _ home routine locals hcallee _ hframes' _ hstack' hboard =>
    have howns := h.owns.callee hcallee
    have hpops : argc ≤ depth := hpops
    refine ⟨.new home routine locals, top :: callers, by rw [hframes', hframes], howns,
      ⟨0, _, (hverified.measured.depthsFit howns).start,
        .cons h.owns hinstruction hcallee hdepth hwaiting, ?_⟩, ?_⟩
    · rw [hstack']
      omega
    · have hout : (Activation.new home routine locals).inTransaction = false :=
        (hverified.bracketed howns).inTransaction_zero
      rw [hframes', List.countP_cons, hout, hboard]
      simpa using harchived
  | @ret _ _ caller rest hcallers hframes' hreturn hstack' hboard =>
    subst hcallers
    have hresults := resultCount_le_of_return hverified h.owns hdepth hinstruction hreturn
    cases hwaiting with
    | @cons _ home _ _ name argc depth' kept' howns hcall hcallee hdepth' hwaiting' =>
      have hdepth'' := hverified.measured.depthAt?_after_call howns hdepth' hcall hcallee
      refine ⟨caller.advance, rest, hframes', howns, ⟨_, kept', hdepth'', hwaiting', ?_⟩, ?_⟩
      · rw [hstack']
        omega
      · have hsuspended : caller.Suspended := ⟨name, argc, hcall⟩
        have hout : top.inTransaction = false :=
          hverified.inTransaction_of_return h.owns hinstruction hreturn
        rw [hframes, List.countP_cons, List.countP_cons, hout] at harchived
        rw [hframes', List.countP_cons, hboard,
          hsuspended.inTransaction_advance (hverified.bracketed howns)]
        simpa using harchived

/-- A machine that starts supported stays so throughout its run. -/
theorem Supported.run (hverified : program.Verified) (h : Supported program top callers machine)
    {fuel : Nat} (hrun : machine.run fuel = (next, .running)) :
    ∃ top' callers', Supported program top' callers' next := by
  have hstep (before after : Machine) (hbefore : ∃ top callers, Supported program top callers before)
      (hafter : before.step = (after, .running)) :
      ∃ top callers, Supported program top callers after := by
    obtain ⟨_, _, hsupported⟩ := hbefore
    exact hsupported.step hverified hafter
  exact invariant_of_run hstep ⟨top, callers, h⟩ hrun

/-- A supported machine has no instruction to blame. -/
theorem Supported.not_blames (hverified : program.Verified)
    (h : Supported program top callers machine)
    (hinstruction : top.instruction? = some instruction) : ¬Blames machine top instruction := by
  obtain ⟨depth, kept, hdepth, -, hstack⟩ := h.stack
  have hfits := hverified.measured.depthFits h.owns hdepth hinstruction
  have hsound := hverified.measured.callSound h.owns hinstruction
  intro hblames
  cases hblames with
  | underflow hshort =>
    have := hfits.pops_le
    omega
  | jump hlabel hnone =>
    obtain ⟨target, htarget⟩ := Routine.exists_target? hinstruction hlabel
    simp [hnone] at htarget
  | call hfails => simp [hsound.alwaysFails_eq_false] at hfails
  | names hnames => exact hnames hsound.2
  | leave hpop =>
    have harchived := h.archived
    rw [Board.popState_eq_error hpop, h.frames, List.countP_cons] at harchived
    have hkind := (hverified.bracketed h.owns).kind_of_leave top.ip hinstruction
    have htop : top.inTransaction = true := by
      refine Routine.inTransaction_iff.2 ⟨hkind, ?_⟩
      rw [← Activation.instruction?, hinstruction]
      simp
    simp [htop] at harchived

/-! ## Accepted programs -/

/-- The failures of an accepted program do not lie in its code: there is no underflow of the
operand stack, no end of the code without a return, no jump without a destination, no
rollback without a transaction, no wrong number of returned variables, and no call of an
unknown routine or with the wrong number of arguments. -/
theorem fault_of_accepted (haccepted : program.Accepted) (hverified : program.Verified)
    {board : Board} {limit : Option Nat} {fuel : Nat} {fault : Fault}
    (h : (Machine.new program board limit).execute fuel = (machine, .failed fault)) :
    fault.kind ≠ .malformedBytecode ∧ fault.kind ≠ .undefinedRoutine ∧
      fault.kind ≠ .arityMismatch := by
  have hcode : ¬fault.kind.LiesInCode := by
    intro hkind
    have hentry : program.entryProblems = [] := by
      have hproblems := (List.append_eq_nil_iff.1 haccepted).1
      exact (List.append_eq_nil_iff.1 (List.append_eq_nil_iff.1 hproblems).1).1
    obtain ⟨entry, hentry⟩ := Program.isSome_entrypoint? hentry
    have howns := Program.owns_entrypoint hentry
    simp only [execute, callEntrypoint, Machine.new, hentry, Option.map_some] at h
    have hstart : Supported program (.new program entry .empty) []
        { program, board, stack := [], frames := [.new program entry .empty], steps := 0,
          stepLimit := limit } := by
      have hout : (Activation.new program entry .empty).inTransaction = false :=
        (hverified.bracketed howns).inTransaction_zero
      refine ⟨rfl, howns, ⟨0, 0, (hverified.measured.depthsFit howns).start, .nil, le_rfl⟩, ?_⟩
      simp [hout]
    obtain ⟨k, last, hrun, hlast⟩ := exists_last_step (by simp) h
    obtain ⟨top, callers, hsupported⟩ := hstart.run hverified hrun
    rcases blames_of_step hlast hkind with hframes | ⟨first, others, hframes, hblames⟩
    · simp [hsupported.frames] at hframes
    · obtain ⟨rfl, rfl⟩ : top = first ∧ callers = others := by
        simpa [hframes] using hsupported.frames.symm
      obtain ⟨depth, kept, hdepth, -⟩ := hsupported.stack
      obtain ⟨instruction, hinstruction, -⟩ :=
        (hverified.measured.depthsFit hsupported.owns).closed top.ip depth hdepth
      exact hsupported.not_blames hverified hinstruction (hblames instruction hinstruction)
  simpa [FaultKind.LiesInCode] using hcode

end Machine

namespace Probe

theorem verified : program.Verified where
  toTransactional := transactional
  calls home hhome := by
    rw [hhome.eq_of_links rfl]
    decide
  depths home hhome := by
    rw [hhome.eq_of_links rfl]
    decide +kernel

end Probe

namespace Machine

/-- A run that is cut off in the middle of a call fails for its limit. -/
theorem fault_of_accepted_probe :
    ∃ fault, ((Machine.new Probe.program Probe.board (some 3)).execute 9).2 = .failed fault ∧
      fault.kind = .stepLimitExceeded ∧ fault.kind ≠ .malformedBytecode ∧
      fault.kind ≠ .undefinedRoutine ∧ fault.kind ≠ .arityMismatch := by
  have haccepted : Probe.program.Accepted := by
    decide +kernel
  have hrun : (Machine.new Probe.program Probe.board (some 3)).execute 9 =
      (_, .failed _) := rfl
  exact ⟨_, rfl, rfl, fault_of_accepted haccepted Probe.verified hrun⟩

end Machine
end Gobstones
