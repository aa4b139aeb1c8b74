import Gobstones.Proofs.Check.Brackets
import Gobstones.Proofs.Machine.Endings
/-!
# Chains of calls

This module shows that the activations of a run form a chain of calls.  The outermost one is
that of the entrypoint; every other one is of the routine that the instruction of its caller
calls, since a caller stays at its call until that returns.  So there is exactly one step of
the run for each of them that made this call, and the call has not returned since.

Main definitions:

- {lit}`Activation.Awaits`: a caller that is at the call of an activation.
- {lit}`CallChain`: activations of which each awaits the one in front of it.
- {lit}`Machine.Unfinished`: a step of a run that made a call which has not returned.

Main results:

- Theorem {lit}`CallChain.step`: steps that go on keep the activations a chain.
- Theorem {lit}`Machine.exists_unfinished`: a step of the run made each call in progress.
- Theorem {lit}`Machine.Unfinished.unique`: no other step made it.
- Theorem {lit}`Machine.frames_of_execute`: the activations of a run, and its backtraces.
-/

namespace Gobstones

/-! ## Callers -/

namespace Activation

/-- The caller is at a call, with as many arguments as the routine of the other activation
takes, and what it calls in its own module is that routine in that activation's module. -/
def Awaits (caller callee : Activation) : Prop :=
  ∃ name argc, caller.instruction? = some (.call name argc) ∧
    caller.program.callee? name = some (callee.program, callee.routine) ∧
    callee.routine.arity = argc

/-- The position of an activation is one of its instructions or right behind the last. -/
def InRange (activation : Activation) : Prop :=
  activation.ip ≤ activation.routine.code.size

variable {activation : Activation} {instruction : Instruction}

theorem lt_of_instruction? (h : activation.instruction? = some instruction) :
    activation.ip < activation.routine.code.size :=
  (Array.getElem?_eq_some_iff.1 h).1

theorem inRange_advance (h : activation.instruction? = some instruction) :
    activation.advance.InRange :=
  lt_of_instruction? h

theorem inRange_new (program : Program) (routine : Routine) (locals : Locals) :
    (new program routine locals).InRange :=
  Nat.zero_le routine.code.size

/-- Where the paths through an instruction go on is in range. -/
theorem le_of_mem_successors {next : Nat} (h : activation.instruction? = some instruction)
    (hnext : next ∈ activation.program.successors activation.routine activation.ip instruction) :
    next ≤ activation.routine.code.size := by
  rcases Routine.mem_successors hnext with rfl | htarget
  · exact lt_of_instruction? h
  · obtain ⟨label, -, hpos, hlabel⟩ := Routine.target?_eq_some_iff.1 htarget
    have hlt := (Array.getElem?_eq_some_iff.1 hlabel).1
    omega

end Activation

/-! ## Chains -/

/-- Activations, innermost first: the outermost one is of the entrypoint of the program, and each
other one is awaited by the one below it. -/
inductive CallChain (program : Program) : List Activation → Prop where
  | outermost {entry : Activation} (hprogram : entry.program = program)
    (hentry : program.entrypoint? = some entry.routine) (hrange : entry.InRange) :
    CallChain program [entry]
  | call {callee caller : Activation} {callers : List Activation} (hcall : caller.Awaits callee)
    (hrange : callee.InRange) (h : CallChain program (caller :: callers)) :
    CallChain program (callee :: caller :: callers)

namespace CallChain

variable {program : Program} {top here : Activation} {callers frames : List Activation}
variable {machine next : Machine} {outcome : Outcome} {fuel : Nat}

/-- The innermost activation may go on elsewhere in its routine. -/
theorem moved (h : CallChain program (top :: callers)) (hprogram : here.program = top.program)
    (hroutine : here.routine = top.routine) (hrange : here.InRange) :
    CallChain program (here :: callers) := by
  cases h with
  | outermost hbottom hentry _ =>
    apply outermost
    · rw [hprogram, hbottom]
    · rw [hroutine, hentry]
    · exact hrange
  | call hcall _ h =>
    apply call
    · unfold Activation.Awaits at hcall ⊢
      rwa [hprogram, hroutine]
    · exact hrange
    · exact h

/-- A step that goes on keeps the activations a chain: the innermost one moves on, a call puts
one in front, and a return moves the caller on from the call. -/
theorem step (h : CallChain program machine.frames) (hstep : machine.step = (next, .running)) :
    CallChain program next.frames := by
  obtain ⟨top, callers, instruction, hframes, hinstruction, hmoves⟩ := Machine.moves_of_step hstep
  rw [hframes] at h
  cases hmoves with
  | stay hnext hprogram hroutine hip =>
    rw [hnext]
    apply h.moved hprogram hroutine
    unfold Activation.InRange
    rw [hroutine]
    exact Activation.le_of_mem_successors hinstruction hip
  | call hcallee harity hnext =>
    rw [hnext, hframes]
    apply call
    · exact ⟨_, _, hinstruction, hcallee, harity⟩
    · exact Activation.inRange_new _ _ _
    · exact h
  | ret hcallers hnext =>
    subst hcallers
    rw [hnext]
    cases h with
    | call hcall _ hcaller =>
      -- the caller has stayed at its call, so there is an instruction to go on from
      obtain ⟨name, argc, hcall, -⟩ := hcall
      exact hcaller.moved rfl rfl (Activation.inRange_advance hcall)

/-- However a run goes on or ends, its activations are a chain as long as there are any. -/
theorem run (h : CallChain program machine.frames) (hrun : machine.run fuel = (next, outcome)) :
    next.frames = [] ∨ CallChain program next.frames := by
  induction fuel generalizing machine with
  | zero =>
    obtain ⟨rfl, -⟩ := Prod.mk.inj hrun
    right
    exact h
  | succ fuel ih =>
    simp only [Machine.run] at hrun
    split at hrun
    · next middle hstep => exact ih (h.step hstep) hrun
    · next hended =>
      cases outcome with
      | running => exact (hended next hrun).elim
      | finished bindings =>
        obtain ⟨-, -, -, -, -, hnext, -⟩ := Machine.returns_of_finished hrun
        left
        exact hnext
      | failed fault =>
        right
        rw [(Machine.unchanged_of_failed hrun).frames]
        exact h

/-- The outermost activation is of the entrypoint. -/
theorem getLast? (h : CallChain program frames) :
    ∃ entry, frames.getLast? = some entry ∧ entry.program = program ∧
      program.entrypoint? = some entry.routine := by
  induction h with
  | @outermost entry hprogram hentry _ => exact ⟨entry, rfl, hprogram, hentry⟩
  | call _ _ _ ih => simpa using ih

/-- Every other activation is awaited by the one below it. -/
theorem isChain (h : CallChain program frames) :
    frames.IsChain fun callee caller => caller.Awaits callee := by
  induction h with
  | outermost => exact List.IsChain.singleton _
  | call hcall _ _ ih => exact List.isChain_cons_cons.2 ⟨hcall, ih⟩

theorem inRange (h : CallChain program frames) :
    ∀ activation ∈ frames, activation.InRange := by
  induction h with
  | outermost _ _ hrange => simpa using hrange
  | call _ hrange _ ih => exact List.forall_mem_cons.2 ⟨hrange, ih⟩

end CallChain

/-! ## Calls in progress -/

namespace Machine

variable {program : Program} {machine next : Machine} {callee here : Activation} {outcome : Outcome}
variable {callers : List Activation} {now k : Nat} {limit : Option Nat} {board : Board}

/-- Of a run given by its states, the step after the first {lit}`k` made a call, of the routine
and from the callers given, that has not returned until now. -/
structure Unfinished (states : Nat → Machine × Outcome) (now : Nat) (callee : Activation)
    (callers : List Activation) (k : Nat) : Prop where
  earlier : k < now
  calling : ∃ before, states k = (before, .running) ∧ before.frames = callers
  called : ∃ locals,
    (states (k + 1)).1.frames = .new callee.program callee.routine locals :: callers
  inside : ∀ j, k < j → j ≤ now → callers.length < (states j).1.depth

variable {states : Nat → Machine × Outcome}

/-- A step that is made inside of the call does not finish it. -/
theorem Unfinished.succ {was : Activation} (h : Unfinished states now was callers k)
    (hprogram : was.program = callee.program) (hroutine : was.routine = callee.routine)
    (hinside : callers.length < (states (now + 1)).1.depth) :
    Unfinished states (now + 1) callee callers k := by
  obtain ⟨hearlier, hcalling, hcalled, hrest⟩ := h
  rw [hprogram, hroutine] at hcalled
  refine ⟨by omega, hcalling, hcalled, fun j hj hle => ?_⟩
  rcases Nat.le_succ_iff.1 hle with hle | rfl
  · exact hrest j hj hle
  · exact hinside

/-- Only one step made the call: during a later one there are more activations than its
callers. -/
theorem Unfinished.unique {other : Nat} (h : Unfinished states now callee callers k)
    (hother : Unfinished states now callee callers other) : k = other := by
  have hge {first second : Nat} (hfirst : Unfinished states now callee callers first)
      (hsecond : Unfinished states now callee callers second) : second ≤ first := by
    by_contra hlt
    obtain ⟨before, hbefore, hframes⟩ := hsecond.calling
    have hdeep := hfirst.inside second (by omega) hsecond.earlier.le
    rw [hbefore, depth, hframes] at hdeep
    exact Nat.lt_irrefl _ hdeep
  exact Nat.le_antisymm (hge hother h) (hge h hother)

/-- An activation that goes on in its routine, and those below it, are the ones from before. -/
theorem existing_of_moved {frames rest : List Activation} {was : Activation}
    (hframes : was :: rest <:+ frames) (h : callee :: callers <:+ here :: rest)
    (hprogram : was.program = here.program) (hroutine : was.routine = here.routine) :
    ∃ existing, existing :: callers <:+ frames ∧ existing.program = callee.program ∧
      existing.routine = callee.routine := by
  rcases List.suffix_cons_iff.1 h with heq | hbelow
  · obtain ⟨rfl, rfl⟩ := List.cons.inj heq
    exact ⟨was, hframes, hprogram, hroutine⟩
  · exact ⟨callee, (hbelow.trans (List.suffix_cons was rest)).trans hframes, rfl, rfl⟩

/-- After a step that goes on, an activation is the one of the call that the step made, or was
there before. -/
theorem called_or_existing_of_step (hstep : machine.step = (next, .running))
    (h : callee :: callers <:+ next.frames) :
    (machine.frames = callers ∧
        ∃ locals, next.frames = .new callee.program callee.routine locals :: callers) ∨
      ∃ existing, existing :: callers <:+ machine.frames ∧
        existing.program = callee.program ∧ existing.routine = callee.routine := by
  obtain ⟨top, rest, instruction, hframes, -, hmoves⟩ := moves_of_step hstep
  cases hmoves with
  | stay hnext hprogram hroutine =>
    rw [hnext] at h
    right
    rw [hframes]
    exact existing_of_moved (List.suffix_refl _) h hprogram.symm hroutine.symm
  | @call _ _ _ home routine locals _ _ hnext =>
    rw [hnext] at h
    rcases List.suffix_cons_iff.1 h with heq | hbelow
    · obtain ⟨rfl, rfl⟩ := List.cons.inj heq
      left
      exact ⟨rfl, locals, hnext⟩
    · right
      exact ⟨callee, hbelow, rfl, rfl⟩
  | @ret _ _ caller below hcallers hnext =>
    subst hcallers
    rw [hnext] at h
    right
    rw [hframes]
    have hcaller : caller :: below <:+ top :: caller :: below := List.suffix_cons top _
    exact existing_of_moved hcaller h rfl rfl

/-- The same of one step more of a run, which may have ended. -/
theorem called_or_existing_of_run (machine : Machine) (now : Nat)
    (h : callee :: callers <:+ (machine.run (now + 1)).1.frames) :
    (∃ before, machine.run now = (before, .running) ∧ before.frames = callers ∧
        ∃ locals, (machine.run (now + 1)).1.frames =
          .new callee.program callee.routine locals :: callers) ∨
      ∃ existing, existing :: callers <:+ (machine.run now).1.frames ∧
        existing.program = callee.program ∧ existing.routine = callee.routine := by
  rcases hnow : machine.run now with ⟨before, outcome⟩
  by_cases hrunning : outcome = .running
  · subst hrunning
    rw [run_succ hnow] at h ⊢
    rcases hstep : before.step with ⟨next, _ | bindings | fault⟩
    · rw [hstep] at h
      rcases called_or_existing_of_step hstep h with ⟨hframes, hcalled⟩ | hexisting
      · left
        exact ⟨before, rfl, hframes, hcalled⟩
      · right
        exact hexisting
    · obtain ⟨-, -, -, -, -, hnext, -⟩ := returns_of_finished hstep
      rw [hstep, hnext] at h
      simp at h
    · rw [hstep, (unchanged_of_failed hstep).frames] at h
      right
      exact ⟨callee, h, rfl, rfl⟩
  · rw [run_add_of_ended now 1 machine (by rw [hnow]; exact hrunning), hnow] at h
    right
    exact ⟨callee, h, rfl, rfl⟩

/-- In a run that starts with one activation, every activation that has callers is there because
of a call that is unfinished. -/
theorem exists_unfinished {entry : Activation} (hstart : machine.frames = [entry])
    (h : callee :: callers <:+ (machine.run now).1.frames) (hcallers : callers ≠ []) :
    ∃ k, Unfinished (machine.run ·) now callee callers k := by
  induction now generalizing callee with
  | zero =>
    rw [run_zero, hstart] at h
    rcases List.suffix_cons_iff.1 h with heq | hnil
    · exact (hcallers (List.cons.inj heq).2).elim
    · simp at hnil
  | succ now ih =>
    have hinside : callers.length < (machine.run (now + 1)).1.depth := h.length_le
    rcases called_or_existing_of_run machine now h with
      ⟨before, hbefore, hframes, hcalled⟩ | ⟨existing, hexisting, hprogram, hroutine⟩
    · refine ⟨now, Nat.lt_succ_self now, ⟨before, hbefore, hframes⟩, hcalled, fun j hj hle => ?_⟩
      obtain rfl : j = now + 1 := by omega
      exact hinside
    · obtain ⟨k, hk⟩ := ih hexisting
      exact ⟨k, hk.succ hprogram hroutine hinside⟩

/-- The fault with which a run ends lists the activations that it ends with. -/
theorem frames_of_failed {fault : Fault} (h : machine.run now = (next, .failed fault)) :
    fault.frames = next.frames.map Activation.traceFrame := by
  obtain ⟨_, last, -, hstep⟩ := exists_last_step (by simp) h
  obtain ⟨cause, hfault⟩ := (fails_of_step hstep).reported
  rw [hfault]
  rfl

/-- As long as a run has activations they form a chain of calls.  The outermost one is of the
entrypoint in the program itself.  Every other one is of the routine that its caller is about to
call from where it is, and one step of the run made this call, which has not returned since.  No
activation is beyond the end of its routine, and a fault lists all of them with where they are. -/
theorem frames_of_execute (hrun : (new program board limit).execute now = (machine, outcome))
    (hframes : machine.frames ≠ []) :
    (∃ entry, machine.frames.getLast? = some entry ∧ entry.program = program ∧
      program.entrypoint? = some entry.routine) ∧
    machine.frames.IsChain (fun callee caller => caller.Awaits callee) ∧
    (∀ activation ∈ machine.frames, activation.ip ≤ activation.routine.code.size) ∧
    (∀ callee callers, callee :: callers <:+ machine.frames → callers ≠ [] →
      ∃! k, Unfinished ((new program board limit).execute ·) now callee callers k) ∧
    ∀ fault, outcome = .failed fault → fault.frames = machine.frames.map Activation.traceFrame := by
  cases hentry : program.entrypoint? with
  | none =>
    rw [execute_new, hentry] at hrun
    obtain ⟨rfl, -⟩ := Prod.mk.inj hrun
    exact (hframes rfl).elim
  | some entry =>
    obtain ⟨called, hcalled, hexecute⟩ : ∃ called : Machine,
        called.frames = [.new program entry .empty] ∧
          ∀ fuel, (new program board limit).execute fuel = called.run fuel :=
      ⟨{ new program board limit with frames := [.new program entry .empty] }, rfl, fun fuel => by
        rw [execute_new, hentry]⟩
    rw [hexecute] at hrun
    have hstart : CallChain program called.frames := by
      rw [hcalled]
      exact .outermost rfl hentry (Activation.inRange_new program entry .empty)
    have hchain := (hstart.run hrun).resolve_left hframes
    refine ⟨?_, hchain.isChain, hchain.inRange, ?_, ?_⟩
    · rw [← hentry]
      exact hchain.getLast?
    · intro callee callers hsuffix hcallers
      simp only [hexecute]
      have hsuffix : callee :: callers <:+ (called.run now).1.frames := by
        rw [hrun]
        exact hsuffix
      obtain ⟨k, hk⟩ := exists_unfinished hcalled hsuffix hcallers
      exact ⟨k, hk, fun _ hother => hother.unique hk⟩
    · rintro fault rfl
      exact frames_of_failed hrun

end Machine

namespace Descent

/-- Fail. -/
def fail : Routine where
  kind := .procedure
  name := "Fail"
  params := ["n"]
  code := #[.raise "boom"]
  targets := #[none]
  resolved := rfl

/-- Call the procedure that fails. -/
def dig : Routine where
  kind := .procedure
  name := "Dig"
  params := ["n"]
  code := #[.pushFrom "n", .call "Fail" 1, .ret 0]
  targets := Array.replicate 3 none
  resolved := rfl

/-- A module of both procedures. -/
def library : Program where
  moduleName := "library"
  routines := [dig, fail]
  builtins := BuiltinTable.standard
  links := []
  distinct := by decide

/-- Call a procedure of the other module. -/
def main : Routine where
  kind := .entrypoint
  name := "program"
  params := []
  code := #[.pushConst (.int 3), .call "Far" 1, .ret 0]
  targets := Array.replicate 3 none
  resolved := rfl

/-- A procedure with the name of one in the other module. -/
def namesake : Routine where
  kind := .procedure
  name := "Fail"
  params := []
  code := #[.ret 0]
  targets := #[none]
  resolved := rfl

/-- A program with a link to the other module. -/
def program : Program where
  moduleName := "main"
  routines := [main, namesake]
  builtins := BuiltinTable.standard
  links := [⟨"Far", library, "Dig"⟩]
  distinct := by decide

/-- The state of a run on one empty cell after some steps, at most until it fails. -/
def after (n : Nat) : Machine × Outcome :=
  (Machine.new program ⟨1, 1, 0, 0, #[Cell.empty], [], []⟩ none).execute n

end Descent

namespace Machine

/-- A procedure of the other module has failed: the backtrace lists its caller in that module, at
the call, and the entrypoint at the call of the linked name. -/
theorem frames_of_execute_descent :
    ∃ machine fault callee callers, Descent.after 9 = (machine, .failed fault) ∧
      fault.frames = [⟨.procedure, "Fail", "library", 0⟩, ⟨.procedure, "Dig", "library", 1⟩,
        ⟨.entrypoint, "program", "main", 1⟩] ∧
      machine.frames = callee :: callers ∧ callee.routine = Descent.fail ∧
      callers.map (·.routine) = [Descent.dig, Descent.main] ∧
      machine.frames.IsChain (fun callee caller => caller.Awaits callee) ∧
      (∃ entry, machine.frames.getLast? = some entry ∧ entry.program = Descent.program) ∧
      ∃! k, Unfinished Descent.after 9 callee callers k := by
  have hrun : Descent.after 9 =
      ((Descent.after 9).1, .failed ((Descent.after 9).1.fault (.thrown "boom"))) := rfl
  obtain ⟨⟨entry, hlast, hprogram, -⟩, hchain, -, hcalls, hfault⟩ :=
    frames_of_execute hrun (List.cons_ne_nil _ _)
  exact ⟨_, _, _, _, hrun, rfl, rfl, rfl, rfl, hchain, ⟨entry, hlast, hprogram⟩,
    hcalls _ _ (List.suffix_refl _) (List.cons_ne_nil _ _)⟩

end Machine
end Gobstones
