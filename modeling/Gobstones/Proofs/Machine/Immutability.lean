import Gobstones.Proofs.Machine.Bindings
import Gobstones.Proofs.Machine.Limits
/-!
# Immutable variables

This module shows that a protected variable keeps its value.  The names that are protected
belong to an activation, like its variables: only its own instructions change either, and
among those an assignment looks at the protected names first.  Calls put other activations
above it, of the same routine or of others, and leave it alone until they return.

Main definitions:

- {lit}`Machine.activation?`: the activations by their numbers, from the outermost one.
- {lit}`Machine.Follows` and {lit}`Machine.Executes`: what happens to a machine from one state
  to the next.
- {lit}`Activation.Rebinds`: what an instruction does to the variables and the protected names.
- {lit}`Activation.Protects`: a name is protected, and its variable has a value or has none.

Main results:

- Theorem {lit}`Machine.reframes_of_goesOn`: what an instruction does to the activations.
- Theorem {lit}`Machine.protects_of_follows`: one state to the next keeps a protected variable.
- Theorem {lit}`Machine.immutable_of_follows`: a protected variable keeps its value until its
  own activation gives up the protection, and attempts to assign to it fail.
-/

namespace Gobstones

/-! ## Variables of an activation -/

namespace Activation

/-- What an instruction that stays in its activation does to the variables and the protected
names. -/
inductive Rebinds (before : Activation) : Instruction → Activation → Prop where
  | assign {name : String} {value : Value} (ip : Nat) (hfree : name ∉ before.immutable) :
    Rebinds before (.popTo name) { before with locals := before.locals.set name value, ip }
  | forget (name : String) (ip : Nat) :
    Rebinds before (.delVar name) { before with locals := before.locals.erase name, ip }
  | protect (name : String) (ip : Nat) :
    Rebinds before (.setImmutable name)
      { before with immutable := before.immutable.insert name, ip }
  | release (name : String) (ip : Nat) :
    Rebinds before (.unsetImmutable name)
      { before with immutable := before.immutable.filter (· ≠ name), ip }
  | keep {instruction : Instruction} (ip : Nat) (hforget : ∀ name, instruction ≠ .delVar name) :
    Rebinds before instruction { before with ip }

/-- A name is protected from assignment, and its variable has the given value or has none. -/
structure Protects (activation : Activation) (name : String) (value? : Option Value) : Prop where
  immutable : name ∈ activation.immutable
  value : activation.locals.get? name = value?

/-- The other activation belongs to the same call as far as its routine and module tell. -/
structure Same (activation other : Activation) : Prop where
  program : other.program = activation.program
  routine : other.routine = activation.routine

variable {before after : Activation} {instruction : Instruction} {name : String}
  {value? : Option Value}

theorem Same.refl (activation : Activation) : activation.Same activation :=
  ⟨rfl, rfl⟩

theorem Same.trans {last : Activation} (h : before.Same after) (h' : after.Same last) :
    before.Same last :=
  ⟨h'.program.trans h.program, h'.routine.trans h.routine⟩

theorem Rebinds.same (h : before.Rebinds instruction after) : before.Same after := by
  cases h <;> exact ⟨rfl, rfl⟩

/-- An instruction that does not give up the protection of a variable leaves it as it is, or
forgets its value. -/
theorem Protects.rebinds (h : before.Protects name value?)
    (hrebinds : before.Rebinds instruction after) (hkeeps : instruction ≠ .unsetImmutable name) :
    after.Protects name (if instruction = .delVar name then none else value?) := by
  obtain ⟨himmutable, hvalue⟩ := h
  cases hrebinds with
  | @assign other value ip hfree =>
    have hne : name ≠ other := by
      rintro rfl
      exact hfree himmutable
    refine ⟨himmutable, ?_⟩
    rw [if_neg (by simp), Locals.get?_set, if_neg hne]
    exact hvalue
  | forget other ip =>
    refine ⟨himmutable, ?_⟩
    rw [Locals.get?_erase]
    by_cases heq : name = other
    · rw [if_pos heq, if_pos (congrArg Instruction.delVar heq.symm)]
    · rw [if_neg heq, if_neg (by simpa [eq_comm] using heq)]
      exact hvalue
  | protect other ip =>
    refine ⟨List.mem_insert_of_mem himmutable, ?_⟩
    rw [if_neg (by simp)]
    exact hvalue
  | release other ip =>
    have hne : name ≠ other := by
      rintro rfl
      exact hkeeps rfl
    refine ⟨List.mem_filter.2 ⟨himmutable, by simpa using hne⟩, ?_⟩
    rw [if_neg (by simp)]
    exact hvalue
  | keep ip hforget =>
    refine ⟨himmutable, ?_⟩
    rw [if_neg (hforget name)]
    exact hvalue

end Activation

namespace Machine

/-! ## Activations of a step -/

/-- What an instruction of the innermost activation does to the activations, if the run goes on
after it. -/
inductive Reframes (machine : Machine) (top : Activation) (callers : List Activation)
    (instruction : Instruction) (next : Machine) : Prop where
  | stay {after : Activation} (hframes : next.frames = after :: callers)
    (hrebinds : top.Rebinds instruction after)
  | call {callee : Activation} (hcall : ∃ name argc, instruction = .call name argc)
    (hframes : next.frames = callee :: machine.frames)
  | ret {caller : Activation} {rest : List Activation} (hcallers : callers = caller :: rest)
    (hframes : next.frames = caller.advance :: rest)

variable {machine next : Machine} {top before : Activation} {callers : List Activation}
  {instruction : Instruction} {number : Nat} {name : String} {value? : Option Value}

/-- An instruction after which the run goes on changes the variables and the protected names of
its own activation only. -/
theorem reframes_of_goesOn {steps : Nat}
    (h : GoesOn { machine with steps } top callers instruction next) :
    Reframes machine top callers instruction next := by
  cases h with
  | pushConst | pushFrom | label | jump | onTrue | onFalse | onMember | onOther | builtin | enter
  | leave => exact .stay rfl (.keep _ (by simp))
  | popTo hfree => exact .stay rfl (.assign _ hfree)
  | delVar name => exact .stay rfl (.forget name _)
  | setImmutable name => exact .stay rfl (.protect name _)
  | unsetImmutable name => exact .stay rfl (.release name _)
  | routine => exact .call ⟨_, _, rfl⟩ rfl
  | ret _ hcallers | returnVars _ hcallers => exact .ret hcallers rfl

theorem reframes_of_step (h : machine.step = (next, .running)) :
    ∃ top callers instruction, machine.frames = top :: callers ∧
      top.instruction? = some instruction ∧ Reframes machine top callers instruction next := by
  obtain ⟨top, callers, instruction, hframes, hinstruction, hgoes⟩ := goesOn_of_step h
  exact ⟨top, callers, instruction, hframes, hinstruction, reframes_of_goesOn hgoes⟩

/-! ## Numbered activations -/

/-- The activation with a number, counted from the outermost one.  As long as there are enough
activations above it, a number stands for the same call. -/
def activation? (machine : Machine) (number : Nat) : Option Activation :=
  machine.frames.reverse[number]?

/-- The activation with the number is the innermost one and is about to execute an
instruction. -/
def IsAt (machine : Machine) (number : Nat) (instruction : Instruction) : Prop :=
  ∃ top callers, machine.frames = top :: callers ∧ callers.length = number ∧
    top.instruction? = some instruction

/-- What may become of a machine next: it makes a step, whatever that comes to, or the
entrypoint is called on top of the calls in progress. -/
inductive Follows (machine next : Machine) : Prop where
  | step (h : machine.step.1 = next)
  | call (h : machine.callEntrypoint = some next)

/-- From one state to the next the activation with the number executes an instruction. -/
structure Executes (machine next : Machine) (number : Nat) (instruction : Instruction) : Prop where
  step : machine.step = (next, .running)
  current : machine.IsAt number instruction

theorem activation?_of_frames (hframes : machine.frames = top :: callers) :
    machine.activation? callers.length = some top := by
  simp [activation?, hframes]

/-- The activations that lie below others have the same numbers as they have by themselves. -/
theorem activation?_of_suffix {below : List Activation} (h : below <:+ machine.frames)
    (hlt : number < below.length) : machine.activation? number = below.reverse[number]? := by
  obtain ⟨above, hframes⟩ := h
  rw [activation?, ← hframes, List.reverse_append,
    List.getElem?_append_left (by simpa using hlt)]

theorem lt_depth_of_activation? (h : machine.activation? number = some before) :
    number < machine.depth := by
  have hlt := (List.getElem?_eq_some_iff.1 h).1
  simpa [depth] using hlt

theorem IsAt.unique {other : Instruction} (h : machine.IsAt number instruction)
    (h' : machine.IsAt number other) : instruction = other := by
  obtain ⟨top, callers, hframes, -, hinstruction⟩ := h
  obtain ⟨top', callers', hframes', -, hinstruction'⟩ := h'
  obtain ⟨rfl, rfl⟩ : top = top' ∧ callers = callers' := by simpa [hframes] using hframes'
  exact Option.some.inj (hinstruction.symm.trans hinstruction')

/-- An activation that moves on keeps its protected variables. -/
theorem protects_of_advance {activation : Activation} (h : activation.Protects name value?) :
    activation.advance.Protects name value? :=
  ⟨h.immutable, h.value⟩

/-! ## Protected variables of a run -/

/-- A step that goes on keeps a protected variable of an activation that is still there after
it, unless that activation itself gives up the protection.  The activation itself may forget
the value. -/
theorem protects_of_step (hstep : machine.step = (next, .running))
    (hbefore : machine.activation? number = some before)
    (hprotects : before.Protects name value?) (hlives : number < next.depth)
    (hkeeps : ¬machine.IsAt number (.unsetImmutable name)) :
    ∃ after, next.activation? number = some after ∧ before.Same after ∧
      (after.Protects name value? ∧ ¬machine.IsAt number (.delVar name) ∨
        after.Protects name none ∧ machine.IsAt number (.delVar name)) := by
  obtain ⟨top, callers, instruction, hframes, hinstruction, hreframes⟩ := reframes_of_step hstep
  have hdepth := lt_depth_of_activation? hbefore
  have hat (hnumber : number = callers.length) : machine.IsAt number instruction :=
    ⟨top, callers, hframes, hnumber.symm, hinstruction⟩
  -- an activation below the innermost one executes nothing
  have hidle (hnumber : number ≠ callers.length) (other : Instruction) :
      ¬machine.IsAt number other := by
    rintro ⟨first, others, hfirst, hlength, -⟩
    obtain ⟨-, rfl⟩ : top = first ∧ callers = others := by simpa [hframes] using hfirst
    exact hnumber hlength.symm
  rw [depth, hframes, List.length_cons] at hdepth
  -- an activation among those that stay below has not changed
  have hstays {below : List Activation} (hbelow : below <:+ machine.frames)
      (hbelow' : below <:+ next.frames) (hlt : number < below.length)
      (hforget : ¬machine.IsAt number (.delVar name)) :
      ∃ after, next.activation? number = some after ∧ before.Same after ∧
        (after.Protects name value? ∧ ¬machine.IsAt number (.delVar name) ∨
          after.Protects name none ∧ machine.IsAt number (.delVar name)) := by
    rw [activation?_of_suffix hbelow hlt] at hbefore
    exact ⟨before, (activation?_of_suffix hbelow' hlt).trans hbefore, .refl before,
      .inl ⟨hprotects, hforget⟩⟩
  cases hreframes with
  | @stay after hnext hrebinds =>
    by_cases hnumber : number = callers.length
    · have hinstructionAt := hat hnumber
      subst hnumber
      obtain rfl : top = before := by
        simpa [activation?_of_frames hframes] using hbefore
      have hne : instruction ≠ .unsetImmutable name := by
        rintro rfl
        exact hkeeps hinstructionAt
      have hafter := hprotects.rebinds hrebinds hne
      refine ⟨after, activation?_of_frames hnext, hrebinds.same, ?_⟩
      by_cases hforget : instruction = .delVar name
      · rw [if_pos hforget] at hafter
        exact .inr ⟨hafter, hforget ▸ hinstructionAt⟩
      · rw [if_neg hforget] at hafter
        exact .inl ⟨hafter, fun h => hforget (hinstructionAt.unique h)⟩
    · exact hstays ⟨[top], hframes.symm⟩ ⟨[after], hnext.symm⟩ (by omega) (hidle hnumber _)
  | @call callee hcall hnext =>
    obtain ⟨other, argc, rfl⟩ := hcall
    refine hstays (List.suffix_refl _) ⟨[callee], hnext.symm⟩ (by rw [hframes]; exact hdepth) ?_
    by_cases hnumber : number = callers.length
    · intro hforget
      have hsame := (hat hnumber).unique hforget
      simp at hsame
    · exact hidle hnumber _
  | @ret caller rest hcallers hnext =>
    subst hcallers
    have hlives : number ≤ rest.length := by
      rw [depth, hnext, List.length_cons] at hlives
      omega
    have hnumber : number ≠ (caller :: rest).length := by
      simp only [List.length_cons]
      omega
    by_cases hcaller : number = rest.length
    · have hbelow : caller :: rest <:+ machine.frames := ⟨[top], hframes.symm⟩
      rw [activation?_of_suffix hbelow (by simp only [List.length_cons]; omega)] at hbefore
      subst hcaller
      obtain rfl : caller = before := by simpa using hbefore
      exact ⟨caller.advance, activation?_of_frames hnext, ⟨rfl, rfl⟩,
        .inl ⟨protects_of_advance hprotects, hidle hnumber _⟩⟩
    · exact hstays ⟨[top, caller], hframes.symm⟩ ⟨[caller.advance], hnext.symm⟩ (by omega)
        (hidle hnumber _)

/-- However a machine goes on, a protected variable of an activation that is still there keeps
its value, unless that activation itself gives up the protection or forgets the value. -/
theorem protects_of_follows (hfollows : machine.Follows next)
    (hbefore : machine.activation? number = some before)
    (hprotects : before.Protects name value?) (hlives : number < next.depth)
    (hkeeps : ¬machine.Executes next number (.unsetImmutable name)) :
    ∃ after, next.activation? number = some after ∧ before.Same after ∧
      (after.Protects name value? ∧ ¬machine.Executes next number (.delVar name) ∨
        after.Protects name none ∧ machine.Executes next number (.delVar name)) := by
  -- without a step that goes on, nothing has been executed
  have hunchanged (hframes : next.frames = machine.frames)
      (hstill : ∀ later, machine.step ≠ (later, .running)) :
      ∃ after, next.activation? number = some after ∧ before.Same after ∧
        (after.Protects name value? ∧ ¬machine.Executes next number (.delVar name) ∨
          after.Protects name none ∧ machine.Executes next number (.delVar name)) := by
    refine ⟨before, ?_, .refl before, .inl ⟨hprotects, fun h => hstill _ h.step⟩⟩
    rw [activation?, hframes]
    exact hbefore
  cases hfollows with
  | step hnext =>
    subst hnext
    rcases hstep : machine.step with ⟨next, _ | bindings | fault⟩
    · simp only [hstep] at hlives hkeeps ⊢
      obtain ⟨after, hafter, hsame, hcases⟩ := protects_of_step hstep hbefore hprotects hlives
        fun h => hkeeps ⟨hstep, h⟩
      refine ⟨after, hafter, hsame, hcases.imp (fun h => ⟨h.1, fun he => h.2 he.current⟩)
        fun h => ⟨h.1, hstep, h.2⟩⟩
    · obtain ⟨-, -, -, -, -, hnone, -⟩ := returns_of_finished hstep
      simp [hstep, depth, hnone] at hlives
    · rw [hstep] at hunchanged
      exact hunchanged (unchanged_of_failed hstep).frames fun later h => by
        simp at h
  | call hcall =>
    obtain ⟨entry, -, rfl⟩ := Option.map_eq_some_iff.1 hcall
    have hlt : number < machine.frames.length := lt_depth_of_activation? hbefore
    have hbelow : machine.frames <:+ .new machine.program entry .empty :: machine.frames :=
      List.suffix_cons _ _
    refine ⟨before, (activation?_of_suffix hbelow hlt).trans hbefore, .refl before,
      .inl ⟨hprotects, fun h => ?_⟩⟩
    -- a step would have been counted
    have hsteps := (clock_of_step machine).1
    rw [h.step] at hsteps
    simp at hsteps

/-- An attempt to assign to a protected variable fails and leaves everything in place but the
count of steps. -/
theorem step_of_immutable (hat : machine.IsAt number (.popTo name))
    (hhere : machine.activation? number = some before) (hprotected : name ∈ before.immutable)
    (hallows : Allows machine.stepLimit (machine.steps + 1)) :
    ∃ fault, machine.step = ({ machine with steps := machine.steps + 1 }, .failed fault) ∧
      fault.cause = .immutable name := by
  obtain ⟨top, callers, hframes, rfl, hinstruction⟩ := hat
  obtain rfl : top = before := by simpa [activation?_of_frames hframes] using hhere
  refine ⟨(machine.clocked (machine.steps + 1) machine.stepLimit).fault (.immutable name), ?_, rfl⟩
  conv_lhs => rw [step_of_allows hallows, hframes]
  simp only [hinstruction, perform, if_pos hprotected]
  rfl

section

variable {states : Nat → Machine} {now : Nat} {here : Activation} {value : Value}

/-- While the activation with the number stays and does not give up the protection of a
variable, that keeps its value, or has none once the activation has executed an instruction that
forgets it. -/
theorem protects_of_states (hfollows : ∀ k < now, (states k).Follows (states (k + 1)))
    (hlives : ∀ k ≤ now, number < (states k).depth)
    (hhere : (states 0).activation? number = some here)
    (hprotects : here.Protects name (some value))
    (hkeeps : ∀ k < now, ¬(states k).Executes (states (k + 1)) number (.unsetImmutable name)) :
    ∃ later, (states now).activation? number = some later ∧ here.Same later ∧
      (later.Protects name (some value) ∧
          (∀ k < now, ¬(states k).Executes (states (k + 1)) number (.delVar name)) ∨
        later.Protects name none ∧
          ∃ k < now, (states k).Executes (states (k + 1)) number (.delVar name)) := by
  induction now with
  | zero => exact ⟨here, hhere, .refl here, .inl ⟨hprotects, by simp⟩⟩
  | succ now ih =>
    obtain ⟨middle, hmiddle, hsame, hcases⟩ := ih (fun k hk => hfollows k (by omega))
      (fun k hk => hlives k (by omega)) (fun k hk => hkeeps k (by omega))
    have hnext := hfollows now (by omega)
    have hlast := hlives (now + 1) le_rfl
    have hkeep := hkeeps now (by omega)
    rcases hcases with ⟨hbound, hnever⟩ | ⟨hunbound, k, hk, hforgotten⟩
    · obtain ⟨later, hlater, hsame', hcases⟩ :=
        protects_of_follows hnext hmiddle hbound hlast hkeep
      refine ⟨later, hlater, hsame.trans hsame', ?_⟩
      rcases hcases with ⟨hbound, hnot⟩ | ⟨hunbound, hforgets⟩
      · refine .inl ⟨hbound, fun k hk => ?_⟩
        rcases Nat.lt_succ_iff_lt_or_eq.1 hk with hlt | rfl
        · exact hnever k hlt
        · exact hnot
      · exact .inr ⟨hunbound, now, by omega, hforgets⟩
    · obtain ⟨later, hlater, hsame', hcases⟩ :=
        protects_of_follows hnext hmiddle hunbound hlast hkeep
      have hunbound' : later.Protects name none := by
        rcases hcases with h | h
        · exact h.1
        · exact h.1
      exact ⟨later, hlater, hsame.trans hsame', .inr ⟨hunbound', k, by omega, hforgotten⟩⟩

/-- A protected variable is not assigned to.  From a state in which an activation holds a name
among its protected ones, with its variable bound to a value, let the machine go on in any way:
by steps, whatever they come to, and by calls of the entrypoint.  As long as that activation is
there and has not executed the instruction that gives up the protection, the variable is bound to
that value, or is unbound because the activation has forgotten it, and the name stays protected;
an assignment that the activation attempts then fails as one to an immutable variable, and leaves
the operand stack and all else as it was. -/
theorem immutable_of_follows (hfollows : ∀ k < now, (states k).Follows (states (k + 1)))
    (hlives : ∀ k ≤ now, number < (states k).depth)
    (hhere : (states 0).activation? number = some here) (himmutable : name ∈ here.immutable)
    (hvalue : here.locals.get? name = some value)
    (hkeeps : ∀ k < now, ¬(states k).Executes (states (k + 1)) number (.unsetImmutable name)) :
    (∃ later, (states now).activation? number = some later ∧ here.Same later ∧
      name ∈ later.immutable ∧
      (later.locals.get? name = some value ∧
          (∀ k < now, ¬(states k).Executes (states (k + 1)) number (.delVar name)) ∨
        later.locals.get? name = none ∧
          ∃ k < now, (states k).Executes (states (k + 1)) number (.delVar name))) ∧
    ((states now).IsAt number (.popTo name) →
      Allows (states now).stepLimit ((states now).steps + 1) →
      ∃ fault, (states now).step =
          ({ states now with steps := (states now).steps + 1 }, .failed fault) ∧
        fault.cause = .immutable name ∧ fault.kind = .immutableAssignment) := by
  obtain ⟨later, hlater, hsame, hcases⟩ :=
    protects_of_states hfollows hlives hhere ⟨himmutable, hvalue⟩ hkeeps
  have hprotected : name ∈ later.immutable := by
    rcases hcases with ⟨h, -⟩ | ⟨h, -⟩ <;> exact h.immutable
  constructor
  · refine ⟨later, hlater, hsame, hprotected, ?_⟩
    exact hcases.imp (And.imp_left (·.value)) (And.imp_left (·.value))
  · intro hat hallows
    obtain ⟨fault, hstep, hcause⟩ := step_of_immutable hat hlater hprotected hallows
    refine ⟨fault, hstep, hcause, ?_⟩
    rw [Fault.kind, hcause]
    rfl

end

/-- The states of a run follow each other until it ends. -/
theorem follows_of_run {k : Nat} (h : (machine.run k).2 = .running) :
    (machine.run k).1.Follows (machine.run (k + 1)).1 := by
  rw [run_succ (Prod.ext rfl h : machine.run k = ((machine.run k).1, .running))]
  exact .step rfl

end Machine

/-! ## A variable of two calls of one procedure -/

namespace Nesting

/-- Protect a variable, call the procedure once more, and assign to the variable. -/
def nest : Routine where
  kind := .procedure
  name := "Nest"
  params := ["again"]
  code := #[.pushFrom "again", .popTo "i", .setImmutable "i", .pushFrom "again",
    .jumpIfFalse "last", .pushConst (.bool false), .call "Nest" 1, .pushFrom "again", .popTo "i",
    .label "last", .ret 0]
  targets := #[none, none, none, none, some 10, none, none, none, none, none, none]
  resolved := by decide

/-- Call the procedure. -/
def main : Routine where
  kind := .entrypoint
  name := "program"
  params := []
  code := #[.pushConst (.bool true), .call "Nest" 1, .ret 0]
  targets := Array.replicate 3 none
  resolved := rfl

/-- The program of both routines. -/
def program : Program where
  moduleName := "main"
  routines := [main, nest]
  builtins := BuiltinTable.standard
  links := []
  distinct := by decide

/-- The states of a run on one empty cell, from the one in which the first call of the procedure
has protected its variable. -/
def states (k : Nat) : Machine :=
  ((Machine.new program ⟨1, 1, 0, 0, #[Cell.empty], [], []⟩ none).execute (5 + k)).1

end Nesting

namespace Machine

/-- A call of the procedure keeps its protected variable while a second call of it protects and
binds its own variable of that name.  The assignment after the second call fails with its value
still on the stack. -/
theorem immutable_of_follows_nesting :
    (∃ inner, (Nesting.states 8).activation? 2 = some inner ∧
      inner.locals.get? "i" = some (.bool false)) ∧
    (∃ later, (Nesting.states 11).activation? 1 = some later ∧ later.routine = Nesting.nest ∧
      later.locals.get? "i" = some (.bool true)) ∧
    (Nesting.states 11).stack = [.bool true] ∧
    ∃ fault, (Nesting.states 11).step.2 = .failed fault ∧
      (Nesting.states 11).step.1.stack = [.bool true] ∧ fault.kind = .immutableAssignment := by
  obtain ⟨start, hstart⟩ : ∃ start : Machine, ∀ fuel,
      (Machine.new Nesting.program ⟨1, 1, 0, 0, #[Cell.empty], [], []⟩ none).execute fuel =
        start.run fuel := ⟨_, fun _ => rfl⟩
  have hrunning : ∀ k < 11, (start.run (5 + k)).2 = .running := by
    simp only [← hstart]
    decide +kernel
  have hfollows : ∀ k < 11, (Nesting.states k).Follows (Nesting.states (k + 1)) := by
    intro k hk
    simp only [Nesting.states, hstart]
    exact follows_of_run (hrunning k hk)
  have hlives : ∀ k ≤ 11, 1 < (Nesting.states k).depth := by decide +kernel
  have hnever {instruction : Instruction}
      (h : instruction = .unsetImmutable "i" ∨ instruction = .delVar "i") :
      ∀ k < 11, ¬(Nesting.states k).Executes (Nesting.states (k + 1)) 1 instruction := by
    have hothers : ∀ k < 11, (Nesting.states k).frames.head?.bind Activation.instruction? ∉
        [some (.unsetImmutable "i"), some (.delVar "i")] := by decide +kernel
    rintro k hk ⟨-, top, callers, hframes, -, hinstruction⟩
    apply hothers k hk
    rw [hframes]
    rcases h with rfl | rfl
    · exact List.mem_cons.2 (.inl hinstruction)
    · exact List.mem_cons.2 (.inr (List.mem_singleton.2 hinstruction))
  obtain ⟨⟨later, hlater, hsame, -, hvalue⟩, hattempt⟩ :=
    immutable_of_follows hfollows hlives rfl (List.mem_singleton.2 rfl) rfl (hnever (.inl rfl))
  obtain ⟨fault, hstep, -, hkind⟩ := hattempt ⟨_, _, rfl, rfl, rfl⟩ (allows_none _)
  refine ⟨⟨_, rfl, rfl⟩, ⟨later, hlater, hsame.routine, ?_⟩, rfl, fault, ?_, ?_, hkind⟩
  · rcases hvalue with ⟨hbound, -⟩ | ⟨-, k, hk, hforgets⟩
    · exact hbound
    · exact (hnever (.inr rfl) k hk hforgets).elim
  · rw [hstep]
  · rw [hstep]
    rfl

end Machine
end Gobstones
