import Gobstones.Proofs.Machine.Endings
import Gobstones.Proofs.Machine.Rollback
/-!
# Step limits

This module compares runs of one program and board under different step limits.  Instructions
look neither at the count of steps nor at the limit, so runs under two limits are the same as
long as both limits allow their steps; the first step that a limit does not allow is counted
and fails, with everything else left in place.

Main definitions:

- {lit}`Machine.clocked`, {lit}`Machine.withLimit`: a machine with another count or limit.
- {lit}`Machine.Allows`: limits that a number of steps does not exceed.
- {lit}`Machine.Ends`: the state that a run ends in, and what it comes to there.

Main results:

- Theorem {lit}`Machine.perform_clocked`: instructions neither read nor change count and limit.
- Theorem {lit}`Machine.execute_withLimit`: the same steps under all limits that allow them.
- Theorem {lit}`Machine.execute_steps`: a run that ended did so after the steps it counted.
- Theorem {lit}`Machine.ends_within_limit`: a step limit cuts a run to an exact prefix.
-/

namespace Gobstones
namespace Machine

variable {program : Program} {board : Board} {machine next final : Machine} {outcome : Outcome}
variable {limit limit' : Option Nat} {fuel n : Nat}

/-! ## The clock -/

/-- A machine with another count of steps and another limit. -/
def clocked (machine : Machine) (steps : Nat) (limit : Option Nat) : Machine :=
  { machine with steps, stepLimit := limit }

/-- A machine under another limit. -/
def withLimit (machine : Machine) (limit : Option Nat) : Machine :=
  { machine with stepLimit := limit }

/-- A limit, if there is one, that a number of steps does not exceed. -/
def Allows (limit : Option Nat) (steps : Nat) : Prop :=
  ∀ n, limit = some n → steps ≤ n

theorem allows_none (steps : Nat) : Allows none steps := by
  intro n h
  cases h

theorem allows_some_iff {steps : Nat} : Allows (some n) steps ↔ steps ≤ n := by
  constructor
  · intro h
    exact h n rfl
  · intro h other hother
    cases hother
    exact h

theorem Allows.mono {steps more : Nat} (h : Allows limit more) (hle : steps ≤ more) :
    Allows limit steps := by
  intro n hn
  exact hle.trans (h n hn)

/-! ## Instructions -/

section

variable (steps : Nat) (limit : Option Nat) (top : Activation) (callers : List Activation)

@[simp]
theorem stack_clocked (machine : Machine) : (machine.clocked steps limit).stack = machine.stack :=
  rfl

@[simp]
theorem board_clocked (machine : Machine) : (machine.clocked steps limit).board = machine.board :=
  rfl

theorem jump_clocked (machine : Machine) :
    (machine.clocked steps limit).jump top callers =
      Prod.map (clocked · steps limit) id (machine.jump top callers) := by
  unfold jump
  split <;> rfl

theorem leave_clocked (machine : Machine) (bindings : Bindings) :
    (machine.clocked steps limit).leave callers bindings =
      Prod.map (clocked · steps limit) id (machine.leave callers bindings) := by
  cases callers <;> rfl

theorem enterRoutine_clocked (machine : Machine) (home : Program) (routine : Routine)
    (argc : Nat) :
    (machine.clocked steps limit).enterRoutine home routine argc =
      Prod.map (clocked · steps limit) id (machine.enterRoutine home routine argc) := by
  unfold enterRoutine
  by_cases h : routine.params.length ≠ argc
  · rw [if_pos h, if_pos h]
    rfl
  · rw [if_neg h, if_neg h, stack_clocked]
    cases popArguments argc [] machine.stack <;> rfl

theorem applyBuiltin_clocked (machine : Machine) (builtin : Builtin) (argc : Nat) :
    (machine.clocked steps limit).applyBuiltin top callers builtin argc =
      Prod.map (clocked · steps limit) id (machine.applyBuiltin top callers builtin argc) := by
  unfold applyBuiltin
  by_cases h : builtin.params.length ≠ argc
  · rw [if_pos h, if_pos h]
    rfl
  · rw [if_neg h, if_neg h, stack_clocked, board_clocked]
    cases popArguments argc [] machine.stack with
    | none => rfl
    | some popped =>
      obtain ⟨args, stack⟩ := popped
      dsimp only
      cases builtin.operation.perform args machine.board <;> rfl

theorem call_clocked (machine : Machine) (name : String) (argc : Nat) :
    (machine.clocked steps limit).call top callers name argc =
      Prod.map (clocked · steps limit) id (machine.call top callers name argc) := by
  unfold call
  cases top.program.resolve? name with
  | none => rfl
  | some target =>
    cases target with
    | builtin builtin => exact applyBuiltin_clocked steps limit top callers machine builtin argc
    | own routine => exact enterRoutine_clocked steps limit machine top.program routine argc
    | external home routine => exact enterRoutine_clocked steps limit machine home routine argc

theorem returnVars_clocked (machine : Machine) (n : Nat) (names : List String) :
    (machine.clocked steps limit).returnVars top callers n names =
      Prod.map (clocked · steps limit) id (machine.returnVars top callers n names) := by
  unfold returnVars
  by_cases hnames : names.length ≠ n
  · rw [if_pos hnames, if_pos hnames]
    rfl
  · rw [if_neg hnames, if_neg hnames]
    by_cases hcallers : callers.isEmpty
    · rw [if_pos hcallers, if_pos hcallers]
      cases resultBindings top.locals names with
      | ok bindings => exact leave_clocked steps limit callers machine bindings
      | error name => rfl
    · rw [if_neg hcallers, if_neg hcallers]
      exact leave_clocked steps limit callers machine []

/-- Instructions look neither at the count of steps nor at the limit, and leave both alone. -/
theorem perform_clocked (machine : Machine) (instruction : Instruction) :
    (machine.clocked steps limit).perform top callers instruction =
      Prod.map (clocked · steps limit) id (machine.perform top callers instruction) := by
  cases instruction with
  | pushConst value | delVar name | setImmutable name | unsetImmutable name | label name | enter
  | raise message => rfl
  | pushFrom name =>
    simp only [perform]
    cases top.locals.get? name <;> rfl
  | popTo name =>
    simp only [perform, stack_clocked]
    by_cases h : name ∈ top.immutable
    · rw [if_pos h, if_pos h]
      rfl
    · rw [if_neg h, if_neg h]
      cases machine.stack <;> rfl
  | jump label => exact jump_clocked steps limit top callers machine
  | jumpIfFalse label =>
    simp only [perform, stack_clocked]
    split
    · rfl
    · rfl
    · exact jump_clocked steps limit top callers { machine with stack := _ }
    · rfl
  | jumpIfNotIn values label =>
    simp only [perform, stack_clocked]
    cases machine.stack with
    | nil => rfl
    | cons value stack =>
      dsimp only
      by_cases h : value ∈ values
      · rw [if_pos h, if_pos h]
        rfl
      · rw [if_neg h, if_neg h]
        exact jump_clocked steps limit top callers { machine with stack }
  | call name argc => exact call_clocked steps limit top callers machine name argc
  | ret n =>
    simp only [perform, stack_clocked]
    cases popArguments n [] machine.stack with
    | none => rfl
    | some popped => exact leave_clocked steps limit callers machine []
  | returnVars n names => exact returnVars_clocked steps limit top callers machine n names
  | leave =>
    simp only [perform, board_clocked]
    cases Board.Action.popState machine.board <;> rfl

end

/-! ## Steps -/

/-- A step that the limit allows executes the current instruction. -/
theorem step_of_allows (h : Allows machine.stepLimit (machine.steps + 1)) :
    machine.step =
      match machine.frames with
      | [] => (machine.clocked (machine.steps + 1) machine.stepLimit).fail .noActiveRoutine
      | top :: callers =>
        match top.instruction? with
        | none =>
          (machine.clocked (machine.steps + 1) machine.stepLimit).fail
            (.ranOff top.routine.kind top.routine.name)
        | some instruction =>
          (machine.clocked (machine.steps + 1) machine.stepLimit).perform top callers
            instruction := by
  have hallowed : machine.stepLimit.filter (· < machine.steps + 1) = none := by
    rw [Option.filter_eq_none_iff]
    intro n hn
    have := h n hn
    simpa using this
  simp only [step, hallowed]
  rfl

/-- A step beyond the limit is counted and fails. -/
theorem step_of_exhausted (hlimit : machine.stepLimit = some n) (hle : n ≤ machine.steps) :
    machine.step =
      (machine.clocked (machine.steps + 1) (some n),
        .failed (machine.fault (.stepLimit n))) := by
  have hexceeded : machine.stepLimit.filter (· < machine.steps + 1) = some n := by
    rw [hlimit, Option.filter_some]
    simpa using Nat.lt_succ_of_le hle
  simp only [step, hexceeded]
  rw [hlimit]
  rfl

theorem clock_of_perform (machine : Machine) (top : Activation) (callers : List Activation)
    (instruction : Instruction) :
    (machine.perform top callers instruction).1.steps = machine.steps ∧
      (machine.perform top callers instruction).1.stepLimit = machine.stepLimit := by
  have hsame := perform_clocked machine.steps machine.stepLimit top callers machine instruction
  change machine.perform top callers instruction = _ at hsame
  constructor
  · rw [hsame]
    rfl
  · rw [hsame]
    rfl

/-- A step is counted, whatever it comes to, and keeps the limit. -/
theorem clock_of_step (machine : Machine) :
    machine.step.1.steps = machine.steps + 1 ∧ machine.step.1.stepLimit = machine.stepLimit := by
  by_cases hallows : Allows machine.stepLimit (machine.steps + 1)
  · rw [step_of_allows hallows]
    split
    · exact ⟨rfl, rfl⟩
    · split
      · exact ⟨rfl, rfl⟩
      · exact clock_of_perform _ _ _ _
  · unfold Allows at hallows
    push Not at hallows
    obtain ⟨n, hlimit, hlt⟩ := hallows
    rw [step_of_exhausted hlimit (Nat.lt_succ_iff.1 hlt), hlimit]
    exact ⟨rfl, rfl⟩

/-- A step is the same under all limits that allow it. -/
theorem step_withLimit (h : Allows machine.stepLimit (machine.steps + 1))
    (h' : Allows limit (machine.steps + 1)) :
    (machine.withLimit limit).step = Prod.map (withLimit · limit) id machine.step := by
  have hallowed : Allows (machine.withLimit limit).stepLimit
      ((machine.withLimit limit).steps + 1) := h'
  rw [step_of_allows h, step_of_allows hallowed]
  change (match machine.frames with | [] => _ | top :: callers => _) = _
  cases machine.frames with
  | nil => rfl
  | cons top callers =>
    dsimp only
    cases top.instruction? with
    | none => rfl
    | some instruction =>
      change (machine.clocked (machine.steps + 1) limit).perform top callers instruction =
        Prod.map (withLimit · limit) id
          ((machine.clocked (machine.steps + 1) machine.stepLimit).perform top callers instruction)
      rw [perform_clocked, perform_clocked]
      rfl

/-! ## Runs -/

/-- A run makes the same steps under all limits that allow them. -/
theorem run_withLimit (h : Allows machine.stepLimit (machine.steps + fuel))
    (h' : Allows limit (machine.steps + fuel)) :
    (machine.withLimit limit).run fuel = Prod.map (withLimit · limit) id (machine.run fuel) := by
  induction fuel generalizing machine with
  | zero => rfl
  | succ fuel ih =>
    have hle : machine.steps + 1 ≤ machine.steps + (fuel + 1) := by omega
    have hstep := step_withLimit (h.mono hle) (h'.mono hle)
    obtain ⟨hsteps, hlimit⟩ := clock_of_step machine
    rcases hresult : machine.step with ⟨next, _ | bindings | fault⟩
    · rw [hresult] at hstep hsteps hlimit
      have hcount : machine.steps + (fuel + 1) = next.steps + fuel := by
        have : next.steps = machine.steps + 1 := hsteps
        omega
      simp only [run, hstep, hresult, Prod.map_apply, id_eq]
      apply ih
      · rw [← hcount, show next.stepLimit = machine.stepLimit from hlimit]
        exact h
      · rw [← hcount]
        exact h'
    · simp only [run, hstep, hresult, Prod.map_apply, id_eq]
    · simp only [run, hstep, hresult, Prod.map_apply, id_eq]

/-- A run that is still going on has made all the steps that it was given. -/
theorem clock_of_running (h : machine.run fuel = (next, .running)) :
    next.steps = machine.steps + fuel ∧ next.stepLimit = machine.stepLimit := by
  induction fuel generalizing machine with
  | zero =>
    obtain ⟨rfl, -⟩ := Prod.mk.inj h
    exact ⟨rfl, rfl⟩
  | succ fuel ih =>
    simp only [run] at h
    split at h
    · next middle hstep =>
      obtain ⟨hsteps, hlimit⟩ := clock_of_step machine
      rw [hstep] at hsteps hlimit
      obtain ⟨hrest, hkept⟩ := ih h
      constructor
      · rw [hrest, hsteps]
        omega
      · rw [hkept, hlimit]
    · next hended => exact (hended next h).elim

/-- A run that ends has ended alike after as many steps as it counted. -/
theorem run_steps (h : machine.run fuel = (final, outcome)) (hended : outcome ≠ .running) :
    machine.steps < final.steps ∧ final.steps ≤ machine.steps + fuel ∧
      machine.run (final.steps - machine.steps) = (final, outcome) := by
  obtain ⟨k, last, hlast, hstep⟩ := exists_last_step hended h
  have hsteps := (clock_of_running hlast).1
  have hcount : final.steps = last.steps + 1 := by
    have hclock := (clock_of_step last).1
    rw [hstep] at hclock
    exact hclock
  have hrun : machine.run (k + 1) = (final, outcome) := by
    rw [run_succ hlast, hstep]
  have hlt : k < fuel := by
    -- after all its fuel the run has ended, so it is not going on then or later
    by_contra hge
    obtain ⟨more, rfl⟩ := Nat.exists_eq_add_of_le (Nat.le_of_not_lt hge)
    rw [run_add_of_ended fuel more machine (by rw [h]; exact hended), h] at hlast
    exact hended (Prod.mk.inj hlast).2
  have hexact : final.steps - machine.steps = k + 1 := by omega
  rw [hexact]
  exact ⟨by omega, by omega, hrun⟩

/-! ## Executions -/

/-- The same steps are made under all limits that allow them. -/
theorem execute_withLimit (h : Allows limit fuel) (h' : Allows limit' fuel) :
    (new program board limit').execute fuel =
      Prod.map (withLimit · limit') id ((new program board limit).execute fuel) := by
  rw [execute_new, execute_new]
  cases program.entrypoint? with
  | none => rfl
  | some entry =>
    rw [← Nat.zero_add fuel] at h h'
    let called := { new program board limit with frames := [.new program entry .empty] }
    have hcalled : Allows called.stepLimit (called.steps + fuel) := h
    exact run_withLimit hcalled h'

theorem clock_of_execute (h : (new program board limit).execute fuel = (next, .running)) :
    next.steps = fuel ∧ next.stepLimit = limit := by
  rw [execute_new] at h
  split at h
  · cases h
  · obtain ⟨hsteps, hlimit⟩ := clock_of_running h
    constructor
    · rw [hsteps]
      exact Nat.zero_add fuel
    · exact hlimit

/-- An execution goes on from where it is. -/
theorem execute_add (h : machine.execute fuel = (next, .running)) (more : Nat) :
    machine.execute (fuel + more) = next.run more := by
  unfold execute at h ⊢
  split at h
  · cases h
  · exact run_add h more

/-! ## Ends -/

/-- A run ends in a state, with what it comes to there. -/
def Ends (machine final : Machine) (outcome : Outcome) : Prop :=
  outcome ≠ .running ∧ ∃ fuel, machine.execute fuel = (final, outcome)

theorem Ends.execute_eq (h : machine.Ends final outcome) :
    ∃ fuel, ∀ more, fuel ≤ more → machine.execute more = (final, outcome) := by
  obtain ⟨hended, fuel, hfuel⟩ := h
  refine ⟨fuel, fun more hle => ?_⟩
  obtain ⟨extra, rfl⟩ := Nat.exists_eq_add_of_le hle
  rw [execute_add_of_ended fuel extra machine (by rw [hfuel]; exact hended), hfuel]

/-- A run ends in one way. -/
theorem Ends.unique {final' : Machine} {outcome' : Outcome} (h : machine.Ends final outcome)
    (h' : machine.Ends final' outcome') : final' = final ∧ outcome' = outcome := by
  obtain ⟨fuel, hfuel⟩ := h.execute_eq
  obtain ⟨fuel', hfuel'⟩ := h'.execute_eq
  have hfirst := hfuel (fuel + fuel') (by omega)
  have hsecond := hfuel' (fuel + fuel') (by omega)
  rw [hfirst] at hsecond
  obtain ⟨rfl, rfl⟩ := Prod.mk.inj hsecond
  exact ⟨rfl, rfl⟩

/-- An execution that has ended did so after as many steps as it counted. -/
theorem execute_steps (h : (new program board limit).execute fuel = (final, outcome))
    (hended : outcome ≠ .running) :
    final.steps ≤ fuel ∧ (new program board limit).execute final.steps = (final, outcome) := by
  rw [execute_new] at h ⊢
  split at h
  · obtain ⟨rfl, rfl⟩ := Prod.mk.inj h
    exact ⟨Nat.zero_le fuel, rfl⟩
  · obtain ⟨-, hle, hrun⟩ := run_steps h hended
    rw [show (new program board limit).steps = 0 from rfl] at hle hrun
    rw [Nat.zero_add] at hle
    exact ⟨hle, hrun⟩

/-- A run that ends within a number of steps ends alike under a limit that allows them. -/
theorem Ends.withLimit (h : (new program board limit).Ends final outcome)
    (hlimit : Allows limit final.steps) (hlimit' : Allows limit' final.steps) :
    (new program board limit').Ends (final.withLimit limit') outcome := by
  obtain ⟨hended, fuel, hfuel⟩ := h
  have hexact := (execute_steps hfuel hended).2
  constructor
  · exact hended
  · use final.steps
    rw [execute_withLimit hlimit hlimit', hexact]
    rfl

/-- After a number of steps a run is going on, or it has ended within them. -/
theorem exists_running_or_ends (program : Program) (board : Board) (limit : Option Nat) (n : Nat) :
    (∃ middle, (new program board limit).execute n = (middle, .running)) ∨
      ∃ final outcome, (new program board limit).Ends final outcome ∧ final.steps ≤ n := by
  rcases hresult : (new program board limit).execute n with ⟨final, outcome⟩
  by_cases hended : outcome = .running
  · left
    exact ⟨final, by rw [hended]⟩
  · right
    exact ⟨final, outcome, ⟨hended, n, hresult⟩, (execute_steps hresult hended).1⟩

/-- A run that is still going on when the limit is reached is cut off there. -/
theorem ends_of_exhausted (h : (new program board (some n)).execute n = (next, .running)) :
    (new program board (some n)).Ends (next.clocked (n + 1) (some n))
      (.failed (next.fault (.stepLimit n))) := by
  obtain ⟨hsteps, hlimit⟩ := clock_of_execute h
  have hstep := step_of_exhausted hlimit (Nat.le_of_eq hsteps.symm)
  rw [hsteps] at hstep
  constructor
  · simp
  · use n + 1
    rw [execute_add h, run, hstep]

/-- A step limit cuts a run to an exact prefix.  A run that ends within the limit ends alike
under it, with the same board and the same count of steps.  Any other run executes as many
instructions as the limit says, as it does without a limit, and then fails with its state as it
is after them and one step more on the count.  So under a higher limit a run starts with the
same steps, and it ends otherwise only if it was cut off. -/
theorem ends_within_limit (program : Program) (board : Board) (n : Nat) :
    (∀ final outcome, (new program board none).Ends final outcome → final.steps ≤ n →
      (new program board (some n)).Ends (final.withLimit (some n)) outcome) ∧
    ((∀ final outcome, (new program board none).Ends final outcome → n < final.steps) →
      ∃ middle, (new program board none).execute n = (middle, .running) ∧ middle.steps = n ∧
        (new program board (some n)).execute n = (middle.withLimit (some n), .running) ∧
        (new program board (some n)).Ends { middle with steps := n + 1, stepLimit := some n }
          (.failed (middle.fault (.stepLimit n)))) ∧
    ∀ m, n ≤ m →
      (∀ k ≤ n, (new program board (some m)).execute k =
        Prod.map (withLimit · (some m)) id ((new program board (some n)).execute k)) ∧
      ∀ final outcome, (new program board (some n)).Ends final outcome →
        (∀ fault, outcome = .failed fault → fault.kind ≠ .stepLimitExceeded) →
        (new program board (some m)).Ends (final.withLimit (some m)) outcome := by
  refine ⟨?_, ?_, ?_⟩
  · intro final outcome hends hle
    exact hends.withLimit (allows_none final.steps) (allows_some_iff.2 hle)
  · intro hlong
    rcases exists_running_or_ends program board none n with
      ⟨middle, hmiddle⟩ | ⟨final, outcome, hends, hle⟩
    · have hlimited : (new program board (some n)).execute n =
          (middle.withLimit (some n), .running) := by
        rw [execute_withLimit (allows_none n) (allows_some_iff.2 le_rfl), hmiddle]
        rfl
      have hcut := ends_of_exhausted hlimited
      exact ⟨middle, hmiddle, (clock_of_execute hmiddle).1, hlimited, hcut⟩
    · have hlt := hlong final outcome hends
      omega
  · intro m hnm
    constructor
    · intro k hk
      exact execute_withLimit (allows_some_iff.2 hk) (allows_some_iff.2 (hk.trans hnm))
    · intro final outcome hends hkind
      rcases exists_running_or_ends program board (some n) n with
        ⟨middle, hmiddle⟩ | ⟨final', outcome', hends', hle⟩
      · obtain ⟨-, rfl⟩ := (ends_of_exhausted hmiddle).unique hends
        exact (hkind _ rfl rfl).elim
      · obtain ⟨rfl, rfl⟩ := hends.unique hends'
        exact hends.withLimit (allows_some_iff.2 hle) (allows_some_iff.2 (hle.trans hnm))

/-- A run of ten steps: it ends alike under a limit of ten, from there also under one of
twenty, and is cut off by a limit of three. -/
theorem ends_within_limit_probe :
    ∃ final middle : Machine, final.steps = 10 ∧ middle.steps = 3 ∧
      (new Probe.program Probe.board none).Ends final (.finished [("n", .int 1)]) ∧
      (new Probe.program Probe.board (some 10)).Ends (final.withLimit (some 10))
        (.finished [("n", .int 1)]) ∧
      (new Probe.program Probe.board (some 20)).Ends (final.withLimit (some 20))
        (.finished [("n", .int 1)]) ∧
      (new Probe.program Probe.board (some 3)).Ends
        { middle with steps := 4, stepLimit := some 3 }
        (.failed (middle.fault (.stepLimit 3))) := by
  obtain ⟨final, hends, hsteps⟩ : ∃ final,
      (new Probe.program Probe.board none).Ends final (.finished [("n", .int 1)]) ∧
        final.steps = 10 := by
    refine ⟨((new Probe.program Probe.board none).execute 10).1, ⟨?_, 10, ?_⟩, ?_⟩
    · intro h
      cases h
    · rfl
    · decide
  obtain ⟨middle, -, hmiddle, -, hcut⟩ :=
    (ends_within_limit Probe.program Probe.board 3).2.1 fun _ _ h => by
      rw [(hends.unique h).1, hsteps]
      decide
  have hlimited := (ends_within_limit Probe.program Probe.board 10).1 final _ hends hsteps.le
  have hraised := ((ends_within_limit Probe.program Probe.board 10).2.2 20 (by decide)).2 _ _
    hlimited (fun _ h => by cases h)
  exact ⟨final, middle, hsteps, hmiddle, hends, hlimited, hraised, hcut⟩

end Machine
end Gobstones
