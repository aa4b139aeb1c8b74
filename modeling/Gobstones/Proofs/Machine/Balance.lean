import Gobstones.Proofs.Machine.Safety
/-!
# Exact stack depths

This module compares the operand stack of a run with the depths that the check of programs
records.  An activation begins at the height that is left when its arguments are popped; it
has the recorded number of values above that height as long as every call leaves as many
values as the check expects.  The check sees to that for functions, but a procedure may
return values that nobody expects, and then the depths are too small.

Main definitions:

- {lit}`Machine.heights`: the heights at which the activations of a run begin.
- {lit}`Program.Balanced`: the returns of called routines leave what calls expect.
- {lit}`Machine.Exact`: every activation has as many values as the check records.

Main results:

- Theorem {lit}`Machine.Exact.step`: a step of a balanced program keeps the depths exact.
- Theorem {lit}`Machine.stack_of_accepted`: the depths of balanced programs are exact, and
  calls leave exactly the results of their routines.
- Theorem {lit}`Machine.stack_of_surplus`: an accepted procedure that returns a value makes
  the stack higher than recorded.
-/

namespace Gobstones

/-! ## Balanced programs -/

namespace Program

/-- A call of the program enters a routine of its own. -/
def Calls (program : Program) (routine : Routine) : Prop :=
  ∃ caller ∈ program.routines, ∃ name argc, .call name argc ∈ caller.code ∧
    program.callee? name = some (program, routine)

/-- Called routines leave exactly what their calls expect: of the returns that are reached, those
of procedures and entrypoints return no values, and those of variables leave as many values as
the routine has results. -/
structure Balanced (program : Program) : Prop where
  ret : ∀ routine, program.Calls routine → routine.kind ≠ .function → ∀ position n,
    (program.depthAt? routine position).isSome → routine.code[position]? = some (.ret n) → n = 0
  returnVars : ∀ routine, program.Calls routine → ∀ position n names depth,
    program.depthAt? routine position = some depth →
      routine.code[position]? = some (.returnVars n names) → depth = routine.resultCount

/-- An accepted program without links passes the checks of calls and of stack depths. -/
theorem Measured.of_accepted {program : Program} (h : program.Accepted)
    (hlinks : program.links = []) : program.Measured := by
  obtain ⟨hothers, hdepths⟩ := List.append_eq_nil_iff.1 h
  obtain ⟨hentry, -⟩ := List.append_eq_nil_iff.1 hothers
  obtain ⟨-, hcalls⟩ := List.append_eq_nil_iff.1 hentry
  rw [hcalls] at hdepths
  refine ⟨fun home hhome => ?_, fun home hhome => ?_⟩
  · rw [hhome.eq_of_links hlinks, hcalls]
  · rw [hhome.eq_of_links hlinks]
    exact hdepths

end Program

namespace Machine

/-! ## Heights of the operand stack -/

/-- The heights at which the activations of a machine begin, innermost first, after a step from
a machine with the given ones: a call notes the height of the stack without its arguments, and
a return forgets the height of the activation that is left. -/
def nextHeights (machine next : Machine) (heights : List Nat) : List Nat :=
  if machine.depth < next.depth then next.stack.length :: heights
  else heights.drop (machine.depth - next.depth)

/-- The heights at which the activations begin after {lit}`fuel` steps from a machine with the
given ones. -/
def heights (machine : Machine) (noted : List Nat) : Nat → List Nat
  | 0 => noted
  | fuel + 1 =>
    match machine.step with
    | (next, .running) => next.heights (machine.nextHeights next noted) fuel
    | _ => noted

/-! ## Exact machines -/

/-- The activations begin at the given heights: each where the values that its callers have kept
end. -/
inductive Based (program : Program) : List Activation → List Nat → Prop where
  | nil : Based program [] []
  | cons {top : Activation} {callers : List Activation} {base : Nat} {bases : List Nat}
    (hwaiting : Waiting program top.routine callers base) (h : Based program callers bases) :
    Based program (top :: callers) (base :: bases)

/-- The operand stack holds exactly the recorded depth above the height at which the innermost
activation begins. -/
structure Exact (program : Program) (top : Activation) (callers : List Activation)
    (bases : List Nat) (machine : Machine) : Prop where
  frames : machine.frames = top :: callers
  owns : program.Owns top.program top.routine
  based : Based program (top :: callers) bases
  stack : ∃ depth base, bases.head? = some base ∧
    top.program.depthAt? top.routine top.ip = some depth ∧ machine.stack.length = base + depth

variable {program : Program} {top : Activation} {callers : List Activation} {bases : List Nat}
  {machine next : Machine} {instruction : Instruction}

/-- The values that callers have kept are determined by where the callers are. -/
theorem Waiting.unique {routine : Routine} {kept kept' : Nat}
    (h : Waiting program routine callers kept) (h' : Waiting program routine callers kept') :
    kept = kept' := by
  induction h generalizing kept' with
  | nil =>
    cases h'
    rfl
  | @cons routine home caller callers name argc depth kept _ hcall _ hdepth _ ih =>
    cases h' with
    | @cons _ _ _ _ name' argc' depth' kept'' _ hcall' _ hdepth' hwaiting' =>
      obtain ⟨-, rfl⟩ : name = name' ∧ argc = argc' := by simpa [hcall] using hcall'
      obtain rfl : depth = depth' := by simpa [hdepth] using hdepth'
      rw [ih hwaiting']

theorem Exact.base_eq (h : Exact program top callers bases machine) {kept : Nat}
    (hwaiting : Waiting program top.routine callers kept) : bases.head? = some kept := by
  cases h.based with
  | cons hbase _ => rw [List.head?_cons, hbase.unique hwaiting]

/-- A called routine of a balanced program returns with exactly its results. -/
theorem depth_of_return (hmeasured : program.Measured) (hbalanced : program.Balanced)
    {routine : Routine} (hcalls : program.Calls routine) (howns : program.Owns program routine)
    {position depth : Nat} (hdepth : program.depthAt? routine position = some depth)
    (hinstruction : routine.code[position]? = some instruction)
    (hreturn : (∃ n, instruction = .ret n) ∨ ∃ n names, instruction = .returnVars n names) :
    depth = routine.resultCount := by
  have hfits := hmeasured.depthFits howns hdepth hinstruction
  rcases hreturn with ⟨n, rfl⟩ | ⟨n, names, rfl⟩
  · obtain ⟨hn, hcount⟩ := Routine.returnProblems_eq_nil hinstruction (hfits.ret_ok n rfl)
    by_cases hkind : routine.kind = .function
    · rw [hn, hcount hkind]
    · rw [hn, Routine.resultCount, if_neg hkind]
      exact hbalanced.ret routine hcalls hkind position n (by simp [hdepth]) hinstruction
  · exact hbalanced.returnVars routine hcalls position n names depth hdepth hinstruction

/-- A step of a balanced program keeps the depths exact. -/
theorem Exact.step (hlinks : program.links = []) (hmeasured : program.Measured)
    (hbalanced : program.Balanced) (h : Exact program top callers bases machine)
    (hstep : machine.step = (next, .running)) :
    ∃ top' callers', Exact program top' callers' (machine.nextHeights next bases) next := by
  obtain ⟨first, others, instruction, hframes, hinstruction, hmoves⟩ := moves_of_step hstep
  obtain ⟨rfl, rfl⟩ : top = first ∧ callers = others := by simpa [hframes] using h.frames.symm
  obtain ⟨depth, base, hbase, hdepth, hstack⟩ := h.stack
  have hfits := hmeasured.depthFits h.owns hdepth hinstruction
  have hpops := hfits.pops_le
  have hbased := h.based
  cases hbased with
  | @cons _ _ base' bases hwaiting hcallers =>
    obtain rfl : base' = base := by simpa using hbase
    cases hmoves with
    | @stay _ _ here hframes' hprogram hroutine hip _ _ hstack' _ =>
      have hheights : machine.nextHeights next (base' :: bases) = base' :: bases := by
        simp [nextHeights, Machine.depth, hframes, hframes']
      rw [hheights]
      refine ⟨here, callers, hframes', by rw [hprogram, hroutine]; exact h.owns,
        .cons (hroutine ▸ hwaiting) hcallers, _, base', rfl,
        by rw [hprogram, hroutine]; exact hfits.next here.ip hip, ?_⟩
      rw [hstack', Program.depthAfter]
      omega
    | @call name argc _ home routine locals hcallee _ hframes' _ hstack' _ =>
      have howns := h.owns.callee hcallee
      have hpops : argc ≤ depth := hpops
      have hheights : machine.nextHeights next (base' :: bases) =
          next.stack.length :: base' :: bases := by
        simp [nextHeights, Machine.depth, hframes, hframes']
      have hlength : next.stack.length = depth - argc + base' := by omega
      rw [hheights, hlength]
      exact ⟨.new home routine locals, top :: callers, by rw [hframes', hframes], howns,
        .cons (.cons h.owns hinstruction hcallee hdepth hwaiting) h.based, 0, _, rfl,
        (hmeasured.depthsFit howns).start, hlength⟩
    | @ret _ _ caller rest hcallers' hframes' hreturn hstack' _ =>
      subst hcallers'
      cases hwaiting with
      | @cons _ home _ _ name argc depth' kept howns hcall hcallee hdepth' hkept =>
        have hresults : depth = top.routine.resultCount := by
          have hcaller := howns.reaches.eq_of_links hlinks
          have hhome := (howns.callee hcallee).reaches.eq_of_links hlinks
          have htop := h.owns.reaches.eq_of_links hlinks
          rw [hcaller, hhome] at hcallee
          rw [htop] at hdepth
          exact depth_of_return hmeasured hbalanced
            ⟨_, hcaller ▸ howns.mem, name, argc, Array.mem_of_getElem? hcall, hcallee⟩
            ⟨.refl, htop ▸ h.owns.mem⟩ hdepth hinstruction hreturn
        have hdepth'' := hmeasured.depthAt?_after_call howns hdepth' hcall hcallee
        cases hcallers with
        | @cons _ _ below bases hwaiting' hrest =>
          obtain rfl := hwaiting'.unique hkept
          have hheights : machine.nextHeights next ((depth' - argc + below) :: below :: bases) =
              below :: bases := by
            simp [nextHeights, Machine.depth, hframes, hframes']
          rw [hheights]
          refine ⟨caller.advance, rest, hframes', howns, .cons hwaiting' hrest, _, below, rfl,
            hdepth'', ?_⟩
          rw [hstack', hstack, hresults]
          omega

/-- A balanced program stays exact throughout a run. -/
theorem Exact.run (hlinks : program.links = []) (hmeasured : program.Measured)
    (hbalanced : program.Balanced) (h : Exact program top callers bases machine) {fuel : Nat}
    (hrun : machine.run fuel = (next, .running)) :
    ∃ top' callers', Exact program top' callers' (machine.heights bases fuel) next := by
  induction fuel generalizing machine top callers bases with
  | zero =>
    obtain ⟨rfl, -⟩ := Prod.mk.inj hrun
    exact ⟨top, callers, h⟩
  | succ fuel ih =>
    simp only [Machine.run] at hrun
    split at hrun
    · next middle hstep =>
      obtain ⟨top', callers', h'⟩ := h.step hlinks hmeasured hbalanced hstep
      simp only [heights, hstep]
      exact ih h' hrun
    · next hended => exact (hended next hrun).elim

/-! ## Calls that return -/

/-- A step leaves the callers of the activations above them as they are, unless it returns to the
innermost of them. -/
theorem frames_of_step {inner : List Activation} (hinner : inner ≠ [])
    (hframes : machine.frames = inner ++ callers) (hstep : machine.step = (next, .running)) :
    (∃ inner', inner' ≠ [] ∧ next.frames = inner' ++ callers) ∨
      ∃ caller rest, callers = caller :: rest ∧ next.frames = caller.advance :: rest := by
  obtain ⟨top, others, instruction, htop, -, hmoves⟩ := moves_of_step hstep
  obtain ⟨first, below, rfl⟩ := List.exists_cons_of_ne_nil hinner
  obtain ⟨rfl, rfl⟩ : first = top ∧ below ++ callers = others := by
    simpa [htop, eq_comm] using hframes
  cases hmoves with
  | @stay _ _ here hframes' => exact .inl ⟨here :: below, by simp, hframes'⟩
  | @call _ _ _ home routine locals _ _ hframes' =>
    exact .inl ⟨.new home routine locals :: first :: below, by simp, by rw [hframes', hframes]; rfl⟩
  | @ret _ _ caller rest hcallers hframes' =>
    cases below with
    | nil => exact .inr ⟨caller, rest, hcallers, hframes'⟩
    | cons second below =>
      obtain ⟨rfl, rfl⟩ : second = caller ∧ below ++ callers = rest := by simpa using hcallers
      exact .inl ⟨second.advance :: below, by simp, hframes'⟩

/-- A run to the first state that is as deep as the callers returns to the innermost of them. -/
theorem frames_of_return {inner : List Activation} (hinner : inner ≠ [])
    (hframes : machine.frames = inner ++ callers) {n : Nat}
    (hrun : machine.run n = (next, .running)) (hdepth : next.depth = callers.length)
    (hinside : ∀ k < n, ∀ middle, machine.run k = (middle, .running) →
      callers.length < middle.depth) :
    ∃ caller rest, callers = caller :: rest ∧ next.frames = caller.advance :: rest := by
  have hnone (inner : List Activation) (hinner : inner ≠ [])
      (hframes : next.frames = inner ++ callers) : False := by
    have hpos := List.length_pos_of_ne_nil hinner
    rw [depth, hframes, List.length_append] at hdepth
    omega
  cases n with
  | zero =>
    obtain ⟨rfl, -⟩ := Prod.mk.inj hrun
    exact (hnone inner hinner hframes).elim
  | succ n =>
    obtain ⟨last, hlast, hreturn⟩ := exists_step_of_run hrun
    have hstep (before after : Machine)
        (hbefore : ∃ inner, inner ≠ [] ∧ before.frames = inner ++ callers)
        (hafter : before.step = (after, .running)) (habove : callers.length < after.depth) :
        ∃ inner, inner ≠ [] ∧ after.frames = inner ++ callers := by
      obtain ⟨inner, hinner, hframes⟩ := hbefore
      rcases frames_of_step hinner hframes hafter with hinside | ⟨caller, rest, rfl, hreturned⟩
      · exact hinside
      · simp [depth, hreturned] at habove
    obtain ⟨inner', hinner', hframes'⟩ :=
      invariant_of_inside hstep ⟨inner, hinner, hframes⟩ hinside (Nat.lt_succ_self n) hlast
    rcases frames_of_step hinner' hframes' hreturn with ⟨above, habove, hnext⟩ | hreturned
    · exact (hnone above habove hnext).elim
    · exact hreturned

/-- A call that returns leaves exactly the results of its routine in the place of its
arguments. -/
theorem Exact.length_of_return (hlinks : program.links = []) (hmeasured : program.Measured)
    (hbalanced : program.Balanced) (h : Exact program top callers bases machine) {name : String}
    {argc : Nat} (hcall : top.instruction? = some (.call name argc)) {home : Program}
    {routine : Routine} (hcallee : top.program.callee? name = some (home, routine)) {n : Nat}
    (hrun : machine.run (n + 1) = (next, .running)) (hdepth : next.depth = machine.depth)
    (hinside : ∀ k, 0 < k → k ≤ n → ∀ middle, machine.run k = (middle, .running) →
      machine.depth < middle.depth) :
    next.frames = top.advance :: callers ∧
      next.stack.length + argc = machine.stack.length + routine.resultCount := by
  obtain ⟨last, below, hlast⟩ := h.run hlinks hmeasured hbalanced hrun
  simp only [Machine.run] at hrun
  split at hrun
  · next called hstep =>
    obtain ⟨first, others, instruction, hfirst, hinstruction, hmoves⟩ := moves_of_step hstep
    obtain ⟨rfl, rfl⟩ : top = first ∧ callers = others := by simpa [hfirst] using h.frames.symm
    obtain rfl : .call name argc = instruction := by simpa [hcall] using hinstruction
    cases hmoves with
    | stay _ _ _ _ hnone => simp [hnone name argc rfl] at hcallee
    | ret _ _ hreturn => simp at hreturn
    | @call _ _ _ home' routine' locals hcallee' _ hframes' _ hstack' =>
      obtain ⟨rfl, rfl⟩ : home' = home ∧ routine' = routine := by
        simpa [hcallee] using hcallee'.symm
      have hframes : called.frames = [.new home' routine' locals] ++ (top :: callers) := by
        rw [hframes', hfirst]
        rfl
      have hlater (k : Nat) (hk : k < n) (middle : Machine)
          (hmiddle : called.run k = (middle, .running)) :
          (top :: callers).length < middle.depth := by
        rw [← hfirst]
        exact hinside (k + 1) (by omega) (by omega) middle (by simp [Machine.run, hstep, hmiddle])
      obtain ⟨caller, rest, hcallers, hnext⟩ :=
        frames_of_return (by simp) hframes hrun (by rw [hdepth, depth, hfirst]) hlater
      obtain ⟨rfl, rfl⟩ : top = caller ∧ callers = rest := by simpa using hcallers
      refine ⟨hnext, ?_⟩
      obtain ⟨before, base, hbase, hbefore, hheight⟩ := h.stack
      obtain ⟨after, base', hbase', hafter, hheight'⟩ := hlast.stack
      obtain ⟨rfl, rfl⟩ : top.advance = last ∧ callers = below := by
        simpa [hnext] using hlast.frames
      have hfits := hmeasured.depthFits h.owns hbefore hcall
      have hpops : argc ≤ before := hfits.pops_le
      have hreached := hmeasured.depthAt?_after_call h.owns hbefore hcall hcallee
      obtain rfl : before - argc + routine'.resultCount = after := by
        simpa using hreached.symm.trans hafter
      have hsame : base' = base := by
        cases h.based with
        | cons hwaiting _ =>
          have hbase'' := hlast.base_eq hwaiting
          simp only [List.head?_cons] at hbase
          rw [hbase'] at hbase''
          simp_all
      rw [hheight', hsame, hheight]
      omega
  · next hended => exact (hended next hrun).elim

/-! ## Accepted programs -/

/-- In a run of an accepted program whose called routines leave what their calls expect, every
activation has exactly the recorded number of values above the height at which it began, and
a call that returns puts exactly the results of its routine in the place of its arguments. -/
theorem stack_of_accepted (haccepted : program.Accepted) (hlinks : program.links = [])
    (hbalanced : program.Balanced) {board : Board} {limit : Option Nat} {called : Machine}
    (hcalled : (Machine.new program board limit).callEntrypoint = some called) {fuel : Nat}
    (hrun : called.run fuel = (machine, .running)) :
    ∃ top callers base bases depth, machine.frames = top :: callers ∧
      called.heights [0] fuel = base :: bases ∧
      top.program.depthAt? top.routine top.ip = some depth ∧
      machine.stack.length = base + depth ∧
      ∀ name argc home routine, top.instruction? = some (.call name argc) →
        top.program.callee? name = some (home, routine) → ∀ n next,
        machine.run (n + 1) = (next, .running) → next.depth = machine.depth →
        (∀ k, 0 < k → k ≤ n → ∀ middle, machine.run k = (middle, .running) →
          machine.depth < middle.depth) →
        next.frames = top.advance :: callers ∧
          next.stack.length + argc = machine.stack.length + routine.resultCount := by
  have hmeasured := Program.Measured.of_accepted haccepted hlinks
  obtain ⟨entry, hentry, rfl⟩ := Option.map_eq_some_iff.1 hcalled
  have howns := Program.owns_entrypoint hentry
  have hstart : Exact program (.new program entry .empty) [] [0]
      { Machine.new program board limit with frames := [.new program entry .empty] } :=
    ⟨rfl, howns, .cons .nil .nil, 0, 0, rfl, (hmeasured.depthsFit howns).start, rfl⟩
  obtain ⟨top, callers, hexact⟩ := hstart.run hlinks hmeasured hbalanced hrun
  obtain ⟨depth, base, hbase, hdepth, hstack⟩ := hexact.stack
  obtain ⟨bases, hbases⟩ := List.head?_eq_some_iff.1 hbase
  exact ⟨top, callers, base, bases, depth, hexact.frames, hbases, hdepth, hstack,
    fun _ _ _ _ hcall hcallee _ _ hlater hdeep hinside =>
      hexact.length_of_return hlinks hmeasured hbalanced hcall hcallee hlater hdeep hinside⟩

end Machine

namespace Probe

/-- The only call of a routine is that of the function, which returns from the stack. -/
theorem eq_probe_of_calls {routine : Routine} (h : program.Calls routine) : routine = probe := by
  obtain ⟨caller, hcaller, name, argc, hcall, hcallee⟩ := h
  have hname : name ∈ ["probe", "PutStone", "numStones"] := by
    simp only [program, List.mem_cons, List.not_mem_nil, or_false] at hcaller
    rcases hcaller with rfl | rfl
    · have hcall : name = "probe" ∧ argc = 0 := by simpa [main] using hcall
      simp [hcall.1]
    · have hcall : name = "PutStone" ∧ argc = 1 ∨ name = "numStones" ∧ argc = 1 := by
        simpa [probe] using hcall
      rcases hcall with hcall | hcall <;> simp [hcall.1]
  simp only [List.mem_cons, List.not_mem_nil, or_false] at hname
  rcases hname with rfl | rfl | rfl
  · exact (Prod.mk.inj (Option.some.inj hcallee)).2.symm
  · simp [Program.callee?, show program.resolve? "PutStone" = some (.builtin _) from rfl] at hcallee
  · simp [Program.callee?, show program.resolve? "numStones" = some (.builtin _) from rfl] at hcallee

theorem balanced : program.Balanced where
  ret routine h hkind := by
    rw [eq_probe_of_calls h] at hkind
    exact (hkind rfl).elim
  returnVars routine h position n names depth _ hcode := by
    rw [eq_probe_of_calls h] at hcode
    have hmem := Array.mem_of_getElem? hcode
    simp [probe] at hmem

end Probe

namespace Machine

/-- The function has one value above the height at which it began before it returns, and leaves
one value for its caller. -/
theorem stack_of_accepted_probe :
    (∃ base bases, Probe.start.heights [0] 6 = base :: bases ∧
      (Probe.start.run 6).1.stack.length = base + 1) ∧
      (Probe.start.run 8).1.frames = [(Activation.new Probe.program Probe.main .empty).advance] ∧
      (Probe.start.run 8).1.stack.length + 0 =
        Probe.start.stack.length + Probe.probe.resultCount := by
  have haccepted : Probe.program.Accepted := by decide +kernel
  have hcalled : (Machine.new Probe.program Probe.board none).callEntrypoint =
      some Probe.start := rfl
  have hrun (n : Nat) (h : (Probe.start.run n).2 = .running) :
      Probe.start.run n = ((Probe.start.run n).1, .running) := Prod.ext rfl h
  constructor
  · obtain ⟨top, callers, base, bases, depth, hframes, hbases, hdepth, hstack, -⟩ :=
      stack_of_accepted haccepted rfl Probe.balanced hcalled (hrun 6 (by decide))
    obtain ⟨rfl, rfl⟩ := List.cons.inj hframes.symm
    have hone : Probe.program.depthAt? Probe.probe 5 = some 1 := by decide +kernel
    obtain rfl := Option.some.inj (hone.symm.trans hdepth)
    exact ⟨base, bases, hbases, hstack⟩
  · obtain ⟨top, callers, base, bases, depth, hframes, -, -, -, hcalls⟩ :=
      stack_of_accepted haccepted rfl Probe.balanced hcalled (rfl : Probe.start.run 0 = _)
    obtain ⟨rfl, rfl⟩ := List.cons.inj hframes.symm
    have hinside : ∀ k, 0 < k → k ≤ 7 → ∀ middle, Probe.start.run k = (middle, .running) →
        Probe.start.depth < middle.depth := by
      have hdeep : ∀ k ≤ 7, 0 < k → Probe.start.depth < (Probe.start.run k).1.depth := by decide
      intro k hpos hle middle hmiddle
      have := hdeep k hle hpos
      rwa [hmiddle] at this
    exact hcalls "probe" 0 Probe.program Probe.probe rfl rfl 7 _ (hrun 8 (by decide)) (by decide)
      hinside

end Machine

/-! ## A procedure with a value too many -/

namespace Surplus

/-- Return a value that nobody expects. -/
def leave : Routine where
  kind := .procedure
  name := "Leave"
  params := []
  code := #[.pushConst (.int 7), .ret 1]
  targets := Array.replicate 2 none
  resolved := rfl

/-- Call the procedure with a value on the stack, and return that value. -/
def main : Routine where
  kind := .entrypoint
  name := "program"
  params := []
  code := #[.pushConst (.int 5), .call "Leave" 0, .popTo "x", .returnVars 1 ["x@Int"]]
  targets := Array.replicate 4 none
  resolved := rfl

/-- The program of both routines. -/
def program : Program where
  moduleName := "main"
  routines := [main, leave]
  builtins := BuiltinTable.standard
  links := []
  distinct := by decide

/-- A run about to make its first step. -/
def start : Machine :=
  { Machine.new program Probe.board none with frames := [.new program main .empty] }

end Surplus

namespace Machine

/-- The program is accepted, but after the call there are two values where the check records
one, and it is the value of the procedure that is returned in the end. -/
theorem stack_of_surplus :
    Surplus.program.Accepted ∧ Surplus.program.links = [] ∧
      (Machine.new Surplus.program Probe.board none).callEntrypoint = some Surplus.start ∧
      (∃ machine top, Surplus.start.run 4 = (machine, .running) ∧ machine.frames = [top] ∧
        Surplus.start.heights [0] 4 = [0] ∧
        top.program.depthAt? top.routine top.ip = some 1 ∧ machine.stack.length = 0 + 2) ∧
      (Surplus.start.run 6).2 = .finished [("x", .int 7)] := by
  refine ⟨by decide +kernel, rfl, rfl, ⟨(Surplus.start.run 4).1,
    { program := Surplus.program, routine := Surplus.main, ip := 2, locals := .empty,
      immutable := [] },
    rfl, rfl, rfl, by decide +kernel, rfl⟩, rfl⟩

end Machine
end Gobstones
