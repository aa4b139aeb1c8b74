import Gobstones.Proofs.Machine.Balance
/-!
# Callers are isolated from callees

This module shows that a call of an accepted program does not touch what its callers have
in suspense.  All activations work on one operand stack, and an instruction pops whatever
lies there, so the argument rests on the depths that the check records: an activation
never has less above the values that were kept at its call than its depth says.

Main definitions:

- {lit}`Machine.Shelters`: the activations above some callers leave alone what the callers
  have kept.

Main results:

- Theorem {lit}`Machine.drop_suffix_of_step`: a step leaves the values below those that it
  pops.
- Theorem {lit}`Machine.Shelters.step`: a step shelters what callers have kept, or returns to
  the innermost of them.
- Theorem {lit}`Machine.callers_of_call`: what the callers have is the same during a call and
  after it.
-/

namespace Gobstones

/-! ## Accepted programs without links -/

/-- A program that is accepted and has no links is verified, if its functions return values from
the stack. -/
theorem Program.Verified.of_accepted {program : Program} (h : program.Accepted)
    (hlinks : program.links = [])
    (hreturns : ∀ routine ∈ program.routines, routine.kind = .function →
      ∀ n names, .returnVars n names ∉ routine.code) : program.Verified := by
  have hmeasured := Program.Measured.of_accepted h hlinks
  obtain ⟨hothers, -⟩ := List.append_eq_nil_iff.1 h
  obtain ⟨-, hbrackets⟩ := List.append_eq_nil_iff.1 hothers
  refine ⟨⟨fun home hhome => ?_, fun home hhome => ?_⟩, hmeasured.calls, hmeasured.depths⟩
  · rw [hhome.eq_of_links hlinks]
    exact hbrackets
  · rw [hhome.eq_of_links hlinks]
    exact hreturns

namespace Machine

variable {program : Program} {top : Activation} {callers inner : List Activation}
  {machine next : Machine} {instruction : Instruction} {kept : List Value}

/-! ## Values below the popped ones -/

/-- Pushing a result leaves what is on the stack. -/
theorem suffix_pushResult (stack : List Value) (result : Option Value) :
    stack <:+ pushResult stack result := by
  cases result with
  | none => exact List.suffix_refl stack
  | some value => exact List.suffix_cons value stack

/-- An instruction leaves the values below those that it pops. -/
theorem drop_suffix_of_goesOn (h : GoesOn machine top callers instruction next) :
    machine.stack.drop (top.program.effect instruction).1 <:+ next.stack := by
  cases h with
  | pushConst value | @pushFrom _ value => exact List.suffix_cons value machine.stack
  | delVar | setImmutable | unsetImmutable | label | jump | returnVars | enter | leave =>
    exact List.suffix_refl machine.stack
  | popTo _ hstack | onTrue hstack | onFalse hstack | onMember hstack | onOther hstack =>
    rw [hstack]
    exact List.suffix_refl _
  | @builtin _ argc _ _ stack _ _ _ _ hargs =>
    change machine.stack.drop argc <:+ _
    rw [drop_of_popArguments hargs]
    exact suffix_pushResult stack _
  | @routine _ argc _ _ _ stack _ _ hargs =>
    change machine.stack.drop argc <:+ stack
    exact drop_of_popArguments hargs ▸ List.suffix_refl stack
  | ret => exact List.drop_suffix _ machine.stack

/-- A step leaves the values below those that its instruction pops. -/
theorem drop_suffix_of_step (hframes : machine.frames = top :: callers)
    (hinstruction : top.instruction? = some instruction) (h : machine.step = (next, .running)) :
    machine.stack.drop (top.program.effect instruction).1 <:+ next.stack := by
  obtain ⟨first, others, current, hfirst, hcurrent, hgoes⟩ := goesOn_of_step h
  obtain ⟨rfl, rfl⟩ : top = first ∧ callers = others := by simpa [hframes] using hfirst
  obtain rfl : instruction = current := by simpa [hinstruction] using hcurrent
  -- the step is counted before it is made, which the stack does not show
  have hdrop := drop_suffix_of_goesOn hgoes
  exact hdrop

/-- What an activation has above the values kept below it does not get less than its depth. -/
theorem exists_above {above below : List Value} {pops : Nat} (hpops : pops ≤ above.length)
    (h : (above ++ below).drop pops <:+ next.stack) :
    ∃ above', next.stack = above' ++ below ∧
      above'.length + pops + (above ++ below).length = above.length + pops + next.stack.length := by
  rw [List.drop_append_of_le_length hpops] at h
  obtain ⟨pushed, hstack⟩ := h
  refine ⟨pushed ++ above.drop pops, by rw [← hstack, List.append_assoc], ?_⟩
  rw [← hstack]
  simp only [List.length_append]
  omega

/-! ## Sheltered values -/

/-- The activations above some callers leave alone the values that the callers have {lit}`kept`:
above them lies at least what the activations have by their depths. -/
structure Shelters (program : Program) (callers : List Activation) (kept : List Value)
    (top : Activation) (inner : List Activation) (machine : Machine) : Prop where
  frames : machine.frames = top :: inner ++ callers
  owns : program.Owns top.program top.routine
  stack : ∃ depth count above, top.program.depthAt? top.routine top.ip = some depth ∧
    Waiting program top.routine inner count ∧ machine.stack = above ++ kept ∧
    depth + count ≤ above.length

/-- A step shelters what the callers have kept, or it returns to the innermost of them with all
values in place. -/
theorem Shelters.step (hverified : program.Verified)
    (h : Shelters program callers kept top inner machine)
    (hstep : machine.step = (next, .running)) :
    (∃ top' inner', Shelters program callers kept top' inner' next) ∨
      ∃ caller rest left, callers = caller :: rest ∧ next.frames = caller.advance :: rest ∧
        machine.stack = left ++ kept ∧ next.stack = left ++ kept := by
  obtain ⟨first, others, instruction, hframes, hinstruction, hmoves⟩ := moves_of_step hstep
  obtain ⟨rfl, rfl⟩ : first = top ∧ others = inner ++ callers := by
    simpa [hframes] using h.frames
  obtain ⟨depth, count, above, hdepth, hwaiting, hstack, hle⟩ := h.stack
  have hfits := hverified.measured.depthFits h.owns hdepth hinstruction
  have hpops := hfits.pops_le
  have hdrop := drop_suffix_of_step hframes hinstruction hstep
  rw [hstack] at hdrop
  obtain ⟨above', hstack', hlength⟩ := exists_above (by omega) hdrop
  cases hmoves with
  | @stay _ _ here hframes' hprogram hroutine hip _ _ hcount _ =>
    refine .inl ⟨here, inner, hframes', by rw [hprogram, hroutine]; exact h.owns, _, count, above',
      by rw [hprogram, hroutine]; exact hfits.next here.ip hip, hroutine ▸ hwaiting, hstack', ?_⟩
    rw [hcount, hstack] at hlength
    simp only [List.length_append] at hlength
    rw [Program.depthAfter]
    omega
  | @call name argc _ home routine locals hcallee _ hframes' _ hcount _ =>
    have howns := h.owns.callee hcallee
    have hpops : argc ≤ depth := hpops
    have hlength : above'.length + argc + (above ++ kept).length =
        above.length + argc + next.stack.length := hlength
    rw [hcount, hstack] at hlength
    simp only [List.length_append] at hlength
    refine .inl ⟨.new home routine locals, first :: inner, by rw [hframes', hframes]; rfl, howns, 0,
      _, above', (hverified.measured.depthsFit howns).start,
      .cons h.owns hinstruction hcallee hdepth hwaiting, hstack', ?_⟩
    omega
  | @ret _ _ caller rest hcallers hframes' hreturn hsame _ =>
    have hresults := resultCount_le_of_return hverified h.owns hdepth hinstruction hreturn
    cases hwaiting with
    | nil => exact .inr ⟨caller, rest, above, hcallers, hframes', hstack, hsame.trans hstack⟩
    | @cons _ home waiting below name argc depth' count' howns hcall hcallee hdepth' hwaiting' =>
      obtain ⟨rfl, rfl⟩ : waiting = caller ∧ below ++ callers = rest := by simpa using hcallers
      have hdepth'' := hverified.measured.depthAt?_after_call howns hdepth' hcall hcallee
      refine .inl ⟨waiting.advance, below, hframes', howns, _, count', above, hdepth'', hwaiting',
        hsame.trans hstack, ?_⟩
      omega

/-- During a call the callers and the values that they have kept stay as they are.  A run up to
the first state that is not deeper than the callers comes back to the innermost of them. -/
theorem Shelters.run (hverified : program.Verified)
    (h : Shelters program callers kept top inner machine) {n : Nat}
    (hrun : machine.run n = (next, .running))
    (hinside : ∀ k < n, ∀ middle, machine.run k = (middle, .running) →
      callers.length < middle.depth) :
    (∃ top' inner', Shelters program callers kept top' inner' next) ∨
      ∃ caller rest last left, callers = caller :: rest ∧ next.frames = caller.advance :: rest ∧
        machine.run (n - 1) = (last, .running) ∧ last.step = (next, .running) ∧
        last.stack = left ++ kept ∧ next.stack = left ++ kept := by
  cases n with
  | zero =>
    obtain ⟨rfl, -⟩ := Prod.mk.inj hrun
    exact .inl ⟨top, inner, h⟩
  | succ n =>
    obtain ⟨last, hlast, hreturn⟩ := exists_step_of_run hrun
    have hkeeps (before after : Machine)
        (hbefore : ∃ top inner, Shelters program callers kept top inner before)
        (hafter : before.step = (after, .running)) (habove : callers.length < after.depth) :
        ∃ top inner, Shelters program callers kept top inner after := by
      obtain ⟨top, inner, hbefore⟩ := hbefore
      rcases hbefore.step hverified hafter with hinside | ⟨caller, rest, left, rfl, hreturned, -⟩
      · exact hinside
      · simp [depth, hreturned] at habove
    obtain ⟨top', inner', h'⟩ :=
      invariant_of_inside hkeeps ⟨top, inner, h⟩ hinside (Nat.lt_succ_self n) hlast
    rcases h'.step hverified hreturn with hshelters | ⟨caller, rest, left, hcallers, hframes, hleft⟩
    · exact .inl hshelters
    · exact .inr ⟨caller, rest, last, left, hcallers, hframes, hlast, hreturn, hleft⟩

/-- All activations of a run shelter the empty stack below the outermost one. -/
theorem Shelters.run_of_outermost (hverified : program.Verified)
    (h : Shelters program [] kept top inner machine) {n : Nat}
    (hrun : machine.run n = (next, .running)) :
    ∃ top' inner', Shelters program [] kept top' inner' next := by
  have hstep (before after : Machine)
      (hbefore : ∃ top inner, Shelters program [] kept top inner before)
      (hafter : before.step = (after, .running)) :
      ∃ top inner, Shelters program [] kept top inner after := by
    obtain ⟨top, inner, hbefore⟩ := hbefore
    rcases hbefore.step hverified hafter with hshelters | ⟨caller, rest, left, hnone, -⟩
    · exact hshelters
    · cases hnone
  exact invariant_of_run hstep ⟨top, inner, h⟩ hrun

/-! ## Calls -/

/-- A call of an accepted program does not touch its callers.  From the call until its activation
returns, all activations below it and all values below its arguments stay as they are; then the
caller goes on right behind the call, and on its own values lies what the call has left. -/
theorem callers_of_call (haccepted : program.Accepted) (hlinks : program.links = [])
    (hreturns : ∀ routine ∈ program.routines, routine.kind = .function →
      ∀ n names, .returnVars n names ∉ routine.code)
    {board : Board} {limit : Option Nat} {called entered : Machine}
    (hcalled : (Machine.new program board limit).callEntrypoint = some called) {fuel : Nat}
    (hmachine : called.run fuel = (machine, .running)) (hframes : machine.frames = top :: callers)
    {name : String} {argc : Nat} (hcall : top.instruction? = some (.call name argc))
    {home : Program} {routine : Routine}
    (hcallee : top.program.callee? name = some (home, routine))
    (hstep : machine.step = (entered, .running)) :
    ∃ args kept, machine.stack = args ++ kept ∧ args.length = argc ∧
      (∃ locals, entered.frames = .new home routine locals :: top :: callers) ∧
      entered.stack = kept ∧
      ∀ n next, entered.run n = (next, .running) →
        (∀ k < n, ∀ middle, entered.run k = (middle, .running) → machine.depth < middle.depth) →
        (∃ inner above, inner ≠ [] ∧ next.frames = inner ++ top :: callers ∧
          next.stack = above ++ kept) ∨
        ∃ last left, entered.run (n - 1) = (last, .running) ∧ last.step = (next, .running) ∧
          next.frames = top.advance :: callers ∧
          last.stack = left ++ kept ∧ next.stack = left ++ kept := by
  have hverified := Program.Verified.of_accepted haccepted hlinks hreturns
  obtain ⟨entry, hentry, rfl⟩ := Option.map_eq_some_iff.1 hcalled
  have howns := Program.owns_entrypoint hentry
  have hstart : Shelters program [] [] (.new program entry .empty) []
      { Machine.new program board limit with frames := [.new program entry .empty] } :=
    ⟨rfl, howns, 0, 0, [], (hverified.measured.depthsFit howns).start, .nil, rfl, le_rfl⟩
  obtain ⟨first, inner, hshelters⟩ := hstart.run_of_outermost hverified hmachine
  obtain ⟨rfl, rfl⟩ : first = top ∧ inner = callers := by
    simpa [hframes, eq_comm] using hshelters.frames
  obtain ⟨depth, count, values, hdepth, -, hvalues, hle⟩ := hshelters.stack
  rw [List.append_nil] at hvalues
  have hpops : argc ≤ depth :=
    (hverified.measured.depthFits hshelters.owns hdepth hcall).pops_le
  obtain ⟨other, others, instruction, hother, hinstruction, hmoves⟩ := moves_of_step hstep
  obtain ⟨rfl, rfl⟩ : first = other ∧ inner = others := by simpa [hframes] using hother
  obtain rfl : .call name argc = instruction := by simpa [hcall] using hinstruction
  cases hmoves with
  | stay _ _ _ _ hnone => simp [hnone name argc rfl] at hcallee
  | ret _ _ hreturn => simp at hreturn
  | @call _ _ _ home' routine' locals hcallee' _ hframes' _ hcount _ =>
    obtain ⟨rfl, rfl⟩ : home' = home ∧ routine' = routine := by simpa [hcallee] using hcallee'.symm
    have howns' := hshelters.owns.callee hcallee
    have hdrop : entered.stack = machine.stack.drop argc :=
      ((drop_suffix_of_step hframes hcall hstep).eq_of_length (by
        rw [hcount]
        exact List.length_drop)).symm
    refine ⟨machine.stack.take argc, entered.stack, by rw [hdrop, List.take_append_drop], ?_,
      ⟨locals, by rw [hframes', hframes]⟩, rfl, fun n next hrun hinside => ?_⟩
    · rw [List.length_take]
      omega
    have hentered : Shelters program machine.frames entered.stack (.new home' routine' locals) []
        entered :=
      ⟨hframes', howns', 0, 0, [], (hverified.measured.depthsFit howns').start, .nil, rfl, le_rfl⟩
    rcases hentered.run hverified hrun hinside with
      ⟨top', inner', hnext⟩ | ⟨caller, rest, last, left, hcallers, hreturn⟩
    · obtain ⟨_, _, above, _, _, habove, _⟩ := hnext.stack
      exact .inl ⟨top' :: inner', above, by simp, hframes ▸ hnext.frames, habove⟩
    · obtain ⟨rfl, rfl⟩ : first = caller ∧ inner = rest := by simpa [hframes] using hcallers
      exact .inr ⟨last, left, hreturn.2.1, hreturn.2.2.1, hreturn.1, hreturn.2.2.2⟩

/-- The procedure with a value too many leaves it on top of the value that its caller had pushed
before the call, and the caller goes on behind the call. -/
theorem callers_of_call_surplus :
    ∃ last left, (Surplus.start.run 2).1.run 1 = (last, .running) ∧
      last.step = ((Surplus.start.run 4).1, .running) ∧
      (Surplus.start.run 4).1.frames =
        [{ Activation.new Surplus.program Surplus.main .empty with ip := 2 }] ∧
      last.stack = left ++ [.int 5] ∧ (Surplus.start.run 4).1.stack = left ++ [.int 5] := by
  have haccepted : Surplus.program.Accepted := by decide +kernel
  have hreturns : ∀ routine ∈ Surplus.program.routines, routine.kind = .function →
      ∀ n names, .returnVars n names ∉ routine.code := by
    simp [Surplus.program, Surplus.main, Surplus.leave]
  have hcalled : (Machine.new Surplus.program Probe.board none).callEntrypoint =
      some Surplus.start := rfl
  obtain ⟨args, kept, hstack, -, -, hkept, hruns⟩ :=
    callers_of_call haccepted rfl hreturns hcalled (rfl : Surplus.start.run 1 = _) rfl rfl
      (rfl : Surplus.program.callee? "Leave" = some (Surplus.program, Surplus.leave))
      (rfl : (Surplus.start.run 1).1.step = ((Surplus.start.run 2).1, .running))
  obtain rfl : [.int 5] = kept := hkept
  have hinside : ∀ k < 2, ∀ middle, (Surplus.start.run 2).1.run k = (middle, .running) →
      (Surplus.start.run 1).1.depth < middle.depth := by
    have hdeep : ∀ k < 2, (Surplus.start.run 1).1.depth <
        ((Surplus.start.run 2).1.run k).1.depth := by decide
    intro k hk middle hmiddle
    have hlt := hdeep k hk
    rwa [hmiddle] at hlt
  rcases hruns 2 (Surplus.start.run 4).1 rfl hinside with
    ⟨inner, above, hinner, hframes, -⟩ | ⟨last, left, hlast, hreturn, hframes, hstacks⟩
  · -- the callee has returned, so nothing lies above the caller
    have hlength := congrArg List.length hframes
    have hpos := List.length_pos_of_ne_nil hinner
    simp only [List.length_append, List.length_cons] at hlength
    have hone : (Surplus.start.run 4).1.frames.length = 1 := rfl
    omega
  · exact ⟨last, left, hlast, hreturn, hframes, hstacks⟩

end Machine
end Gobstones
