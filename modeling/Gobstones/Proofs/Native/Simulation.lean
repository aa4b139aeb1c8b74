import Gobstones.Proofs.Native.Returns
/-!
# Runs in native code

This module shows that native code follows the stack machine.  One step of the machine is
followed by the code of its instruction; by induction on the steps, native code that shows
a machine comes to the end of a run when the machine does.

Main results:

- Theorem {lit}`Simulates.leads_call`: calls, whatever a name stands for.
- Theorem {lit}`leads_step`: native code follows one step.
- Theorem {lit}`leads_run`: native code follows a run that ends.
-/

namespace Gobstones
namespace Native
namespace Setting

variable {setting : Setting} {scene : Scene} {machine final : Machine} {v : View} {n : Nat}
variable {name : String} {argc : Nat} {instruction : Instruction} {outcome : Outcome}

/-! ## Single steps -/

namespace Simulates

/-- Calls go on in the code of a builtin or of a routine, or they fail. -/
theorem leads_call (hprepared : setting.Prepared) (h : setting.Simulates scene machine v n)
    (hinstruction : scene.top.instruction? = some (.call name argc))
    (hsuits : machine.Suits scene.top scene.callers (.call name argc))
    (hexcludes : Excludes (machine.perform scene.top scene.callers (.call name argc)).2) :
    setting.code.Leads v n
      (setting.Arrives (machine.perform scene.top scene.callers (.call name argc))) := by
  rcases h.split hinstruction (by simp) with ⟨first, hcode, hat, hrest⟩
  have hcode : scene.rc.CallCode setting.stubs name argc first := hcode
  simp only [RoutineCompiler.CallCode, h.frame.program] at hcode
  simp only [Machine.perform, Machine.call] at hexcludes ⊢
  cases hresolve : scene.top.program.resolve? name with
  | none =>
    rw [hresolve] at hcode
    exact h.leads_fail hprepared hcode hat
  | some target =>
    rw [hresolve] at hcode hexcludes
    cases target with
    | builtin builtin =>
      by_cases harity : builtin.arity = argc
      · have hcode : BuiltinCode setting.stubs builtin.name first := by
          simpa [harity] using hcode
        exact h.leads_applyBuiltin hprepared hinstruction hresolve hsuits hexcludes hcode hat harity
          hrest
      · have hcode : FailCode setting.stubs (.wrongArity builtin.kind builtin.name builtin.params
            argc) first := by
          simpa [harity] using hcode
        have hcount : builtin.params.length ≠ argc := harity
        simp only [Machine.applyBuiltin, if_pos hcount]
        exact h.leads_fail hprepared hcode hat
    | own callee =>
      have hcallee : scene.top.program.callee? name = some (scene.top.program, callee) := by
        rw [Program.callee?, hresolve]
      exact h.leads_enterRoutine hprepared hinstruction hcallee hcode hat hrest
    | external home callee =>
      have hcallee : scene.top.program.callee? name = some (home, callee) := by
        rw [Program.callee?, hresolve]
      exact h.leads_enterRoutine hprepared hinstruction hcallee hcode hat hrest

/-- The end of a transaction has no code of its own, and what is shown stays the same. -/
theorem leads_fuse (hprepared : setting.Prepared) (h : setting.Simulates scene machine v n)
    (hinstruction : scene.top.instruction? = some .leave) :
    setting.code.Leads v n (setting.Arrives machine.step) := by
  have hstep := h.step_of_leave hprepared hinstruction
  rw [hstep]
  exact .done (.inr ⟨machine, scene, h, hinstruction, hstep⟩)

/-- One step from a state that is shown with its scene. -/
theorem leads_step (hprepared : setting.Prepared) (h : setting.Simulates scene machine v n)
    (htame : machine.TameAnywhere) (hnamed : machine.Named) (hexcludes : Excludes machine.step.2) :
    setting.code.Leads v n (setting.Arrives machine.step) := by
  rcases (hprepared.depthsFit h.frame.owns).closed _ _ h.depth with ⟨instruction, hcode, -⟩
  have hinstruction : scene.top.instruction? = some instruction := hcode
  have hsuits := htame _ _ _ h.frames hinstruction
  have hcounted := h.counted (machine.steps + 1)
  have hstep : machine.step = { machine with steps := machine.steps + 1 }.perform scene.top
      scene.callers instruction := by
    simp only [Machine.step, h.limit, h.frames, hinstruction, Option.filter_none]
  by_cases hleave : instruction = .leave
  · subst hleave
    exact h.leads_fuse hprepared hinstruction
  · rw [hstep] at hexcludes ⊢
    cases instruction with
    | pushConst value => exact hcounted.leads_pushConst hprepared hinstruction
    | pushFrom name => exact hcounted.leads_pushFrom hprepared hinstruction (hsuits.suits (.inr rfl))
    | popTo name => exact hcounted.leads_popTo hprepared hinstruction hexcludes
    | delVar name => exact hcounted.leads_delVar hprepared hinstruction
    | setImmutable name => exact hcounted.leads_skip hprepared hinstruction (.inl rfl)
    | unsetImmutable name => exact hcounted.leads_skip hprepared hinstruction (.inr (.inl rfl))
    | label name => exact hcounted.leads_skip hprepared hinstruction (.inr (.inr rfl))
    | jump name => exact hcounted.leads_jump hprepared hinstruction
    | jumpIfFalse name => exact hcounted.leads_jumpIfFalse hprepared hinstruction hexcludes
    | jumpIfNotIn values name =>
      exact hcounted.leads_jumpIfNotIn hprepared hinstruction (hsuits.suits (.inr rfl))
    | raise message => exact hcounted.leads_raise hprepared hinstruction
    | call name argc =>
      exact hcounted.leads_call hprepared hinstruction (hsuits.suits (.inr rfl)) hexcludes
    | ret count => exact hcounted.leads_ret hprepared hinstruction (hsuits.suits (.inr rfl))
    | returnVars count names =>
      exact hcounted.leads_returnVars hprepared hinstruction ⟨hsuits.suits, hsuits.discards⟩
        (hnamed _ _ _ _ h.frames hinstruction)
    | enter => exact hcounted.leads_enter hprepared hinstruction
    | leave => exact (hleave rfl).elim

end Simulates

/-- Native code follows one step of the machine. -/
theorem leads_step (hprepared : setting.Prepared) (h : setting.Shows machine v n)
    (htame : machine.TameAnywhere) (hnamed : machine.Named) (hexcludes : Excludes machine.step.2) :
    setting.code.Leads v n (setting.Arrives machine.step) := by
  rcases h with ⟨scene, h⟩ | ⟨before, scene, h, hleave, hstep⟩
  · exact h.leads_step hprepared htame hnamed hexcludes
  · exact h.leads_leave hprepared hleave hstep htame

/-! ## Runs -/

/-- Native code follows a run of the machine that ends, if all the states that it shows are
tame. -/
theorem leads_run (hprepared : setting.Prepared) {fuel : Nat} (h : setting.Shows machine v n)
    (htame : ∀ k next v n, machine.run k = (next, .running) → setting.Shows next v n →
      next.TameAnywhere ∧ next.Named)
    (hrun : machine.run fuel = (final, outcome)) (hended : outcome ≠ .running)
    (hexcludes : Excludes outcome) :
    setting.code.Leads v n (setting.Arrives (final, outcome)) := by
  induction fuel generalizing machine v n with
  | zero => exact (hended (Prod.mk.inj hrun).2.symm).elim
  | succ fuel ih =>
    obtain ⟨hfirst, hnamed⟩ := htame 0 machine v n rfl h
    rw [Machine.run] at hrun
    split at hrun
    · next next hstep =>
      have hleads := leads_step hprepared h hfirst hnamed (by rw [hstep]; trivial)
      rw [hstep] at hleads
      refine hleads.trans fun v' n' hshows =>
        ih hshows (fun k last v n hlast => htame (k + 1) last v n ?_) hrun
      rw [Machine.run, hstep]
      exact hlast
    · have hleads := leads_step hprepared h hfirst hnamed (by rw [hrun]; exact hexcludes)
      rwa [hrun] at hleads

end Setting
end Native
end Gobstones
