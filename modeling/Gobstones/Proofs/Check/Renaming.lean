import Gobstones.Proofs.Check.Brackets
import Gobstones.Proofs.Check.Paths
import Gobstones.Proofs.Program.Renaming
/-!
# Checks of renamed routines

This module shows that new names do not matter to the checks of a routine.  Transactions
lie where they did, and the paths stay balanced as long as every call takes and leaves as
many values under its new name.

Main definitions:

- {lit}`Program.CallsAgree`: calls take and leave as many values under their new names.

Main results:

- Theorem {lit}`Routine.Bracketed.renamed`: transactions lie where they did.
- Theorem {lit}`Program.PathsBalanced.renamed`: paths stay balanced.
-/

namespace Gobstones

/-! ## Instructions without names -/

/-- Transactions and returns are the same under new names, and nothing else becomes one. -/
theorem Instruction.rename_eq_iff {names : Renaming} {instruction fixed : Instruction}
    (h : fixed = .enter ∨ fixed = .leave ∨ (∃ n, fixed = .ret n) ∨
      ∃ n vars, fixed = .returnVars n vars) :
    instruction.rename names = fixed ↔ instruction = fixed := by
  rcases h with rfl | rfl | ⟨n, rfl⟩ | ⟨n, vars, rfl⟩ <;> cases instruction <;> simp [rename]

@[simp]
theorem Instruction.operandCount_rename (names : Renaming) (instruction : Instruction) :
    (instruction.rename names).operandCount = instruction.operandCount := by
  cases instruction <;> rfl

namespace Routine

variable {names : Renaming} {routine image : Routine}

theorem IsRenamed.exists_of_getElem? (h : routine.IsRenamed names image) {p : Nat}
    {new : Instruction} (hnew : image.code[p]? = some new) :
    ∃ instruction, routine.code[p]? = some instruction ∧ instruction.rename names = new := by
  rwa [h.code, Array.getElem?_map, Option.map_eq_some_iff] at hnew

theorem IsRenamed.getElem?_eq_some_iff (h : routine.IsRenamed names image) {p : Nat}
    {fixed : Instruction} (hfixed : fixed = .enter ∨ fixed = .leave ∨ (∃ n, fixed = .ret n) ∨
      ∃ n vars, fixed = .returnVars n vars) :
    image.code[p]? = some fixed ↔ routine.code[p]? = some fixed := by
  simp [h.code, Option.map_eq_some_iff, Instruction.rename_eq_iff hfixed]

theorem IsRenamed.target? (h : routine.IsRenamed names image) (p : Nat) :
    image.target? p = routine.target? p := by
  rw [Routine.target?, Routine.target?, h.targets]

theorem IsRenamed.arity (h : routine.IsRenamed names image) : image.arity = routine.arity := by
  simp [Routine.arity, h.params]

/-- The first return is the same under new names. -/
theorem IsRenamed.firstReturn? (h : routine.IsRenamed names image) :
    image.firstReturn? = routine.firstReturn? := by
  unfold Routine.firstReturn?
  rw [h.code, Array.toList_map, List.findSome?_map]
  congr 1
  funext instruction
  cases instruction <;> rfl

theorem IsRenamed.resultCount (h : routine.IsRenamed names image) :
    image.resultCount = routine.resultCount := by
  rw [Routine.resultCount, Routine.resultCount, h.kind, h.firstReturn?]

/-! ## Transactions -/

/-- Transactions lie where they did under new names. -/
theorem Bracketed.renamed (hbracketed : routine.Bracketed)
    (h : routine.IsRenamed names image) : image.Bracketed where
  enter_iff p := by
    rw [h.getElem?_eq_some_iff (by simp), h.kind]
    exact hbracketed.enter_iff p
  kind_of_leave p := by
    rw [h.getElem?_eq_some_iff (by simp), h.kind]
    exact hbracketed.kind_of_leave p
  ret_of_leave p hleave := by
    obtain ⟨n, hret⟩ :=
      hbracketed.ret_of_leave p ((h.getElem?_eq_some_iff (by simp)).1 hleave)
    exact ⟨n, (h.getElem?_eq_some_iff (by simp)).2 hret⟩
  leave_of_ret p n hkind hret := by
    obtain ⟨q, rfl, hleave⟩ := hbracketed.leave_of_ret p n (h.kind ▸ hkind)
      ((h.getElem?_eq_some_iff (by simp)).1 hret)
    exact ⟨q, rfl, (h.getElem?_eq_some_iff (by simp)).2 hleave⟩

end Routine

/-! ## Paths -/

namespace Program

/-- Every call of a routine takes and leaves as many values under its new name. -/
def CallsAgree (home target : Program) (names : Renaming) (routine : Routine) : Prop :=
  ∀ instruction ∈ routine.code, ∀ name ∈ instruction.callName?,
    ∃ callee other, home.resolve? name = some callee ∧
      target.resolve? (names.callName name) = some other ∧
      other.arity = callee.arity ∧ other.resultCount = callee.resultCount

section

variable {home target : Program} {names : Renaming} {routine image : Routine}
  {instruction : Instruction}

theorem CallsAgree.effect_rename (hcalls : home.CallsAgree target names routine)
    (hmem : instruction ∈ routine.code) :
    target.effect (instruction.rename names) = home.effect instruction := by
  cases instruction with
  | call name argc =>
    obtain ⟨callee, other, hcallee, hother, -, hcount⟩ := hcalls _ hmem name rfl
    simp [effect, Instruction.rename, hcallee, hother, hcount]
  | _ => rfl

theorem CallsAgree.alwaysFails_rename (hcalls : home.CallsAgree target names routine)
    (hmem : instruction ∈ routine.code) :
    target.alwaysFails (instruction.rename names) = home.alwaysFails instruction := by
  cases instruction with
  | call name argc =>
    obtain ⟨callee, other, hcallee, hother, harity, -⟩ := hcalls _ hmem name rfl
    simp [alwaysFails, Instruction.rename, hcallee, hother, harity]
  | _ => rfl

theorem CallsAgree.successors_rename (hcalls : home.CallsAgree target names routine)
    (h : routine.IsRenamed names image) (hmem : instruction ∈ routine.code) (p : Nat) :
    target.successors image p (instruction.rename names) =
      home.successors routine p instruction := by
  unfold successors
  rw [hcalls.alwaysFails_rename hmem, h.target? p]
  cases instruction <;> rfl

/-- Every step of a path under new names is a step of the routine itself. -/
theorem CallsAgree.pathStep (hcalls : home.CallsAgree target names routine)
    (h : routine.IsRenamed names image) {before after : Nat × Nat}
    (hstep : target.PathStep image before after) : home.PathStep routine before after := by
  obtain ⟨p, d⟩ := before
  obtain ⟨q, e⟩ := after
  obtain ⟨new, hnew⟩ := hstep.exists_getElem?
  obtain ⟨instruction, hinstruction, rfl⟩ := h.exists_of_getElem? hnew
  have hmem := Array.mem_of_getElem? hinstruction
  obtain ⟨hle, hq, he⟩ := (pathStep_iff hnew).1 hstep
  rw [Instruction.operandCount_rename] at hle
  rw [hcalls.successors_rename h hmem] at hq
  rw [depthAfter, hcalls.effect_rename hmem] at he
  exact (pathStep_iff hinstruction).2 ⟨hle, hq, he⟩

theorem CallsAgree.pathTo (hcalls : home.CallsAgree target names routine)
    (h : routine.IsRenamed names image) {p d : Nat} (hpath : target.PathTo image p d) :
    home.PathTo routine p d :=
  Relation.ReflTransGen.lift id (fun _ _ => hcalls.pathStep h) _ _ hpath

/-- The paths of a routine stay balanced under new names. -/
theorem PathsBalanced.renamed (hbalanced : home.PathsBalanced routine)
    (h : routine.IsRenamed names image) (hcalls : home.CallsAgree target names routine) :
    target.PathsBalanced image where
  operands p d new hpath hnew := by
    obtain ⟨instruction, hinstruction, rfl⟩ := h.exists_of_getElem? hnew
    rw [Instruction.operandCount_rename]
    exact hbalanced.operands p d instruction (hcalls.pathTo h hpath) hinstruction
  meet p d e hd he := hbalanced.meet p d e (hcalls.pathTo h hd) (hcalls.pathTo h he)
  ret p d n hpath hret :=
    hbalanced.ret p d n (hcalls.pathTo h hpath) ((h.getElem?_eq_some_iff (by simp)).1 hret)
  count p d n hpath hret hkind := by
    rw [h.firstReturn?]
    exact hbalanced.count p d n (hcalls.pathTo h hpath)
      ((h.getElem?_eq_some_iff (by simp)).1 hret) (h.kind ▸ hkind)
  inside p d hpath := by
    have hlt := hbalanced.inside p d (hcalls.pathTo h hpath)
    rwa [h.code, Array.size_map]

end

end Program
end Gobstones
