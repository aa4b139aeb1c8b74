import Gobstones.Program.Routine
/-!
# Resolved labels

This module says where the jumps of a routine lead.  The labels of a routine are
distinct, and every jump leads to the instruction right after its label.

Main definitions:

- {lit}`Labels.defined`: the labels that instructions define.

Main results:

- Theorem {lit}`Routine.label_unique`: a label is defined at one place.
- Theorem {lit}`Routine.nodup_defined`: no label is defined twice.
- Theorem {lit}`Routine.target?_eq_some_iff`: a jump leads right behind its label.
- Theorem {lit}`Routine.exists_target?`: every jump leads somewhere.
-/

namespace Gobstones

/-- The label that an instruction defines. -/
def Instruction.definedLabel? : Instruction → Option String
  | .label name => some name
  | _ => none

namespace Labels

/-! ## Collecting labels -/

/-- The labels that instructions define, in order. -/
def defined (code : List Instruction) : List String :=
  code.filterMap Instruction.definedLabel?

/-- Labels that can be collected are defined once and were not known before. -/
theorem nodup_defined_of_collectFrom {known labels : List (String × Nat)} {position : Nat}
    {code : List Instruction} (h : collectFrom known position code = .ok labels) :
    (defined code).Nodup ∧ ∀ name ∈ defined code, known.lookup name = none := by
  induction code generalizing known position with
  | nil => simp [defined]
  | cons first rest ih =>
    cases first with
    | label name =>
      simp only [collectFrom] at h
      split at h
      · simp at h
      · next hfresh =>
        obtain ⟨hnodup, hunknown⟩ := ih h
        have hname : name ∉ defined rest := by
          intro hmem
          simpa using hunknown name hmem
        refine ⟨List.nodup_cons.2 ⟨hname, hnodup⟩, fun other hmem => ?_⟩
        rcases (List.mem_cons.1 hmem : other = name ∨ other ∈ defined rest) with rfl | hother
        · exact Option.not_isSome_iff_eq_none.1 hfresh
        · have hne : other ≠ name := by
            rintro rfl
            exact hname hother
          have hrest := hunknown other hother
          rwa [List.lookup_cons, beq_false_of_ne hne] at hrest
    | _ => exact ih h

/-- The labels that are known already stay where they are. -/
theorem lookup_collectFrom_of_known {known labels : List (String × Nat)} {position : Nat}
    {code : List Instruction} (h : collectFrom known position code = .ok labels) {name : String}
    {target : Nat} (hname : known.lookup name = some target) :
    labels.lookup name = some target := by
  induction code generalizing known position with
  | nil =>
    obtain rfl := Except.ok.inj h
    exact hname
  | cons first rest ih =>
    cases first with
    | label other =>
      simp only [collectFrom] at h
      split at h
      · simp at h
      · next hfresh =>
        refine ih h ?_
        have hne : name ≠ other := by
          rintro rfl
          simp [hname] at hfresh
        rw [List.lookup_cons, beq_false_of_ne hne]
        exact hname
    | _ => exact ih h hname

/-- Every label among the instructions is known afterwards, with the position right after
it. -/
theorem lookup_collectFrom_of_label {known labels : List (String × Nat)} {position : Nat}
    {code : List Instruction} (h : collectFrom known position code = .ok labels) {i : Nat}
    {name : String} (hi : code[i]? = some (.label name)) :
    labels.lookup name = some (position + i + 1) := by
  induction code generalizing known position i with
  | nil => simp at hi
  | cons first rest ih =>
    cases i with
    | zero =>
      obtain rfl : first = .label name := by simpa using hi
      simp only [collectFrom] at h
      split at h
      · simp at h
      · exact lookup_collectFrom_of_known h (by simp)
    | succ i =>
      have hi : rest[i]? = some (.label name) := by simpa using hi
      have hrest {known : List (String × Nat)}
          (h : collectFrom known (position + 1) rest = .ok labels) :
          labels.lookup name = some (position + (i + 1) + 1) := by
        rw [ih h hi]
        congr 1
        omega
      cases first with
      | label other =>
        simp only [collectFrom] at h
        split at h
        · simp at h
        · exact hrest h
      | _ => exact hrest h

/-- What is known afterwards was known before or is the place of a label. -/
theorem label_of_lookup_collectFrom {known labels : List (String × Nat)} {position : Nat}
    {code : List Instruction} (h : collectFrom known position code = .ok labels) {name : String}
    {target : Nat} (hname : labels.lookup name = some target) :
    known.lookup name = some target ∨
      ∃ i, target = position + i + 1 ∧ code[i]? = some (.label name) := by
  induction code generalizing known position with
  | nil =>
    obtain rfl := Except.ok.inj h
    exact .inl hname
  | cons first rest ih =>
    have hrest {known : List (String × Nat)}
        (h : collectFrom known (position + 1) rest = .ok labels) :
        known.lookup name = some target ∨
          ∃ i, target = position + i + 1 ∧ (first :: rest)[i]? = some (.label name) := by
      rcases ih h with hknown | ⟨i, rfl, hi⟩
      · exact .inl hknown
      · exact .inr ⟨i + 1, by omega, by simpa using hi⟩
    cases first with
    | label other =>
      simp only [collectFrom] at h
      split at h
      · simp at h
      · rcases hrest h with hknown | hplace
        · rw [List.lookup_cons] at hknown
          split at hknown
          · next hother =>
            obtain rfl : name = other := by simpa using hother
            obtain rfl := Option.some.inj hknown
            exact .inr ⟨0, rfl, rfl⟩
          · exact .inl hknown
        · exact .inr hplace
    | _ => exact hrest h

/-! ## Resolving jumps -/

/-- The destination of an instruction is what its label stands for. -/
theorem getElem?_targetsFrom {labels : List (String × Nat)} {position : Nat}
    {code : List Instruction} {targets : List (Option Nat)}
    (h : targetsFrom labels position code = .ok targets) (i : Nat) :
    targets[i]?.join = (code[i]?.bind Instruction.jumpLabel?).bind (List.lookup · labels) ∧
      ∀ label, code[i]?.bind Instruction.jumpLabel? = some label →
        (labels.lookup label).isSome := by
  induction code generalizing position targets i with
  | nil =>
    obtain rfl := Except.ok.inj h
    simp
  | cons first rest ih =>
    have hcons {target : Option Nat} {others : List (Option Nat)}
        (hothers : targetsFrom labels (position + 1) rest = .ok others)
        (htarget : target = first.jumpLabel?.bind (List.lookup · labels))
        (hlabel : ∀ label, first.jumpLabel? = some label → (labels.lookup label).isSome) :
        (target :: others)[i]?.join =
            ((first :: rest)[i]?.bind Instruction.jumpLabel?).bind (List.lookup · labels) ∧
          ∀ label, (first :: rest)[i]?.bind Instruction.jumpLabel? = some label →
            (labels.lookup label).isSome := by
      cases i with
      | zero => exact ⟨by simp [htarget], by simpa using hlabel⟩
      | succ i => simpa using ih hothers i
    rw [targetsFrom] at h
    cases hjump : first.jumpLabel? with
    | none =>
      simp only [hjump] at h
      cases hothers : targetsFrom labels (position + 1) rest with
      | error e => simp [hothers, Except.map] at h
      | ok others =>
        obtain rfl : none :: others = targets := by simpa [hothers, Except.map] using h
        exact hcons hothers (by simp [hjump]) (by simp [hjump])
    | some label =>
      simp only [hjump] at h
      cases hlookup : labels.lookup label with
      | none => simp [hlookup] at h
      | some target =>
        simp only [hlookup] at h
        cases hothers : targetsFrom labels (position + 1) rest with
        | error e => simp [hothers, Except.map] at h
        | ok others =>
          obtain rfl : some target :: others = targets := by
            simpa [hothers, Except.map] using h
          refine hcons hothers (by simp [hjump, hlookup]) fun other hother => ?_
          obtain rfl : label = other := by simpa [hjump] using hother
          rw [hlookup]
          rfl

theorem resolve_eq_ok {routine : String} {code : List Instruction}
    {targets : List (Option Nat)} (h : resolve routine code = .ok targets) :
    ∃ labels, collectFrom [] 0 code = .ok labels ∧ targetsFrom labels 0 code = .ok targets := by
  unfold resolve at h
  split at h
  · simp at h
  · next labels hlabels =>
    split at h
    · simp at h
    · next others hothers =>
      obtain rfl := Except.ok.inj h
      exact ⟨labels, hlabels, hothers⟩

end Labels

namespace Routine

/-- A label is defined at one place. -/
theorem label_unique {routine : Routine} {name : String} {i j : Nat}
    (hi : routine.code[i]? = some (.label name)) (hj : routine.code[j]? = some (.label name)) :
    i = j := by
  obtain ⟨labels, hlabels, -⟩ := Labels.resolve_eq_ok routine.resolved
  rw [← Array.getElem?_toList] at hi hj
  have hi := Labels.lookup_collectFrom_of_label hlabels hi
  have hj := Labels.lookup_collectFrom_of_label hlabels hj
  rw [hi] at hj
  have := Option.some.inj hj
  omega

/-- No label is defined twice. -/
theorem nodup_defined (routine : Routine) : (Labels.defined routine.code.toList).Nodup := by
  obtain ⟨labels, hlabels, -⟩ := Labels.resolve_eq_ok routine.resolved
  exact (Labels.nodup_defined_of_collectFrom hlabels).1

/-- A jump leads right behind its label. -/
theorem target?_eq_some_iff {routine : Routine} {position target : Nat} :
    routine.target? position = some target ↔
      ∃ name, routine.code[position]?.bind Instruction.jumpLabel? = some name ∧
        0 < target ∧ routine.code[target - 1]? = some (.label name) := by
  obtain ⟨labels, hlabels, htargets⟩ := Labels.resolve_eq_ok routine.resolved
  have hposition := (Labels.getElem?_targetsFrom htargets position).1
  simp only [Array.getElem?_toList] at hposition
  unfold target?
  rw [hposition, Option.bind_eq_some_iff]
  refine exists_congr fun name => and_congr_right fun _ => ?_
  constructor
  · intro hname
    rcases Labels.label_of_lookup_collectFrom hlabels hname with hknown | ⟨i, rfl, hi⟩
    · simp at hknown
    · exact ⟨by omega, by simpa using hi⟩
  · rintro ⟨hpos, hlabel⟩
    rw [← Array.getElem?_toList] at hlabel
    rw [Labels.lookup_collectFrom_of_label hlabels hlabel]
    congr 1
    omega

/-- Every jump leads somewhere. -/
theorem exists_target? {routine : Routine} {position : Nat} {instruction : Instruction}
    {name : String} (h : routine.code[position]? = some instruction)
    (hjump : instruction.jumpLabel? = some name) :
    ∃ target, routine.target? position = some target := by
  obtain ⟨labels, hlabels, htargets⟩ := Labels.resolve_eq_ok routine.resolved
  obtain ⟨hposition, hsome⟩ := Labels.getElem?_targetsFrom htargets position
  simp only [Array.getElem?_toList, h, Option.bind_some, hjump] at hposition hsome
  obtain ⟨target, htarget⟩ := Option.isSome_iff_exists.1 (hsome name rfl)
  exact ⟨target, by rw [target?, hposition, htarget]⟩

end Routine
end Gobstones
