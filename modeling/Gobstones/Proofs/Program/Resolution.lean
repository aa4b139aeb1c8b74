import Gobstones.Proofs.Program.Labels
/-!
# Building routines

This module says exactly when a routine can be built from its instructions.  A label that
repeats an earlier one is reported first, and only then a jump whose label is nowhere
defined; in both cases the first place is the one that is reported.

Main definitions:

- {lit}`Labels.Repeats`: a label stands at an earlier position too.
- {lit}`Labels.Dangles`: a jump has no label to go to.
- {lit}`Labels.First`: the first position of which something holds.

Main results:

- Theorem {lit}`Labels.first_repeats_of_collectFrom`: the label that is reported as repeated.
- Theorem {lit}`Labels.first_dangles_of_targetsFrom`: the jump that is reported as unresolved.
- Theorem {lit}`Routine.new_resolves`: the outcome for every list of instructions.
-/

namespace Gobstones
namespace Labels

/-! ## Places of errors -/

/-- The label at a position stands at an earlier position too. -/
def Repeats (code : List Instruction) (position : Nat) (label : String) : Prop :=
  code[position]? = some (.label label) ∧ .label label ∈ code.take position

/-- The instruction at a position jumps to a label that is nowhere defined. -/
def Dangles (code : List Instruction) (position : Nat) (label : String) : Prop :=
  code[position]?.bind Instruction.jumpLabel? = some label ∧ .label label ∉ code

/-- Something holds of a label at a position, and of no label at an earlier one. -/
def First (holds : Nat → String → Prop) (position : Nat) (label : String) : Prop :=
  holds position label ∧ ∀ earlier < position, ∀ other, ¬holds earlier other

/-! ## Repeated labels -/

/-- The labels of the instructions in front are the ones that are known. -/
def Knows (before : List Instruction) (known : List (String × Nat)) : Prop :=
  ∀ name, (known.lookup name).isSome ↔ .label name ∈ before

theorem Knows.label {before : List Instruction} {known : List (String × Nat)}
    (h : Knows before known) (name : String) (target : Nat) :
    Knows (before ++ [.label name]) ((name, target) :: known) := by
  intro other
  rw [List.lookup_cons]
  by_cases hname : other = name
  · simp [hname]
  · rw [beq_false_of_ne hname]
    simpa [hname] using h other

theorem Knows.other {before : List Instruction} {known : List (String × Nat)}
    (h : Knows before known) {first : Instruction} (hfirst : first.definedLabel? = none) :
    Knows (before ++ [first]) known := by
  intro name
  have hne : first ≠ .label name := by
    rintro rfl
    cases hfirst
  simpa [Ne.symm hne] using h name

/-- The label that cannot be collected is the first one that was known or stood earlier. -/
theorem first_repeats_of_collectFrom {before : List Instruction} {known : List (String × Nat)}
    (hknows : Knows before known) {position : Nat} {code : List Instruction} {label : String}
    (h : collectFrom known position code = .error label) :
    ∃ i, code[i]? = some (.label label) ∧ .label label ∈ before ++ code.take i ∧
      ∀ j < i, ∀ other, code[j]? = some (.label other) → .label other ∉ before ++ code.take j := by
  induction code generalizing before known position with
  | nil => cases h
  | cons first rest ih =>
    -- An error further on is one of all the instructions if the first one is in order.
    have hlater {known : List (String × Nat)} (hknows : Knows (before ++ [first]) known)
        (hfirst : ∀ other, first = .label other → .label other ∉ before)
        (h : collectFrom known (position + 1) rest = .error label) :
        ∃ i, (first :: rest)[i]? = some (.label label) ∧
          .label label ∈ before ++ (first :: rest).take i ∧
          ∀ j < i, ∀ other, (first :: rest)[j]? = some (.label other) →
            .label other ∉ before ++ (first :: rest).take j := by
      obtain ⟨i, hi, hrepeat, hearlier⟩ := ih hknows h
      refine ⟨i + 1, by simpa using hi, by simpa using hrepeat, fun j hj other hother => ?_⟩
      cases j with
      | zero => simpa using hfirst other (by simpa using hother)
      | succ j => simpa using hearlier j (by omega) other (by simpa using hother)
    cases first with
    | label name =>
      simp only [collectFrom] at h
      split at h
      · next hknown =>
        obtain rfl := Except.error.inj h
        exact ⟨0, rfl, by simpa using (hknows name).1 hknown, fun j hj => absurd hj (by omega)⟩
      · next hfresh =>
        refine hlater (hknows.label name _) (fun other hother => ?_) h
        obtain rfl := Instruction.label.inj hother
        rwa [← hknows]
    | _ => exact hlater (hknows.other rfl) (by simp) h

/-- Labels that can be collected do not repeat. -/
theorem not_repeats_of_collectFrom {labels : List (String × Nat)} {code : List Instruction}
    (h : collectFrom [] 0 code = .ok labels) (position : Nat) (label : String) :
    ¬Repeats code position label := by
  rintro ⟨hlater, hearlier⟩
  obtain ⟨i, hi, htake⟩ := List.mem_iff_getElem.1 hearlier
  rw [List.getElem_take] at htake
  have hfirst := lookup_collectFrom_of_label h (List.getElem?_eq_some_iff.2 ⟨_, htake⟩)
  have hsecond := lookup_collectFrom_of_label h hlater
  have := Option.some.inj (hfirst.symm.trans hsecond)
  have := List.length_take_le position code
  omega

/-! ## Unresolved jumps -/

/-- The jump that has no destination is the first one to an unknown label. -/
theorem first_dangles_of_targetsFrom {labels : List (String × Nat)} {position place : Nat}
    {code : List Instruction} {label : String}
    (h : targetsFrom labels position code = .error (place, label)) :
    ∃ i, place = position + i ∧ code[i]?.bind Instruction.jumpLabel? = some label ∧
      labels.lookup label = none ∧
      ∀ j < i, ∀ other, code[j]?.bind Instruction.jumpLabel? = some other →
        labels.lookup other ≠ none := by
  induction code generalizing position with
  | nil => cases h
  | cons first rest ih =>
    have hlater (hfirst : ∀ other, first.jumpLabel? = some other → labels.lookup other ≠ none)
        (h : targetsFrom labels (position + 1) rest = .error (place, label)) :
        ∃ i, place = position + i ∧ (first :: rest)[i]?.bind Instruction.jumpLabel? = some label ∧
          labels.lookup label = none ∧
          ∀ j < i, ∀ other, (first :: rest)[j]?.bind Instruction.jumpLabel? = some other →
            labels.lookup other ≠ none := by
      obtain ⟨i, rfl, hi, hlookup, hearlier⟩ := ih h
      refine ⟨i + 1, by omega, by simpa using hi, hlookup, fun j hj other hother => ?_⟩
      cases j with
      | zero => exact hfirst other (by simpa using hother)
      | succ j => exact hearlier j (by omega) other (by simpa using hother)
    rw [targetsFrom] at h
    cases hjump : first.jumpLabel? with
    | none =>
      simp only [hjump] at h
      cases hrest : targetsFrom labels (position + 1) rest with
      | ok others => simp [hrest, Except.map] at h
      | error e =>
        obtain rfl : e = (place, label) := by simpa [hrest, Except.map] using h
        exact hlater (by simp [hjump]) hrest
    | some target =>
      simp only [hjump] at h
      cases hlookup : labels.lookup target with
      | none =>
        obtain ⟨rfl, rfl⟩ : position = place ∧ target = label := by simpa [hlookup] using h
        exact ⟨0, rfl, by simpa using hjump, hlookup, fun j hj => absurd hj (by omega)⟩
      | some destination =>
        simp only [hlookup] at h
        cases hrest : targetsFrom labels (position + 1) rest with
        | ok others => simp [hrest, Except.map] at h
        | error e =>
          obtain rfl : e = (place, label) := by simpa [hrest, Except.map] using h
          refine hlater (fun other hother => ?_) hrest
          obtain rfl : target = other := Option.some.inj (hjump.symm.trans hother)
          simp [hlookup]

/-- A label has a destination if it is defined. -/
theorem lookup_eq_none_iff {labels : List (String × Nat)} {code : List Instruction}
    (h : collectFrom [] 0 code = .ok labels) (name : String) :
    labels.lookup name = none ↔ .label name ∉ code := by
  constructor
  · intro hnone hmem
    obtain ⟨i, hi⟩ := List.mem_iff_getElem?.1 hmem
    simp [lookup_collectFrom_of_label h hi] at hnone
  · refine fun hmem => Option.eq_none_iff_forall_ne_some.2 fun target htarget => ?_
    rcases label_of_lookup_collectFrom h htarget with hknown | ⟨i, -, hi⟩
    · simp at hknown
    · exact hmem (List.mem_of_getElem? hi)

/-! ## All labels -/

/-- A label that repeats an earlier one is reported before a jump without a label, and the first
one of either is reported. -/
theorem resolve_cases (routine : String) (code : List Instruction) :
    (∃ i label, First (Repeats code) i label ∧
      resolve routine code = .error (.duplicateLabel routine label)) ∨
    (∀ i label, ¬Repeats code i label) ∧
      ((∃ i label, First (Dangles code) i label ∧
        resolve routine code = .error (.unresolvedLabel routine i label)) ∨
      (∀ i label, ¬Dangles code i label) ∧ ∃ targets, resolve routine code = .ok targets) := by
  unfold resolve
  cases hcollect : collectFrom [] 0 code with
  | error label =>
    obtain ⟨i, hi, hrepeat, hearlier⟩ :=
      first_repeats_of_collectFrom (show Knows [] [] by simp [Knows]) hcollect
    exact .inl ⟨i, label, ⟨⟨hi, by simpa using hrepeat⟩,
      fun j hj other hother => hearlier j hj other hother.1 (by simpa using hother.2)⟩, rfl⟩
  | ok labels =>
    refine .inr ⟨not_repeats_of_collectFrom hcollect, ?_⟩
    cases htargets : targetsFrom labels 0 code with
    | error e =>
      obtain ⟨place, label⟩ := e
      obtain ⟨i, hplace, hi, hlookup, hearlier⟩ := first_dangles_of_targetsFrom htargets
      obtain rfl : place = i := by omega
      refine .inl ⟨place, label, ⟨⟨hi, (lookup_eq_none_iff hcollect label).1 hlookup⟩, ?_⟩, by
        simp [htargets]⟩
      exact fun j hj other hother =>
        hearlier j hj other hother.1 ((lookup_eq_none_iff hcollect other).2 hother.2)
    | ok targets =>
      refine .inr ⟨fun i label hdangles => ?_, targets, by simp [htargets]⟩
      have hsome := (getElem?_targetsFrom htargets i).2 label hdangles.1
      rw [(lookup_eq_none_iff hcollect label).2 hdangles.2] at hsome
      cases hsome

end Labels

namespace Routine

/-- A routine is built with its parts as they are if its labels are resolved. -/
theorem exists_new_of_resolve (kind : RoutineKind) {name : String} (params : List String)
    {code : List Instruction} {targets : List (Option Nat)}
    (h : Labels.resolve name code = .ok targets) :
    ∃ routine, new kind name params code = .ok routine ∧ routine.kind = kind ∧
      routine.name = name ∧ routine.params = params ∧ routine.code.toList = code := by
  unfold new
  split
  · next e he => simp [h] at he
  · exact ⟨_, rfl, rfl, rfl, rfl, by simp⟩

theorem new_of_resolve_error {kind : RoutineKind} {name : String} {params : List String}
    {code : List Instruction} {error : LoadError} (h : Labels.resolve name code = .error error) :
    new kind name params code = .error error := by
  unfold new
  split
  · next e he => exact congrArg Except.error (Except.error.inj (he.symm.trans h))
  · next targets htargets => simp [h] at htargets

/-- A routine that is built has its parts. -/
theorem parts_of_new {kind : RoutineKind} {name : String} {params : List String}
    {code : List Instruction} {routine : Routine} (h : new kind name params code = .ok routine) :
    routine.kind = kind ∧ routine.name = name ∧ routine.params = params ∧
      routine.code.toList = code := by
  cases hresolve : Labels.resolve name code with
  | error e => cases h.symm.trans (new_of_resolve_error hresolve)
  | ok targets =>
    obtain ⟨other, hnew, hparts⟩ := exists_new_of_resolve kind params hresolve
    obtain rfl := Except.ok.inj (h.symm.trans hnew)
    exact hparts

/-- Exactly the jumps have destinations. -/
theorem target?_eq_none_iff {routine : Routine} {position : Nat} :
    routine.target? position = none ↔
      routine.code[position]?.bind Instruction.jumpLabel? = none := by
  constructor
  · refine fun h => Option.eq_none_iff_forall_ne_some.2 fun label hlabel => ?_
    obtain ⟨instruction, hinstruction, hlabel⟩ := Option.bind_eq_some_iff.1 hlabel
    obtain ⟨target, htarget⟩ := exists_target? hinstruction hlabel
    simp [h] at htarget
  · refine fun h => Option.eq_none_iff_forall_ne_some.2 fun target htarget => ?_
    obtain ⟨name, hname, -⟩ := target?_eq_some_iff.1 htarget
    simp [h] at hname

/-- A label that repeats an earlier one is reported before a jump without a label, and the first
one of either is reported.  Without such places the routine is built, and its destinations are
exact: a jump leads right behind the only place of its label, which may be the end of the routine,
and nothing else has a destination. -/
theorem new_resolves (kind : RoutineKind) (name : String) (params : List String)
    (code : List Instruction) :
    (∃ i label, Labels.First (Labels.Repeats code) i label ∧
      new kind name params code = .error (.duplicateLabel name label)) ∨
    (∀ i label, ¬Labels.Repeats code i label) ∧
      ((∃ i label, Labels.First (Labels.Dangles code) i label ∧
        new kind name params code = .error (.unresolvedLabel name i label)) ∨
      (∀ i label, ¬Labels.Dangles code i label) ∧
        ∃ routine, new kind name params code = .ok routine ∧ routine.kind = kind ∧
          routine.name = name ∧ routine.params = params ∧ routine.code.toList = code ∧
          ∀ i, (∀ j, routine.target? i = some j ↔
              ∃ label, code[i]?.bind Instruction.jumpLabel? = some label ∧ 1 ≤ j ∧
                j ≤ code.length ∧ ∀ k, code[k]? = some (.label label) ↔ k = j - 1) ∧
            (routine.target? i = none ↔ code[i]?.bind Instruction.jumpLabel? = none)) := by
  rcases Labels.resolve_cases name code with ⟨i, label, hfirst, hresolve⟩ | ⟨hrepeats, h⟩
  · exact .inl ⟨i, label, hfirst, new_of_resolve_error hresolve⟩
  refine .inr ⟨hrepeats, ?_⟩
  rcases h with ⟨i, label, hfirst, hresolve⟩ | ⟨hdangles, targets, hresolve⟩
  · exact .inl ⟨i, label, hfirst, new_of_resolve_error hresolve⟩
  obtain ⟨routine, hnew, hkind, hname, hparams, rfl⟩ := exists_new_of_resolve kind
    params hresolve
  refine .inr ⟨hdangles, routine, hnew, hkind, hname, hparams, rfl, fun i => ?_⟩
  simp only [Array.getElem?_toList, Array.length_toList]
  refine ⟨fun j => ?_, target?_eq_none_iff⟩
  rw [target?_eq_some_iff]
  refine exists_congr fun label => and_congr_right fun _ => ?_
  constructor
  · rintro ⟨hpos, hlabel⟩
    have hbound := (Array.getElem?_eq_some_iff.1 hlabel).1
    refine ⟨hpos, by omega, fun k => ⟨fun hk => label_unique hk hlabel, ?_⟩⟩
    rintro rfl
    exact hlabel
  · rintro ⟨hpos, -, hplaces⟩
    exact ⟨hpos, (hplaces _).2 rfl⟩

example : (new .procedure "Skip" [] [.jump "end", .enter, .label "end"]).map (·.target? 0) =
    .ok (some 3) := rfl

example : (new .procedure "Stray" [] [.jump "far", .label "end", .jump "end", .label "end"]).map
    (·.target? 0) = .error (.duplicateLabel "Stray" "end") := rfl

end Routine
end Gobstones
