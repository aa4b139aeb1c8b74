import Mathlib.Data.Set.Function
import Gobstones.Proofs.Program.Labels
/-!
# Renamed routines

This module renames the calls, the variables and the labels of a routine.  Labels that
stay apart are resolved as before, so a renamed routine can be built and its jumps lead
to the same places.

Main definitions:

- {lit}`Renaming` and {lit}`Instruction.rename`: new names, and instructions under them.
- {lit}`Routine.IsRenamed`: a routine is another one under new names.

Main results:

- Theorem {lit}`Routine.exists_new_rename`: a routine can be built under new names if its
  labels stay apart.
- Theorem {lit}`Routine.IsRenamed.eq`: names that stay the same give the same routine.
-/

namespace Gobstones

/-- New names for what instructions call, for variables and for labels. -/
structure Renaming where
  callName : String → String
  localName : String → String
  labelName : String → String

namespace Instruction

/-- An instruction under new names.  Variables that are returned keep their names. -/
def rename (names : Renaming) : Instruction → Instruction
  | pushConst value => pushConst value
  | pushFrom name => pushFrom (names.localName name)
  | popTo name => popTo (names.localName name)
  | delVar name => delVar (names.localName name)
  | call name argc => call (names.callName name) argc
  | raise message => raise message
  | label name => label (names.labelName name)
  | jump name => jump (names.labelName name)
  | jumpIfFalse name => jumpIfFalse (names.labelName name)
  | jumpIfNotIn values name => jumpIfNotIn values (names.labelName name)
  | ret n => ret n
  | returnVars n names => returnVars n names
  | enter => enter
  | leave => leave
  | setImmutable name => setImmutable (names.localName name)
  | unsetImmutable name => unsetImmutable (names.localName name)

/-- The name of the routine or builtin that an instruction calls. -/
def callName? : Instruction → Option String
  | call name _ => some name
  | _ => none

/-- The label that an instruction marks or jumps to. -/
def labelName? : Instruction → Option String
  | label name => some name
  | instruction => instruction.jumpLabel?

/-- The typed names of the variables that an instruction returns. -/
def returnedNames : Instruction → List String
  | returnVars _ names => names
  | _ => []

@[simp]
theorem opcode_rename (names : Renaming) (instruction : Instruction) :
    (instruction.rename names).opcode = instruction.opcode := by
  cases instruction <;> rfl

@[simp]
theorem jumpLabel?_rename (names : Renaming) (instruction : Instruction) :
    (instruction.rename names).jumpLabel? = instruction.jumpLabel?.map names.labelName := by
  cases instruction <;> rfl

theorem labelName?_of_jumpLabel? {instruction : Instruction} {name : String}
    (h : instruction.jumpLabel? = some name) : instruction.labelName? = some name := by
  cases instruction <;> simp_all [jumpLabel?, labelName?]

/-- An instruction stays the same if all names in it do. -/
theorem rename_eq_self {names : Renaming} {instruction : Instruction}
    (hcall : ∀ name, instruction.callName? = some name → names.callName name = name)
    (hlocal : ∀ name, instruction.localName? = some name → names.localName name = name)
    (hlabel : ∀ name, instruction.labelName? = some name → names.labelName name = name) :
    instruction.rename names = instruction := by
  cases instruction <;>
    simp_all [rename, callName?, localName?, labelName?, jumpLabel?]

end Instruction

namespace Labels

section

variable {names : Renaming} {apart : Set String} (hinj : Set.InjOn names.labelName apart)

include hinj

/-- A label that stays apart from the known ones is found under its new name. -/
theorem lookup_rename {known : List (String × Nat)} (hknown : ∀ entry ∈ known, entry.1 ∈ apart)
    {name : String} (hname : name ∈ apart) :
    (known.map (Prod.map names.labelName id)).lookup (names.labelName name) =
      known.lookup name := by
  induction known with
  | nil => rfl
  | cons first rest ih =>
    rw [List.forall_mem_cons] at hknown
    rw [List.map_cons, List.lookup_cons, List.lookup_cons, ih hknown.2]
    by_cases h : name = first.1
    · simp [h]
    · have hne : names.labelName name ≠ names.labelName first.1 := fun heq =>
        h (hinj hname hknown.1 heq)
      simp [beq_false_of_ne h, beq_false_of_ne hne]

/-- The labels of renamed instructions are the labels under their new names. -/
theorem collectFrom_rename {known labels : List (String × Nat)} {position : Nat}
    {code : List Instruction} (h : collectFrom known position code = .ok labels)
    (hknown : ∀ entry ∈ known, entry.1 ∈ apart)
    (hcode : ∀ instruction ∈ code, ∀ name, instruction.labelName? = some name → name ∈ apart) :
    collectFrom (known.map (Prod.map names.labelName id)) position
        (code.map (Instruction.rename names)) =
      .ok (labels.map (Prod.map names.labelName id)) ∧ ∀ entry ∈ labels, entry.1 ∈ apart := by
  induction code generalizing known position with
  | nil =>
    obtain rfl := Except.ok.inj h
    exact ⟨rfl, hknown⟩
  | cons first rest ih =>
    rw [List.forall_mem_cons] at hcode
    cases first with
    | label name =>
      have hname : name ∈ apart := hcode.1 name rfl
      simp only [collectFrom] at h
      split at h
      · simp at h
      · next hfresh =>
        rw [List.map_cons, Instruction.rename, collectFrom, lookup_rename hinj hknown hname,
          if_neg hfresh]
        exact ih h (by simpa [hname] using hknown) hcode.2
    | _ => exact ih h hknown hcode.2

/-- The destinations of renamed instructions are the destinations as they were. -/
theorem targetsFrom_rename {labels : List (String × Nat)} {position : Nat}
    {code : List Instruction} {targets : List (Option Nat)}
    (h : targetsFrom labels position code = .ok targets)
    (hlabels : ∀ entry ∈ labels, entry.1 ∈ apart)
    (hcode : ∀ instruction ∈ code, ∀ name, instruction.labelName? = some name → name ∈ apart) :
    targetsFrom (labels.map (Prod.map names.labelName id)) position
        (code.map (Instruction.rename names)) = .ok targets := by
  induction code generalizing position targets with
  | nil => exact h
  | cons first rest ih =>
    rw [List.forall_mem_cons] at hcode
    rw [List.map_cons]
    simp only [targetsFrom, Instruction.jumpLabel?_rename] at h ⊢
    cases hjump : first.jumpLabel? with
    | none =>
      simp only [hjump, Option.map_none] at h ⊢
      cases hrest : targetsFrom labels (position + 1) rest with
      | error e => simp [hrest, Except.map] at h
      | ok others => rw [ih hrest hcode.2, ← hrest, h]
    | some name =>
      have hname : name ∈ apart := hcode.1 name (Instruction.labelName?_of_jumpLabel? hjump)
      simp only [hjump, Option.map_some, lookup_rename hinj hlabels hname] at h ⊢
      cases hlookup : labels.lookup name with
      | none => simp [hlookup] at h
      | some target =>
        simp only [hlookup] at h ⊢
        cases hrest : targetsFrom labels (position + 1) rest with
        | error e => simp [hrest, Except.map] at h
        | ok others => rw [ih hrest hcode.2, ← hrest, h]

/-- Labels that stay apart are resolved as before. -/
theorem resolve_rename {routine other : String} {code : List Instruction}
    {targets : List (Option Nat)} (h : resolve routine code = .ok targets)
    (hcode : ∀ instruction ∈ code, ∀ name, instruction.labelName? = some name → name ∈ apart) :
    resolve other (code.map (Instruction.rename names)) = .ok targets := by
  obtain ⟨labels, hlabels, htargets⟩ := resolve_eq_ok h
  obtain ⟨hcollect, hnames⟩ := collectFrom_rename hinj hlabels (by simp) hcode
  rw [List.map_nil] at hcollect
  simp only [resolve, hcollect, targetsFrom_rename hinj htargets hnames hcode]

end

end Labels

namespace Routine

/-- The labels that a routine marks or jumps to. -/
def labelNames (routine : Routine) : Set String :=
  {name | ∃ instruction ∈ routine.code, instruction.labelName? = some name}

/-- A routine is another one under new names, and its jumps lead to the same places. -/
structure IsRenamed (names : Renaming) (routine renamed : Routine) : Prop where
  kind : renamed.kind = routine.kind
  params : renamed.params = routine.params.map names.localName
  code : renamed.code = routine.code.map (Instruction.rename names)
  targets : renamed.targets = routine.targets

/-- A routine can be built under new names if its labels stay apart. -/
theorem exists_new_rename {names : Renaming} {routine : Routine}
    (h : Set.InjOn names.labelName routine.labelNames) (name : String) :
    ∃ renamed, Routine.new routine.kind name (routine.params.map names.localName)
        (routine.code.toList.map (Instruction.rename names)) = .ok renamed ∧
      renamed.name = name ∧ routine.IsRenamed names renamed := by
  have hresolve : Labels.resolve name (routine.code.toList.map (Instruction.rename names)) =
      .ok routine.targets.toList :=
    Labels.resolve_rename h routine.resolved fun instruction hmem _ hname =>
      ⟨instruction, Array.mem_toList_iff.1 hmem, hname⟩
  unfold Routine.new
  split
  · next e he => simp [hresolve] at he
  · next targets htargets =>
    obtain rfl := Except.ok.inj (hresolve.symm.trans htargets)
    exact ⟨_, rfl, rfl, rfl, rfl, by rw [← Array.toList_inj]; simp, by simp⟩

/-- Names that stay the same give the same routine. -/
theorem IsRenamed.eq {names : Renaming} {routine renamed : Routine}
    (h : routine.IsRenamed names renamed) (hname : renamed.name = routine.name)
    (hparams : ∀ name ∈ routine.params, names.localName name = name)
    (hcode : ∀ instruction ∈ routine.code, instruction.rename names = instruction) :
    renamed = routine := by
  obtain ⟨hkind, hparams', hcode', htargets⟩ := h
  have hparams : routine.params.map names.localName = routine.params :=
    (List.map_congr_left hparams).trans (List.map_id' _)
  have hcode : routine.code.map (Instruction.rename names) = routine.code :=
    (Array.map_congr_left hcode).trans (Array.map_id' _)
  rw [hparams] at hparams'
  rw [hcode] at hcode'
  cases routine
  cases renamed
  simp_all

end Routine
end Gobstones
