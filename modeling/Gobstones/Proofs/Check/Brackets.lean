import Mathlib.Tactic.Tauto
import Gobstones.Check.Brackets
import Gobstones.Check.Depth
import Gobstones.Proofs.Program.Labels
/-!
# Where transactions lie

This module says what the check of transactions means.  In a routine that passes it
a function opens its transaction at the first instruction, which no jump leads to,
and closes it right before each of its returns; other routines have no transactions.

Main definitions:

- {lit}`Routine.Bracketed`: the transactions of a routine lie where they should.
- {lit}`Routine.inTransaction`: the positions between the two ends of a transaction.

Main results:

- Theorem {lit}`Routine.bracketProblems_eq_nil_iff`: the check accepts exactly the
  bracketed routines.
- Theorem {lit}`Routine.Bracketed.inTransaction_next`: steps stay in a transaction until
  its end.
-/

namespace Gobstones
namespace Routine

/-! ## Single positions -/

/-- An instruction is rightly placed in a function, between the one before it and the one
after it. -/
def FitsBetween (before : Option Instruction) (instruction : Instruction)
    (next : Option Instruction) : Prop :=
  match instruction with
  | .enter => before = none
  | .leave => ∃ n, next = some (.ret n)
  | .ret _ => before = some .leave
  | _ => True

/-- The instruction before a position, for instructions that come after another one. -/
def previous (before : Option Instruction) (code : List Instruction) : Nat → Option Instruction
  | 0 => before
  | i + 1 => code[i]?

theorem previous_succ (before : Option Instruction) (first : Instruction)
    (rest : List Instruction) (i : Nat) :
    previous before (first :: rest) (i + 1) = previous (some first) rest i := by
  cases i <;> rfl

theorem misplacedBracketsFrom_eq_nil_iff {name : String} {position : Nat}
    {before : Option Instruction} {code : List Instruction} :
    misplacedBracketsFrom name position before code = [] ↔
      ∀ (i : Nat) (h : i < code.length),
        FitsBetween (previous before code i) code[i] code[i + 1]? := by
  induction code generalizing position before with
  | nil => simp [misplacedBracketsFrom]
  | cons first rest ih =>
    have hrest : (∀ (i : Nat) (h : i < (first :: rest).length),
          FitsBetween (previous before (first :: rest) i) (first :: rest)[i] (first :: rest)[i + 1]?) ↔
        FitsBetween before first rest[0]? ∧ ∀ (i : Nat) (h : i < rest.length),
          FitsBetween (previous (some first) rest i) rest[i] rest[i + 1]? := by
      constructor
      · intro h
        refine ⟨h 0 (by simp), fun i hi => ?_⟩
        rw [← previous_succ before]
        exact h (i + 1) (by simpa using hi)
      · rintro ⟨hfirst, hrest⟩ (_ | i) hi
        · exact hfirst
        · rw [previous_succ]
          exact hrest i (by simpa using hi)
    rw [hrest, ← @ih (position + 1) (some first)]
    unfold FitsBetween
    cases first with
    | enter => cases before <;> simp [misplacedBracketsFrom]
    | leave =>
      cases rest with
      | nil => simp [misplacedBracketsFrom]
      | cons second rest => cases second <;> simp [misplacedBracketsFrom]
    | ret n => by_cases h : before = some .leave <;> simp [misplacedBracketsFrom, h]
    | _ => simp [misplacedBracketsFrom]

theorem strayBracketsFrom_eq_nil_iff {name : String} {position : Nat} {code : List Instruction} :
    strayBracketsFrom name position code = [] ↔ .enter ∉ code ∧ .leave ∉ code := by
  induction code generalizing position with
  | nil => simp [strayBracketsFrom]
  | cons first rest ih =>
    cases first <;> simp [strayBracketsFrom, @ih (position + 1)]

/-! ## Bracketed routines -/

/-- The transactions of a routine lie where they should. -/
structure Bracketed (routine : Routine) : Prop where
  enter_iff : ∀ i : Nat, routine.code[i]? = some .enter ↔ routine.kind = .function ∧ i = 0
  kind_of_leave : ∀ i : Nat, routine.code[i]? = some .leave → routine.kind = .function
  ret_of_leave : ∀ i : Nat, routine.code[i]? = some .leave →
    ∃ n, routine.code[i + 1]? = some (.ret n)
  leave_of_ret : ∀ (i : Nat) n, routine.kind = .function → routine.code[i]? = some (.ret n) →
    ∃ j, i = j + 1 ∧ routine.code[j]? = some .leave

variable {routine : Routine} {instruction : Instruction}

theorem getElem?_code_iff {i : Nat} (h : i < routine.code.toList.length) :
    routine.code[i]? = some instruction ↔ routine.code.toList[i] = instruction := by
  rw [← Array.getElem?_toList, List.getElem?_eq_getElem h, Option.some.injEq]

theorem lt_length_of_getElem?_code {i : Nat} (h : routine.code[i]? = some instruction) :
    i < routine.code.toList.length := by
  rw [← Array.getElem?_toList] at h
  exact (List.getElem?_eq_some_iff.1 h).1

/-- A function that starts with its transaction, and in which all instructions fit between their
neighbors, is bracketed. -/
theorem Bracketed.of_fits (hkind : routine.kind = .function)
    (hhead : routine.code[0]? = some .enter)
    (hfits : ∀ (i : Nat) (h : i < routine.code.toList.length),
      FitsBetween (previous none routine.code.toList i) routine.code.toList[i]
        routine.code.toList[i + 1]?) : routine.Bracketed := by
  have hfit {i : Nat} {instruction : Instruction} (h : routine.code[i]? = some instruction) :
      FitsBetween (previous none routine.code.toList i) instruction routine.code[i + 1]? := by
    have hlt := lt_length_of_getElem?_code h
    have hfit := hfits i hlt
    rwa [(getElem?_code_iff hlt).1 h, Array.getElem?_toList] at hfit
  refine ⟨fun i => ⟨fun h => ⟨hkind, ?_⟩, ?_⟩, fun _ _ => hkind, fun i h => hfit h,
    fun i n _ h => ?_⟩
  · cases i with
    | zero => rfl
    | succ i =>
      have hnone : routine.code.toList[i]? = none := hfit h
      have hlt := lt_length_of_getElem?_code h
      rw [List.getElem?_eq_none_iff] at hnone
      omega
  · rintro ⟨-, rfl⟩
    exact hhead
  · have hleave : previous none routine.code.toList i = some .leave := hfit h
    cases i with
    | zero => simp [previous] at hleave
    | succ i => exact ⟨i, rfl, by simpa [previous] using hleave⟩

/-- In a bracketed function all instructions fit between their neighbors. -/
theorem Bracketed.fits (h : routine.Bracketed) (hkind : routine.kind = .function) (i : Nat)
    (hi : i < routine.code.toList.length) :
    FitsBetween (previous none routine.code.toList i) routine.code.toList[i]
      routine.code.toList[i + 1]? := by
  have hcode := (getElem?_code_iff hi).2 rfl
  generalize routine.code.toList[i] = instruction at hcode
  unfold FitsBetween
  cases instruction with
  | enter =>
    obtain rfl := ((h.enter_iff i).1 hcode).2
    rfl
  | leave => simpa using h.ret_of_leave i hcode
  | ret n =>
    obtain ⟨j, rfl, hj⟩ := h.leave_of_ret i n hkind hcode
    simpa [previous] using hj
  | _ => trivial

/-- A routine that is no function is bracketed if it has no transactions. -/
theorem bracketed_iff_of_ne_function (hkind : routine.kind ≠ .function) :
    routine.Bracketed ↔ .enter ∉ routine.code.toList ∧ .leave ∉ routine.code.toList := by
  have hmem {instruction : Instruction} :
      instruction ∈ routine.code.toList ↔ ∃ i : Nat, routine.code[i]? = some instruction := by
    rw [List.mem_iff_getElem?]
    simp
  simp only [hmem, not_exists]
  constructor
  · intro h
    exact ⟨fun i hi => hkind ((h.enter_iff i).1 hi).1, fun i hi => hkind (h.kind_of_leave i hi)⟩
  · rintro ⟨henter, hleave⟩
    exact ⟨fun i => ⟨fun h => (henter i h).elim, fun h => (hkind h.1).elim⟩,
      fun i h => (hleave i h).elim, fun i h => (hleave i h).elim, fun i n h => (hkind h).elim⟩

/-- The check accepts exactly the bracketed routines. -/
theorem bracketProblems_eq_nil_iff : routine.bracketProblems = [] ↔ routine.Bracketed := by
  unfold bracketProblems
  by_cases hkind : routine.kind = .function
  · simp only [hkind, if_true, List.append_eq_nil_iff, misplacedBracketsFrom_eq_nil_iff]
    have hhead : routine.code.toList.head? = some .enter ↔ routine.code[0]? = some .enter := by
      rw [List.head?_eq_getElem?, Array.getElem?_toList]
    constructor
    · rintro ⟨henter, hfits⟩
      exact .of_fits hkind (hhead.1 (by simpa using henter)) hfits
    · intro h
      have henter := hhead.2 ((h.enter_iff 0).2 ⟨hkind, rfl⟩)
      exact ⟨by simp [henter], h.fits hkind⟩
  · simp only [hkind, if_false, strayBracketsFrom_eq_nil_iff, bracketed_iff_of_ne_function hkind]

theorem Bracketed.of_mem {program : Program} (h : program.bracketProblems = []) {routine : Routine}
    (hroutine : routine ∈ program.routines) : routine.Bracketed :=
  bracketProblems_eq_nil_iff.1 (List.flatMap_eq_nil_iff.1 h routine hroutine)

/-! ## Inside a transaction -/

/-- A position of a function is in its transaction unless the transaction is still to be
opened there or is closed already. -/
def inTransaction (routine : Routine) (position : Nat) : Bool :=
  routine.kind = .function &&
    match routine.code[position]? with
    | some .enter | some (.ret _) => false
    | _ => true

theorem inTransaction_iff {routine : Routine} {position : Nat} :
    routine.inTransaction position ↔ routine.kind = .function ∧
      routine.code[position]? ≠ some .enter ∧ ∀ n, routine.code[position]? ≠ some (.ret n) := by
  unfold inTransaction
  rw [Bool.and_eq_true, decide_eq_true_eq]
  refine and_congr_right fun _ => ?_
  split <;> simp_all

/-- A function calls others only from inside its transaction. -/
theorem inTransaction_of_call {routine : Routine} {position argc : Nat} {name : String}
    (hkind : routine.kind = .function) (h : routine.code[position]? = some (.call name argc)) :
    routine.inTransaction position :=
  inTransaction_iff.2 ⟨hkind, by simp [h], by simp [h]⟩

/-- The paths through an instruction go on after it or at its destination. -/
theorem mem_successors {program : Program} {routine : Routine} {position next : Nat}
    {instruction : Instruction} (h : next ∈ program.successors routine position instruction) :
    next = position + 1 ∨ routine.target? position = some next := by
  unfold Program.successors at h
  split at h
  · simp at h
  · split at h <;> simp at h <;> tauto

/-- A step inside a bracketed function leads into its transaction, except from the end of the
transaction, which leads behind it. -/
theorem Bracketed.inTransaction_next {routine : Routine} (h : routine.Bracketed)
    {position next : Nat} {instruction : Instruction}
    (hinstruction : routine.code[position]? = some instruction)
    (hnext : next = position + 1 ∨ routine.target? position = some next) :
    routine.inTransaction next ↔ routine.kind = .function ∧ instruction ≠ .leave := by
  rw [inTransaction_iff]
  constructor
  · rintro ⟨hkind, -, hret⟩
    refine ⟨hkind, ?_⟩
    rintro rfl
    obtain ⟨n, hn⟩ := h.ret_of_leave position hinstruction
    rcases hnext with rfl | htarget
    · exact hret n hn
    · obtain ⟨label, hlabel, -⟩ := target?_eq_some_iff.1 htarget
      simp [hinstruction, Instruction.jumpLabel?] at hlabel
  · rintro ⟨hkind, hleave⟩
    have hbefore : ∃ before, next = before + 1 ∧ routine.code[before]? ≠ some .leave := by
      rcases hnext with rfl | htarget
      · exact ⟨position, rfl, by simpa [hinstruction] using hleave⟩
      · obtain ⟨label, -, hpos, hlabel⟩ := target?_eq_some_iff.1 htarget
        exact ⟨next - 1, by omega, by simp [hlabel]⟩
    obtain ⟨before, rfl, hbefore⟩ := hbefore
    refine ⟨hkind, fun henter => ?_, fun n hret => ?_⟩
    · exact absurd ((h.enter_iff _).1 henter).2 (Nat.succ_ne_zero before)
    · obtain ⟨j, hj, hclose⟩ := h.leave_of_ret _ n hkind hret
      obtain rfl : before = j := by omega
      exact hbefore hclose

/-- Only the two ends of a transaction lead into it or out of it. -/
theorem Bracketed.inTransaction_stay {program : Program} {routine : Routine}
    (h : routine.Bracketed) {position next : Nat} {instruction : Instruction}
    (hinstruction : routine.code[position]? = some instruction)
    (hnext : next ∈ program.successors routine position instruction) :
    (instruction = .enter →
        routine.inTransaction position = false ∧ routine.inTransaction next = true) ∧
      (instruction = .leave →
        routine.inTransaction position = true ∧ routine.inTransaction next = false) ∧
      (instruction ≠ .enter → instruction ≠ .leave →
        routine.inTransaction next = routine.inTransaction position ∧
          (routine.kind = .function → routine.inTransaction position = true)) := by
  have hafter := h.inTransaction_next hinstruction (mem_successors hnext)
  have hret : ∀ n, instruction ≠ .ret n := by
    rintro n rfl
    simp [Program.successors, Program.alwaysFails] at hnext
  have hbefore : routine.inTransaction position = true ↔
      routine.kind = .function ∧ instruction ≠ .enter := by
    refine inTransaction_iff.trans (and_congr_right fun _ => ?_)
    rw [hinstruction]
    simpa using fun _ => hret
  refine ⟨?_, ?_, fun henter hleave => ⟨?_, fun hkind => hbefore.2 ⟨hkind, henter⟩⟩⟩
  · rintro rfl
    exact ⟨by simpa using hbefore, hafter.2 ⟨((h.enter_iff _).1 hinstruction).1, by simp⟩⟩
  · rintro rfl
    exact ⟨hbefore.2 ⟨h.kind_of_leave _ hinstruction, by simp⟩, by simpa using hafter⟩
  · rw [Bool.eq_iff_iff, hafter, hbefore]
    exact and_congr_right fun _ => iff_of_true hleave henter

/-- A bracketed routine starts outside its transaction. -/
theorem Bracketed.inTransaction_zero {routine : Routine} (h : routine.Bracketed) :
    routine.inTransaction 0 = false := by
  rw [Bool.eq_false_iff, Ne, inTransaction_iff]
  rintro ⟨hkind, henter, -⟩
  exact henter ((h.enter_iff 0).2 ⟨hkind, rfl⟩)

end Routine
end Gobstones
