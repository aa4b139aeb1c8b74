import Mathlib.Tactic.ByContra
import Gobstones.Native.Run
import Gobstones.Proofs.Native.Linking
/-!
# Places in native code

This module says where instructions and labels lie in linked code.  Linking fails when
a label is bound twice and when a branch names a label without a place, so in linked
code the place of every label that a branch names is known as soon as one place is
found where it is bound.

Main definitions:

- {lit}`NativeCode.At`: instructions that lie in the code from a position on.
- {lit}`NativeCode.place`: the place of a label.
- {lit}`NativeCode.Linked`: code whose labels have been linked.

Main results:

- Theorem {lit}`NativeCode.Linked.place_eq`: a branch leads right behind its label.
- Theorem {lit}`NativeCode.Linked.exists_place`: the label of a branch is bound at one place.
-/

namespace Gobstones
namespace Native

/-! ## The first pass -/

/-- A label whose offset is known is not bound again, and its offset stays known. -/
theorem not_mem_of_labelOffsets {offsets final : Offsets} {offset : Nat} {instrs : List Instr}
    {label : Label} (h : labelOffsets offsets offset instrs = .ok final)
    (hknown : (offsets.get? label).isSome) :
    Instr.bind label ∉ instrs ∧ (final.get? label).isSome := by
  induction instrs generalizing offsets offset with
  | nil =>
    obtain rfl := Except.ok.inj h
    exact ⟨by simp, hknown⟩
  | cons first rest ih =>
    cases hbound : first.bound? with
    | none =>
      rw [labelOffsets_cons_of_none hbound] at h
      have hrest := ih h hknown
      have hne : Instr.bind label ≠ first := by
        rintro rfl
        cases hbound
      exact ⟨by simp [hne, hrest.1], hrest.2⟩
    | some other =>
      obtain rfl := Instr.bound?_eq_some_iff.1 hbound
      simp only [labelOffsets] at h
      split at h
      · simp at h
      · next hfresh =>
        have hne : other ≠ label := by
          rintro rfl
          exact hfresh hknown
        have hkept : (Offsets.get? (offsets.setIfInBounds other (some offset)) label).isSome := by
          rw [Offsets.get?, Array.getElem?_setIfInBounds_ne hne]
          exact hknown
        have hrest := ih h hkept
        exact ⟨by simp [hne.symm, hrest.1], hrest.2⟩

/-- A label that gets an offset is bound in the range of the offsets, at one place. -/
theorem bind_of_labelOffsets {offsets final : Offsets} {offset : Nat} {instrs : List Instr}
    {label : Label} (h : labelOffsets offsets offset instrs = .ok final)
    (hunknown : offsets.get? label = none) (hfound : (final.get? label).isSome) :
    label < offsets.size ∧ ∃ j, ∀ i : Nat, instrs[i]? = some (Instr.bind label) ↔ i = j := by
  induction instrs generalizing offsets offset with
  | nil =>
    obtain rfl := Except.ok.inj h
    simp [hunknown] at hfound
  | cons first rest ih =>
    cases hbound : first.bound? with
    | none =>
      rw [labelOffsets_cons_of_none hbound] at h
      obtain ⟨hlt, j, hj⟩ := ih h hunknown
      refine ⟨hlt, j + 1, fun i => ?_⟩
      cases i with
      | zero =>
        have hne : first ≠ .bind label := by
          rintro rfl
          cases hbound
        simp [hne]
      | succ i => simpa using hj i
    | some other =>
      obtain rfl := Instr.bound?_eq_some_iff.1 hbound
      simp only [labelOffsets] at h
      split at h
      · simp at h
      · by_cases hother : other = label
        · subst hother
          have hlt : other < offsets.size := by
            by_contra hge
            have hsame : offsets.setIfInBounds other (some offset) = offsets := by
              rw [Array.setIfInBounds, dif_neg hge]
            rw [hsame] at h
            obtain ⟨hlt, -⟩ := ih h hunknown
            exact hge hlt
          have hknown :
              (Offsets.get? (offsets.setIfInBounds other (some offset)) other).isSome := by
            simp [Offsets.get?, hlt]
          have hrest := (not_mem_of_labelOffsets h hknown).1
          refine ⟨hlt, 0, fun i => ?_⟩
          cases i with
          | zero => simp
          | succ i =>
            simp only [List.getElem?_cons_succ, Nat.succ_ne_zero, iff_false]
            exact fun hi => hrest (List.mem_of_getElem? hi)
        · have hkept : Offsets.get? (offsets.setIfInBounds other (some offset)) label = none := by
            rw [Offsets.get?, Array.getElem?_setIfInBounds_ne hother]
            exact hunknown
          obtain ⟨hlt, j, hj⟩ := ih h hkept
          refine ⟨by simpa using hlt, j + 1, fun i => ?_⟩
          cases i with
          | zero => simp [hother]
          | succ i => simpa using hj i

/-- A label that is bound in the range of the offsets gets an offset. -/
theorem isSome_of_labelOffsets {offsets final : Offsets} {offset : Nat} {instrs : List Instr}
    {label : Label} (h : labelOffsets offsets offset instrs = .ok final)
    (hmem : Instr.bind label ∈ instrs) (hlt : label < offsets.size) :
    (final.get? label).isSome := by
  induction instrs generalizing offsets offset with
  | nil => simp at hmem
  | cons first rest ih =>
    cases hbound : first.bound? with
    | none =>
      rw [labelOffsets_cons_of_none hbound] at h
      rcases List.mem_cons.1 hmem with rfl | hmem
      · cases hbound
      · exact ih h hmem hlt
    | some other =>
      obtain rfl := Instr.bound?_eq_some_iff.1 hbound
      simp only [labelOffsets] at h
      split at h
      · simp at h
      · rcases List.mem_cons.1 hmem with heq | hmem
        · obtain rfl := Instr.bind.inj heq
          refine (not_mem_of_labelOffsets h ?_).2
          simp [Offsets.get?, hlt]
        · exact ih h hmem (by simpa using hlt)

/-! ## The second pass -/

/-- The label of every encoded branch has an offset. -/
theorem isSome_of_encodeFrom {offsets : Offsets} {code bytes : Array UInt8} {instrs : List Instr}
    {instr : Instr} {label : Label} (h : encodeFrom offsets code instrs = .ok bytes)
    (hmem : instr ∈ instrs) (htarget : instr.target? = some label) :
    (offsets.get? label).isSome := by
  induction instrs generalizing code with
  | nil => simp at hmem
  | cons first rest ih =>
    rw [encodeFrom] at h
    split at h
    · next hnone =>
      rcases List.mem_cons.1 hmem with rfl | hmem
      · simp [hnone] at htarget
      · exact ih h hmem
    · next other hother =>
      split at h
      · simp at h
      · next target hfound =>
        rcases List.mem_cons.1 hmem with rfl | hmem
        · obtain rfl : other = label := by simpa [hother] using htarget
          simp [hfound]
        · exact ih h hmem

/-! ## Places -/

theorem getElem?_placesFrom_of_not_mem {places : Array (Option Nat)} {position : Nat}
    {instrs : List Instr} {label : Label} (h : Instr.bind label ∉ instrs) :
    (placesFrom places position instrs)[label]? = places[label]? := by
  induction instrs generalizing places position with
  | nil => rfl
  | cons first rest ih =>
    have hrest : Instr.bind label ∉ rest := fun hmem => h (List.mem_cons_of_mem _ hmem)
    cases first with
    | bind other =>
      have hne : other ≠ label := by
        rintro rfl
        exact h List.mem_cons_self
      rw [placesFrom, ih hrest, Array.getElem?_setIfInBounds_ne hne]
    | _ => exact ih hrest

/-- The place of a label that is bound once lies right behind it. -/
theorem getElem?_placesFrom {places : Array (Option Nat)} {position : Nat} {instrs : List Instr}
    {label : Label} {j : Nat} (hlt : label < places.size)
    (h : ∀ i : Nat, instrs[i]? = some (Instr.bind label) ↔ i = j) :
    (placesFrom places position instrs)[label]? = some (some (position + j + 1)) := by
  induction instrs generalizing places position j with
  | nil => simpa using (h j).2 rfl
  | cons first rest ih =>
    cases j with
    | zero =>
      obtain rfl : first = .bind label := by simpa using (h 0).2 rfl
      have hrest : Instr.bind label ∉ rest := by
        intro hmem
        obtain ⟨i, hi⟩ := List.mem_iff_getElem?.1 hmem
        exact Nat.succ_ne_zero i ((h (i + 1)).1 (by simpa using hi))
      rw [placesFrom, getElem?_placesFrom_of_not_mem hrest]
      simp [hlt]
    | succ j =>
      have hrest (i : Nat) : rest[i]? = some (.bind label) ↔ i = j := by
        simpa using h (i + 1)
      have hplain {places : Array (Option Nat)} (hlt : label < places.size) :
          (placesFrom places (position + 1) rest)[label]? =
            some (some (position + (j + 1) + 1)) := by
        rw [ih hlt hrest]
        congr 2
        omega
      cases first with
      | bind other => exact hplain (by simpa using hlt)
      | _ => exact hplain hlt

namespace NativeCode

/-- The place of a label. -/
def place (code : NativeCode) (label : Label) : Option Nat :=
  code.places[label]?.join

/-- The instructions of the code were linked. -/
def Linked (code : NativeCode) : Prop :=
  ∃ linked, link code.labels code.instrs.toList = .ok linked

variable {code : NativeCode}

/-- The label of a branch of linked code is bound at one place, and the branch leads right
behind it. -/
theorem Linked.exists_place (h : code.Linked) {i : Nat} {instr : Instr} {label : Label}
    (hinstr : code.instrs[i]? = some instr) (htarget : instr.target? = some label) :
    ∃ j, (∀ k : Nat, code.instrs[k]? = some (.bind label) ↔ k = j) ∧
      code.place label = some (j + 1) := by
  obtain ⟨linked, hlink⟩ := h
  obtain ⟨hoffsets, hbytes⟩ := link_eq_ok_iff.1 hlink
  have hmem : instr ∈ code.instrs.toList := by
    simpa using Array.mem_of_getElem? hinstr
  have hfound := isSome_of_encodeFrom hbytes hmem htarget
  obtain ⟨hlt, j, hj⟩ := bind_of_labelOffsets hoffsets (Offsets.get?_replicate code.labels label) hfound
  refine ⟨j, fun k => by simpa using hj k, ?_⟩
  rw [place, places, getElem?_placesFrom (by simpa using hlt) hj]
  simp

/-- A label with a place is bound nowhere else than right in front of it. -/
theorem Linked.bind_of_place (h : code.Linked) {label : Label} {n j : Nat}
    (hplace : code.place label = some n) (hbind : code.instrs[j]? = some (.bind label)) :
    n = j + 1 := by
  obtain ⟨linked, hlink⟩ := h
  obtain ⟨hoffsets, -⟩ := link_eq_ok_iff.1 hlink
  have hmem : Instr.bind label ∈ code.instrs.toList := by
    simpa using Array.mem_of_getElem? hbind
  have hlt : label < (Array.replicate code.labels (none : Option Nat)).size := by
    by_contra hge
    have hsize (places : Array (Option Nat)) (position : Nat) (instrs : List Instr) :
        (placesFrom places position instrs).size = places.size := by
      induction instrs generalizing places position with
      | nil => rfl
      | cons first rest ih => cases first <;> simp [placesFrom, ih]
    have hnone : code.places[label]? = none := by
      rw [places, Array.getElem?_eq_none_iff, hsize]
      exact Nat.le_of_not_lt hge
    simp [place, hnone] at hplace
  obtain ⟨-, i, hi⟩ := bind_of_labelOffsets hoffsets (Offsets.get?_replicate code.labels label)
    (isSome_of_labelOffsets hoffsets hmem hlt)
  obtain rfl := (hi j).1 (by simpa using hbind)
  rw [place, places, getElem?_placesFrom hlt hi] at hplace
  simpa using (Option.some.inj hplace).symm

/-- A branch leads right behind its label. -/
theorem Linked.place_eq (h : code.Linked) {i j : Nat} {instr : Instr} {label : Label}
    (hinstr : code.instrs[i]? = some instr) (htarget : instr.target? = some label)
    (hbind : code.instrs[j]? = some (.bind label)) : code.place label = some (j + 1) := by
  obtain ⟨k, hunique, hplace⟩ := h.exists_place hinstr htarget
  rw [hplace, (hunique j).1 hbind]

/-! ## Segments -/

/-- Instructions lie in the code from a position on. -/
def At (code : NativeCode) (position : Nat) (instrs : List Instr) : Prop :=
  ∀ i instr, instrs[i]? = some instr → code.instrs[position + i]? = some instr

@[simp]
theorem at_nil {position : Nat} : code.At position [] := by
  simp [At]

theorem at_cons_iff {position : Nat} {first : Instr} {rest : List Instr} :
    code.At position (first :: rest) ↔
      code.instrs[position]? = some first ∧ code.At (position + 1) rest := by
  constructor
  · intro h
    refine ⟨by simpa using h 0 first rfl, fun i instr hi => ?_⟩
    rw [Nat.add_assoc, Nat.add_comm 1]
    exact h (i + 1) instr (by simpa using hi)
  · rintro ⟨hfirst, hrest⟩ (_ | i) instr hi
    · obtain rfl : first = instr := by simpa using hi
      exact hfirst
    · rw [Nat.add_comm i, ← Nat.add_assoc]
      exact hrest i instr (by simpa using hi)

theorem at_append_iff {position : Nat} {first second : List Instr} :
    code.At position (first ++ second) ↔
      code.At position first ∧ code.At (position + first.length) second := by
  induction first generalizing position with
  | nil => simp
  | cons instr first ih =>
    rw [List.cons_append, at_cons_iff, at_cons_iff, ih, and_assoc, List.length_cons,
      Nat.add_right_comm, Nat.add_assoc position]

end NativeCode
end Native
end Gobstones
