/-!
# Lists in ascending order of keys

This module inserts into lists that are kept in ascending order of string keys, one
entry to a key.

Main definitions:

- {lit}`Ordered.insert`: insert an entry, in the place of one with its key.
- {lit}`Ordered.erase`: remove the entry of a key.
- {lit}`Ordered.Ascending`: the order, which both of them keep.
-/

namespace Gobstones
namespace Ordered

/-- Insert an entry before the first greater key, in the place of one with its key. -/
def insert {α : Type} (key : α → String) (entry : α) : List α → List α
  | [] => [entry]
  | other :: rest =>
    if key entry = key other then entry :: rest
    else if key entry < key other then entry :: other :: rest
    else other :: insert key entry rest

/-- Remove the entry of a key. -/
def erase {α : Type} (key : α → String) (name : String) (entries : List α) : List α :=
  entries.filter (key · ≠ name)

/-! ## The order -/

/-- Keys in ascending order, one entry to a key. -/
def Ascending {α : Type} (key : α → String) (entries : List α) : Prop :=
  entries.Pairwise fun first second => key first < key second

variable {α : Type} {key : α → String}

theorem mem_insert {entry other : α} {entries : List α} (h : other ∈ insert key entry entries) :
    other = entry ∨ other ∈ entries := by
  induction entries with
  | nil => exact .inl (List.mem_singleton.1 h)
  | cons first rest ih =>
    simp only [insert] at h
    split at h
    · rcases List.mem_cons.1 h with rfl | h
      · exact .inl rfl
      · exact .inr (List.mem_cons_of_mem first h)
    · split at h
      · exact List.mem_cons.1 h
      · rcases List.mem_cons.1 h with rfl | h
        · exact .inr List.mem_cons_self
        · exact (ih h).imp_right (List.mem_cons_of_mem first)

/-- Insertion keeps the order. -/
theorem ascending_insert {entries : List α} (h : Ascending key entries) (entry : α) :
    Ascending key (insert key entry entries) := by
  induction entries with
  | nil => exact List.pairwise_singleton _ _
  | cons first rest ih =>
    obtain ⟨hfirst, hrest⟩ := List.pairwise_cons.1 h
    simp only [insert]
    split
    · next heq => exact List.pairwise_cons.2 ⟨fun other hother => heq ▸ hfirst other hother, hrest⟩
    · next hne =>
      split
      · next hlt =>
        refine List.pairwise_cons.2 ⟨fun other hother => ?_, h⟩
        rcases List.mem_cons.1 hother with rfl | hother
        · exact hlt
        · exact String.lt_trans hlt (hfirst other hother)
      · next hge =>
        have hlt : key first < key entry := Decidable.byContradiction fun hle =>
          hne (String.le_antisymm (String.not_lt.1 hle) (String.not_lt.1 hge))
        refine List.pairwise_cons.2 ⟨fun other hother => ?_, ih hrest⟩
        rcases mem_insert hother with rfl | hother
        · exact hlt
        · exact hfirst other hother

/-- Removal keeps the order. -/
theorem ascending_erase {entries : List α} (h : Ascending key entries) (name : String) :
    Ascending key (erase key name entries) :=
  List.Pairwise.filter _ h

end Ordered
end Gobstones
