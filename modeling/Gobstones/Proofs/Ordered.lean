import Mathlib.Data.List.Perm.Basic
import Gobstones.Ordered
/-!
# Sorted lists of entries

This module shows that inserting entries with distinct keys sorts them: the list holds
exactly the entries, in ascending order of their keys.

Main results:

- Theorem {lit}`Ordered.ascending_foldl_insert`: entries are inserted in order.
- Theorem {lit}`Ordered.foldl_insert_perm`: entries with distinct keys all stay.
-/

namespace Gobstones
namespace Ordered

variable {α : Type} {key : α → String}

/-- An entry with a new key joins the others. -/
theorem insert_perm {entry : α} {entries : List α} (h : key entry ∉ entries.map key) :
    (insert key entry entries).Perm (entry :: entries) := by
  induction entries with
  | nil => exact .refl _
  | cons first rest ih =>
    rw [List.map_cons, List.mem_cons, not_or] at h
    rw [insert, if_neg h.1]
    split
    · exact .refl _
    · exact ((ih h.2).cons first).trans (.swap entry first rest)

/-- Entries with distinct keys all stay. -/
theorem foldl_insert_perm {entries before : List α} (h : ((before ++ entries).map key).Nodup) :
    (entries.foldl (fun sorted entry => insert key entry sorted) before).Perm
      (before ++ entries) := by
  induction entries generalizing before with
  | nil => simp
  | cons entry rest ih =>
    have hnew : key entry ∉ before.map key := by
      rw [List.map_append, List.map_cons, List.nodup_append] at h
      exact fun hmem => h.2.2 _ hmem _ List.mem_cons_self rfl
    have hperm : (insert key entry before ++ rest).Perm (before ++ entry :: rest) :=
      ((insert_perm hnew).append_right rest).trans List.perm_middle.symm
    exact (ih (((hperm.map key).nodup_iff).2 h)).trans hperm

theorem ascending_foldl_insert {entries before : List α} (h : Ascending key before) :
    Ascending key (entries.foldl (fun sorted entry => insert key entry sorted) before) := by
  induction entries generalizing before with
  | nil => exact h
  | cons entry rest ih => exact ih (ascending_insert h entry)

end Ordered
end Gobstones
