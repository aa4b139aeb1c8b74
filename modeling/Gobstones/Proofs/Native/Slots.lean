import Mathlib.Data.List.Induction
import Mathlib.Data.List.Nodup
import Mathlib.Tactic.Tauto
import Gobstones.Native.Frame
import Gobstones.Proofs.Outcome
/-!
# Slots of variables

This module says which slots the variables of a routine have.  Parameters are numbered back from
the last one, and the other variables in the order in which the instructions name them first.
Slots are words of a frame, and no two variables share one with each other or with the two words
that belong to the call.

Main definitions:

- {lit}`Slot.index`: the place of a slot among the words of a frame.
- {lit}`Slot.offset`: the distance of a slot from the frame pointer.
- {lit}`FrameLayout.Separates`: variables have slots of their own.
- {lit}`Instruction.Uses`: an instruction names a variable.
- {lit}`Routine.locals`: the variables of a routine that are not parameters.
- {lit}`FrameLayout.Numbers`: local slots are numbered in the order of a list.

Main results:

- Theorem {lit}`Slot.memory_eq_ok_iff`: the memory of a slot.
- Theorem {lit}`FrameLayout.separates_ofRoutine`: the slots of a routine differ.
- Theorem {lit}`FrameLayout.numbers_ofRoutine`: the slot of each variable.
-/

namespace Gobstones
namespace Native

/-! ## Displacements -/

theorem wordOffset_eq_ok_iff {words : Nat} {disp : Int32} :
    wordOffset words = .ok disp ↔ disp.toInt = 8 * words := by
  constructor
  · intro h
    unfold wordOffset at h
    split at h
    · next hlt =>
      unfold frameLimit at hlt
      rw [← Except.ok.inj h, Int32.toInt_ofNat_of_lt (by omega)]
      push_cast
      rfl
    · cases h
  · intro h
    have hbound := disp.toInt_lt
    have hlt : words < frameLimit := by
      unfold frameLimit
      omega
    rw [wordOffset, if_pos hlt]
    congr 1
    apply Int32.toInt_inj.1
    rw [Int32.toInt_ofNat_of_lt (by omega), h]
    push_cast
    rfl

theorem toInt_neg_disp {disp : Int32} (h : -(8 * (frameLimit : Int)) < disp.toInt) :
    (-disp).toInt = -disp.toInt := by
  have hbound := disp.toInt_lt
  unfold frameLimit at h
  rw [Int32.toInt_neg]
  apply Int.bmod_eq_of_le <;> omega

/-- The displacement of some words is the number of their bytes. -/
theorem wordOffset_eq_ok {words : Nat} {disp : Int32} (h : wordOffset words = .ok disp) :
    disp.toInt64.toInt = 8 * words ∧ (-disp).toInt64.toInt = -(8 * words) := by
  have hdisp := wordOffset_eq_ok_iff.1 h
  have hlimit : frameLimit = 0x10000000 := rfl
  rw [Int32.toInt_toInt64, Int32.toInt_toInt64, toInt_neg_disp (by omega), hdisp]
  exact ⟨rfl, rfl⟩

/-- A count of words that fits into a displacement is not cut off. -/
theorem wordOffset_min {words : Nat} {disp : Int32}
    (h : wordOffset (min words maxWords) = .ok disp) : wordOffset words = .ok disp := by
  have hlimit : frameLimit < maxWords := by decide
  by_cases hle : words ≤ maxWords
  · rwa [Nat.min_eq_left hle] at h
  · rw [Nat.min_eq_right (Nat.le_of_not_le hle), wordOffset, if_neg (Nat.lt_asymm hlimit)] at h
    cases h

/-! ## Slots -/

/-- The place of a slot among the words of a frame, the latest word first.  Behind the local
variables lie the frame pointer of the caller and the place to return to. -/
def Slot.index (locals : Nat) : Slot → Nat
  | param k => locals + 1 + k
  | own k => locals - k

/-- A slot counts from one up to the number of parameters or of local variables. -/
def Slot.FitsIn (params locals : Nat) : Slot → Prop
  | param k => 0 < k ∧ k ≤ params
  | own k => 0 < k ∧ k ≤ locals

/-- Different slots have different places. -/
theorem Slot.index_inj {params locals : Nat} {a b : Slot} (ha : a.FitsIn params locals)
    (hb : b.FitsIn params locals) (h : a.index locals = b.index locals) : a = b := by
  cases a with
  | param i =>
    cases b with
    | param j =>
      simp only [index] at h
      congr 1
      omega
    | own j =>
      simp only [index, FitsIn] at h hb
      omega
  | own i =>
    cases b with
    | param j =>
      simp only [index, FitsIn] at h ha
      omega
    | own j =>
      simp only [index, FitsIn] at h ha hb
      congr 1
      omega

/-- Slots lie outside the two words that belong to the call. -/
theorem Slot.index_ne {params locals : Nat} {a : Slot} (ha : a.FitsIn params locals) :
    a.index locals ≠ locals ∧ a.index locals ≠ locals + 1 ∧
      a.index locals < locals + 2 + params := by
  cases a with
  | param i =>
    simp only [index, FitsIn] at ha ⊢
    omega
  | own i =>
    simp only [index, FitsIn] at ha ⊢
    omega

/-- The distance of a slot from the frame pointer in bytes. -/
def Slot.offset : Slot → Int
  | param k => 8 * (k + 1 : Nat)
  | own k => -(8 * k)

/-- A slot has the memory at its distance, unless the distance does not fit. -/
theorem Slot.memory_eq_ok_iff {slot : Slot} {mem : Memory} :
    slot.memory = .ok mem ↔
      mem.base = .rbp ∧ mem.disp.toInt = slot.offset ∧ -(8 * (frameLimit : Int)) < slot.offset := by
  rcases mem with ⟨base, disp⟩
  constructor
  · intro h
    cases slot with
    | param k =>
      obtain ⟨disp, hdisp, hmem⟩ := exists_of_map_eq_ok h
      obtain ⟨rfl, rfl⟩ := Memory.mk.inj hmem
      refine ⟨rfl, wordOffset_eq_ok_iff.1 (wordOffset_min hdisp), ?_⟩
      simp only [offset]
      omega
    | own k =>
      obtain ⟨disp, hdisp, hmem⟩ := exists_of_map_eq_ok h
      obtain ⟨rfl, rfl⟩ := Memory.mk.inj hmem
      have hbytes := wordOffset_eq_ok_iff.1 hdisp
      have hbound := disp.toInt_lt
      have hlimit : frameLimit = 0x10000000 := rfl
      refine ⟨rfl, ?_, ?_⟩
      · rw [toInt_neg_disp (by omega), hbytes, offset]
      · simp only [offset]
        omega
  · rintro ⟨hbase, hdisp, hfits⟩
    obtain rfl : base = .rbp := hbase
    have hdisp : disp.toInt = slot.offset := hdisp
    cases slot with
    | param k =>
      have hbound := disp.toInt_lt
      have hle : k + 1 ≤ maxWords := by
        simp only [offset] at hdisp
        simp only [maxWords, UInt64.size]
        omega
      rw [memory, Nat.min_eq_left hle, wordOffset_eq_ok_iff.2 hdisp]
      rfl
    | own k =>
      have hopposite : (-disp).toInt = 8 * k := by
        rw [toInt_neg_disp (hdisp ▸ hfits), hdisp, offset, Int.neg_neg]
      rw [memory, wordOffset_eq_ok_iff.2 hopposite]
      simp [Except.map]

/-- Slots have the distances of their words in the frame from the word of the frame pointer. -/
theorem Slot.offset_eq {slot : Slot} {params locals : Nat} (h : slot.FitsIn params locals) :
    slot.offset = 8 * (slot.index locals - locals : Int) := by
  cases slot with
  | param k =>
    simp only [offset, index]
    omega
  | own k =>
    simp only [offset, index, FitsIn] at h ⊢
    omega

/-- The place of a slot relative to the frame pointer. -/
theorem toInt_slot {slot : Slot} {params locals : Nat} {mem : Memory}
    (hfits : slot.FitsIn params locals) (hmem : slot.memory = .ok mem) :
    mem.base = .rbp ∧ mem.disp.toInt64.toInt = 8 * ((slot.index locals : Int) - locals) := by
  obtain ⟨hbase, hdisp, -⟩ := Slot.memory_eq_ok_iff.1 hmem
  rw [Int32.toInt_toInt64, hdisp, Slot.offset_eq hfits]
  exact ⟨hbase, rfl⟩

namespace FrameLayout

/-! ## Slots of their own -/

/-- The slots of a layout fit in it, and no two variables share one. -/
structure Separates (layout : FrameLayout) : Prop where
  fits : ∀ entry ∈ layout.slots, entry.2.FitsIn layout.params layout.locals
  nodup : (layout.slots.map Prod.snd).Nodup

theorem mem_of_slot? {layout : FrameLayout} {name : String} {slot : Slot}
    (h : layout.slot? name = some slot) : (name, slot) ∈ layout.slots := by
  obtain ⟨front, rest, hslots, -⟩ := List.lookup_eq_some_iff.1 h
  simp [hslots]

theorem Separates.fitsIn {layout : FrameLayout} (h : layout.Separates) {name : String}
    {slot : Slot} (hslot : layout.slot? name = some slot) :
    slot.FitsIn layout.params layout.locals :=
  h.fits _ (mem_of_slot? hslot)

/-- Different variables have different places. -/
theorem Separates.index_ne {layout : FrameLayout} (h : layout.Separates) {name other : String}
    {slot slot' : Slot} (hslot : layout.slot? name = some slot)
    (hslot' : layout.slot? other = some slot') (hne : name ≠ other) :
    slot.index layout.locals ≠ slot'.index layout.locals := by
  intro hindex
  obtain rfl := Slot.index_inj (h.fitsIn hslot) (h.fitsIn hslot') hindex
  have heq := List.inj_on_of_nodup_map h.nodup (mem_of_slot? hslot) (mem_of_slot? hslot') rfl
  exact hne (congrArg Prod.fst heq)

/-- The parameters that are still to come get the slots below those of the others. -/
theorem mem_paramSlots (params : List String) (slots : List (String × Slot)) (n : Nat)
    (hfits : ∀ entry ∈ slots, ∃ k, entry.2 = .param k ∧ params.length < k ∧ k ≤ n)
    (hnodup : (slots.map Prod.snd).Nodup) (hn : params.length ≤ n) :
    (∀ entry ∈ paramSlots params slots, ∃ k, entry.2 = .param k ∧ 0 < k ∧ k ≤ n) ∧
      ((paramSlots params slots).map Prod.snd).Nodup := by
  induction params generalizing slots with
  | nil => exact ⟨hfits, hnodup⟩
  | cons name params ih =>
    rw [paramSlots]
    apply ih
    · intro entry hentry
      rcases List.mem_cons.1 hentry with rfl | hentry
      · exact ⟨_, rfl, Nat.lt_succ_self _, hn⟩
      · obtain ⟨k, hk, hlt, hle⟩ := hfits entry hentry
        rw [List.length_cons] at hlt
        exact ⟨k, hk, by omega, hle⟩
    · rw [List.map_cons, List.nodup_cons]
      refine ⟨fun hmem => ?_, hnodup⟩
      obtain ⟨entry, hentry, hsame⟩ := List.mem_map.1 hmem
      obtain ⟨k, hk, hlt, -⟩ := hfits entry hentry
      rw [hk] at hsame
      obtain rfl := Slot.param.inj hsame
      simp at hlt
    · rw [List.length_cons] at hn
      omega

theorem Separates.addLocal {layout : FrameLayout} (h : layout.Separates) (name : String) :
    (layout.addLocal name).Separates := by
  unfold FrameLayout.addLocal
  split
  · exact h
  · refine ⟨fun entry hentry => ?_, ?_⟩
    · rcases List.mem_cons.1 hentry with rfl | hentry
      · exact ⟨Nat.succ_pos _, Nat.le_refl _⟩
      · have hfits := h.fits entry hentry
        cases hslot : entry.2 with
        | param k =>
          rw [hslot] at hfits
          exact hfits
        | own k =>
          rw [hslot] at hfits
          exact ⟨hfits.1, Nat.le_succ_of_le hfits.2⟩
    · refine List.nodup_cons.2 ⟨fun hmem => ?_, h.nodup⟩
      obtain ⟨entry, hentry, hsame⟩ := List.mem_map.1 hmem
      have hfits := h.fits entry hentry
      rw [hsame] at hfits
      have hle : layout.locals + 1 ≤ layout.locals := hfits.2
      omega

theorem params_addLocal (layout : FrameLayout) (name : String) :
    (layout.addLocal name).params = layout.params := by
  unfold addLocal
  split <;> rfl

/-- The layout of a routine without its local variables. -/
def ofParams (params : List String) : FrameLayout :=
  { slots := paramSlots params [], params := params.length, locals := 0 }

theorem separates_ofParams (params : List String) : (ofParams params).Separates := by
  obtain ⟨hfits, hnodup⟩ :=
    mem_paramSlots params [] params.length (by simp) (by simp) (Nat.le_refl _)
  refine ⟨fun entry hentry => ?_, hnodup⟩
  obtain ⟨k, hk, hpos, hle⟩ := hfits entry hentry
  rw [hk]
  exact ⟨hpos, hle⟩

theorem foldl_addLocal (layout : FrameLayout) (names : List String) :
    (names.foldl addLocal layout).params = layout.params ∧
      (layout.Separates → (names.foldl addLocal layout).Separates) := by
  induction names generalizing layout with
  | nil => exact ⟨rfl, fun h => h⟩
  | cons name names ih =>
    obtain ⟨hparams, hseparates⟩ := ih (layout.addLocal name)
    exact ⟨hparams.trans (params_addLocal layout name), fun h => hseparates (h.addLocal name)⟩

theorem separates_ofRoutine (routine : Routine) : (ofRoutine routine).Separates :=
  (foldl_addLocal (ofParams routine.params) _).2 (separates_ofParams routine.params)

theorem params_ofRoutine (routine : Routine) : (ofRoutine routine).params = routine.params.length :=
  (foldl_addLocal (ofParams routine.params) _).1

end FrameLayout

/-! ## Memory of variables -/

theorem slot_of_memory {layout : FrameLayout} {name : String} {mem : Memory}
    (h : layout.memory name = .ok mem) :
    ∃ slot, layout.slot? name = some slot ∧ slot.memory = .ok mem := by
  unfold FrameLayout.memory at h
  split at h
  · next slot hslot => exact ⟨slot, hslot, h⟩
  · cases h

theorem FrameLayout.memory_eq_ok_iff {layout : FrameLayout} {name : String} {slot : Slot}
    {mem : Memory} (hslot : layout.slot? name = some slot) : layout.memory name = .ok mem ↔
      mem.base = .rbp ∧ mem.disp.toInt = slot.offset ∧ -(8 * (frameLimit : Int)) < slot.offset := by
  rw [memory, hslot]
  exact Slot.memory_eq_ok_iff

/-- The place of a variable in memory is that of its word in the frame. -/
theorem FrameLayout.Separates.disp_eq {layout : FrameLayout} (h : layout.Separates) {name : String}
    {mem : Memory} (hmem : layout.memory name = .ok mem) :
    ∃ slot, layout.slot? name = some slot ∧ mem.base = .rbp ∧
      mem.disp.toInt = 8 * (slot.index layout.locals - layout.locals : Int) := by
  obtain ⟨slot, hslot, hmemory⟩ := slot_of_memory hmem
  obtain ⟨hbase, hdisp, -⟩ := Slot.memory_eq_ok_iff.1 hmemory
  exact ⟨slot, hslot, hbase, hdisp.trans (Slot.offset_eq (h.fitsIn hslot))⟩

end Native

/-! ## Uses of variables -/

/-- An instruction names a variable: it reads, writes or forgets it, or returns it under a name
with a type suffix. -/
inductive Instruction.Uses : Instruction → String → Prop
  | pushFrom (name : String) : Uses (.pushFrom name) name
  | popTo (name : String) : Uses (.popTo name) name
  | delVar (name : String) : Uses (.delVar name) name
  | returnVars {count : Nat} {names : List String} {name : String} (h : name ∈ names) :
    Uses (.returnVars count names) (Polyname.base name)

/-- The variables that the instructions of a routine name, one after the other. -/
def Routine.uses (routine : Routine) : List String :=
  routine.code.toList.flatMap Native.FrameLayout.variablesOf

/-- The variables of a routine that are not parameters, in the order of their first uses. -/
def Routine.locals (routine : Routine) : List String :=
  (routine.uses.filter fun name => name ∉ routine.params).eraseDups

theorem Native.FrameLayout.mem_variablesOf_iff {instruction : Instruction} {name : String} :
    name ∈ variablesOf instruction ↔ instruction.Uses name := by
  constructor
  · intro h
    cases instruction with
    | pushFrom | popTo | delVar =>
      obtain rfl := List.mem_singleton.1 h
      constructor
    | returnVars count names =>
      obtain ⟨returned, hmem, rfl⟩ := List.mem_map.1 h
      exact .returnVars hmem
    | _ => cases h
  · intro h
    cases h with
    | pushFrom | popTo | delVar => exact List.mem_singleton_self _
    | returnVars hmem => exact List.mem_map_of_mem hmem

theorem Routine.mem_uses_iff {routine : Routine} {name : String} :
    name ∈ routine.uses ↔ ∃ instruction ∈ routine.code, instruction.Uses name := by
  simp only [uses, List.mem_flatMap, Array.mem_toList_iff, Native.FrameLayout.mem_variablesOf_iff]

theorem Routine.mem_locals_iff {routine : Routine} {name : String} :
    name ∈ routine.locals ↔ name ∈ routine.uses ∧ name ∉ routine.params := by
  simp [locals]

namespace Native

namespace FrameLayout

/-! ## Slots of parameters -/

theorem lookup_paramSlots_of_not_mem {params : List String} {slots : List (String × Slot)}
    {name : String} (h : name ∉ params) :
    (paramSlots params slots).lookup name = slots.lookup name := by
  induction params generalizing slots with
  | nil => rfl
  | cons param params ih =>
    rw [paramSlots, ih (List.not_mem_of_not_mem_cons h), List.lookup_cons,
      beq_false_of_ne (List.ne_of_not_mem_cons h)]

/-- Parameters are numbered from the last one on. -/
theorem lookup_paramSlots {params : List String} {slots : List (String × Slot)} {name : String}
    {i : Nat} (hparams : params.Nodup) (h : params[i]? = some name) :
    (paramSlots params slots).lookup name = some (.param (params.length - i)) := by
  induction params generalizing slots i with
  | nil => cases h
  | cons param params ih =>
    obtain ⟨hfresh, hparams⟩ := List.nodup_cons.1 hparams
    rw [paramSlots]
    cases i with
    | zero =>
      obtain rfl := Option.some.inj h
      rw [lookup_paramSlots_of_not_mem hfresh, List.lookup_cons_self]
      rfl
    | succ i =>
      rw [ih hparams h, List.length_cons, Nat.add_sub_add_right]

theorem slot?_ofParams_ne_own (params : List String) (name : String) (k : Nat) :
    (ofParams params).slot? name ≠ some (.own k) := by
  intro hslot
  obtain ⟨hfits, -⟩ := mem_paramSlots params [] params.length (by simp) (by simp) (Nat.le_refl _)
  obtain ⟨j, hj, -⟩ := hfits (name, .own k) (mem_of_slot? hslot)
  cases hj

/-! ## Slots of local variables -/

theorem eraseDups_concat (names : List String) (name : String) :
    (names ++ [name]).eraseDups =
      if name ∈ names then names.eraseDups else names.eraseDups ++ [name] := by
  rw [List.eraseDups_append, List.removeAll, List.filter_singleton]
  by_cases hmem : name ∈ names
  · simp [hmem]
  · simp [hmem, List.eraseDups_cons]

theorem idxOf?_concat {names : List String} {last : String} (hlast : last ∉ names)
    (name : String) : (names ++ [last]).idxOf? name =
      if name = last then some names.length else names.idxOf? name := by
  have happend : (names ++ [last]).idxOf? name =
      (names.idxOf? name).or (([last].idxOf? name).map (· + names.length)) :=
    List.findIdx?_append
  rw [happend, List.idxOf?_cons, List.idxOf?_nil]
  by_cases hname : name = last
  · subst hname
    simp [List.idxOf?_eq_none_iff.2 hlast]
  · simp [hname, Ne.symm hname]

/-- A layout has the slots of the one it started from, and the variables in a list are numbered
next to them from one on. -/
structure Numbers (layout start : FrameLayout) (own : List String) : Prop where
  locals : layout.locals = own.length
  slot : ∀ name, layout.slot? name =
    (start.slot? name).or ((own.idxOf? name).map fun k => .own (k + 1))

theorem Numbers.slot?_eq_none_iff {layout start : FrameLayout} {own : List String}
    (h : layout.Numbers start own) {name : String} :
    layout.slot? name = none ↔ start.slot? name = none ∧ name ∉ own := by
  rw [h.slot, Option.or_eq_none_iff, Option.map_eq_none_iff, List.idxOf?_eq_none_iff]

/-- A variable without a slot gets the next number. -/
theorem Numbers.addLocal {layout start : FrameLayout} {own : List String}
    (h : layout.Numbers start own) (name : String) :
    (layout.addLocal name).Numbers start
      (if layout.slot? name = none then own ++ [name] else own) := by
  unfold FrameLayout.addLocal
  cases hslot : layout.slot? name with
  | some slot => exact h
  | none =>
    obtain ⟨hstart, hfresh⟩ := h.slot?_eq_none_iff.1 hslot
    refine ⟨?_, fun other => ?_⟩
    · simp [h.locals]
    · simp only [Option.isSome_none, Bool.false_eq_true, if_false, if_true]
      rw [idxOf?_concat hfresh, slot?, List.lookup_cons]
      by_cases hother : other = name
      · subst hother
        simp [hstart, h.locals]
      · rw [beq_false_of_ne hother, if_neg hother]
        exact h.slot other

/-- Variables without slots get numbers in the order of their first uses. -/
theorem numbers_foldl_addLocal {start : FrameLayout} (hstart : start.locals = 0)
    (names : List String) : (names.foldl addLocal start).Numbers start
      (names.filter fun name => start.slot? name = none).eraseDups := by
  -- From the right, so that the hypothesis speaks of the layout to which the last name comes.
  induction names using List.reverseRecOn with
  | nil => exact ⟨hstart, fun name => (Option.or_none).symm⟩
  | append_singleton names last ih =>
    have hown : (names.filter (fun name => start.slot? name = none) ++
        [last].filter fun name => start.slot? name = none).eraseDups =
          if (names.foldl addLocal start).slot? last = none then
            (names.filter fun name => start.slot? name = none).eraseDups ++ [last]
          else (names.filter fun name => start.slot? name = none).eraseDups := by
      simp only [ih.slot?_eq_none_iff, List.mem_eraseDups]
      by_cases hlast : start.slot? last = none
      · rw [List.filter_singleton, decide_eq_true hlast, cond_true, eraseDups_concat]
        simp only [hlast, true_and, ite_not]
      · rw [List.filter_singleton, decide_eq_false hlast, cond_false, List.append_nil,
          if_neg fun h => hlast h.1]
    rw [List.foldl_concat, List.filter_append, hown]
    exact ih.addLocal last

/-! ## Slots of routines -/

theorem slot?_ofParams_eq_none_iff {params : List String} {name : String} :
    (ofParams params).slot? name = none ↔ name ∉ params := by
  have hlookup (slots : List (String × Slot)) : (paramSlots params slots).lookup name = none ↔
      name ∉ params ∧ slots.lookup name = none := by
    induction params generalizing slots with
    | nil => simp [paramSlots]
    | cons param params ih =>
      rw [paramSlots, ih, List.lookup_cons, List.mem_cons]
      by_cases hname : name = param
      · simp [hname]
      · simp [hname, beq_false_of_ne hname]
  exact (hlookup []).trans (and_iff_left rfl)

/-- Parameters have their slots, and the other variables are numbered in the order of their first
uses. -/
theorem numbers_ofRoutine (routine : Routine) :
    (ofRoutine routine).Numbers (ofParams routine.params) routine.locals := by
  have hfold := numbers_foldl_addLocal (rfl : (ofParams routine.params).locals = 0) routine.uses
  simp only [slot?_ofParams_eq_none_iff] at hfold
  exact hfold

theorem isSome_slot?_ofRoutine {routine : Routine} {name : String} :
    ((ofRoutine routine).slot? name).isSome ↔
      name ∈ routine.params ∨ ∃ instruction ∈ routine.code, instruction.Uses name := by
  rw [← Routine.mem_uses_iff, ← Option.ne_none_iff_isSome, ne_eq,
    (numbers_ofRoutine routine).slot?_eq_none_iff, slot?_ofParams_eq_none_iff,
    Routine.mem_locals_iff]
  tauto

theorem slot?_param {routine : Routine} (hparams : routine.params.Nodup) {i : Nat} {name : String}
    (h : routine.params[i]? = some name) :
    (ofRoutine routine).slot? name = some (.param (routine.params.length - i)) := by
  have hparam : (ofParams routine.params).slot? name = _ := lookup_paramSlots hparams h
  rw [(numbers_ofRoutine routine).slot, hparam, Option.some_or]

theorem nodup_eraseDups (names : List String) : names.eraseDups.Nodup := by
  induction names using List.reverseRecOn with
  | nil => exact .nil
  | append_singleton names last ih =>
    rw [eraseDups_concat]
    split
    · exact ih
    · next hlast =>
      rw [← List.concat_eq_append, List.nodup_concat, List.mem_eraseDups]
      exact ⟨hlast, ih⟩

/-- The variables of a routine that are not parameters are numbered from one on, without gaps. -/
theorem slot?_own {routine : Routine} {k : Nat} {name : String} :
    (ofRoutine routine).slot? name = some (.own (k + 1)) ↔ routine.locals[k]? = some name := by
  rw [(numbers_ofRoutine routine).slot]
  constructor
  · intro h
    rcases Option.or_eq_some_iff.1 h with hparam | ⟨-, hown⟩
    · exact (slot?_ofParams_ne_own _ name _ hparam).elim
    · obtain ⟨j, hj, hsame⟩ := Option.map_eq_some_iff.1 hown
      obtain rfl : j = k := Nat.succ.inj (Slot.own.inj hsame)
      obtain ⟨hlt, hname, -⟩ := List.idxOf?_eq_some_iff.1 hj
      exact List.getElem?_eq_some_iff.2 ⟨hlt, hname⟩
  · intro h
    have hmem : name ∈ routine.locals := List.mem_of_getElem? h
    have hnone := slot?_ofParams_eq_none_iff.2 (Routine.mem_locals_iff.1 hmem).2
    obtain ⟨hlt, rfl⟩ := List.getElem?_eq_some_iff.1 h
    have hnodup : routine.locals.Nodup := nodup_eraseDups _
    have hindex : routine.locals.idxOf? routine.locals[k] = some k :=
      List.idxOf?_eq_some_iff.2 ⟨hlt, rfl, fun j hj hsame =>
        Nat.ne_of_lt hj ((hnodup.getElem_inj_iff).1 hsame)⟩
    rw [hnone, hindex]
    rfl

end FrameLayout
end Native
end Gobstones
