import Gobstones.Proofs.Machine.Bindings
import Gobstones.Proofs.Native.Emission
import Gobstones.Proofs.Native.Slots
/-!
# Variables in native frames

This module relates the variables of an activation to the words of its native frame.  A
frame consists of the local variables, the frame pointer of the caller, the place to
return to, and the arguments; each variable of a routine has a word of its own in it,
which is the sentinel while the variable has no value.

Main definitions:

- {lit}`FrameLayout.Holds`: the words of a frame hold the variables of an activation.
- {lit}`View.Framed`: the frame of a routine lies on the stack.

Main results:

- Theorem {lit}`FrameLayout.holds_arguments`: a new frame holds the arguments.
- Theorems {lit}`FrameLayout.Holds.set` and {lit}`FrameLayout.Holds.erase`: variables
  change with their words.
- Theorem {lit}`View.Framed.exists_slot`: the variables of a frame are found in memory.
-/

namespace Gobstones
namespace Native
namespace FrameLayout

/-! ## Variables and words -/

/-- A word holds a value, or it is the sentinel of a variable without a value. -/
def HoldsValue (value : Option Value) (w : Word) : Prop :=
  match value with
  | some value => value.InWord w
  | none => w = .int sentinel

/-- The words of a frame hold the variables of an activation. -/
def Holds (layout : FrameLayout) (locals : Locals) (frame : List Word) : Prop :=
  ∀ name slot, layout.slot? name = some slot →
    ∃ w, frame[slot.index layout.locals]? = some w ∧ HoldsValue (locals.get? name) w

variable {layout : FrameLayout} {locals : Locals} {frame : List Word} {name : String}
    {slot : Slot}

/-- A variable changes with its word. -/
theorem Holds.update (h : layout.Holds locals frame) (hlayout : layout.Separates)
    (hslot : layout.slot? name = some slot) {w : Word} {after : Locals} (value : Option Value)
    (hw : HoldsValue value w)
    (hafter : ∀ other, after.get? other = if other = name then value else locals.get? other) :
    layout.Holds after (frame.set (slot.index layout.locals) w) := by
  intro other slot' hslot'
  obtain ⟨old, hold, hvalue⟩ := h other slot' hslot'
  rw [hafter]
  by_cases hother : other = name
  · subst hother
    obtain rfl := Option.some.inj (hslot.symm.trans hslot')
    obtain ⟨hlt, -⟩ := List.getElem?_eq_some_iff.1 hold
    rw [if_pos rfl, List.getElem?_set_self hlt]
    exact ⟨w, rfl, hw⟩
  · rw [if_neg hother, List.getElem?_set_ne (hlayout.index_ne hslot hslot' (Ne.symm hother))]
    exact ⟨old, hold, hvalue⟩

theorem Holds.set (h : layout.Holds locals frame) (hlayout : layout.Separates)
    (hslot : layout.slot? name = some slot) {value : Value} {w : Word} (hw : value.InWord w) :
    layout.Holds (locals.set name value) (frame.set (slot.index layout.locals) w) :=
  h.update hlayout hslot (some value) hw fun other => locals.get?_set name other value

theorem Holds.erase (h : layout.Holds locals frame) (hlayout : layout.Separates)
    (hslot : layout.slot? name = some slot) :
    layout.Holds (locals.erase name) (frame.set (slot.index layout.locals) (.int sentinel)) :=
  h.update hlayout hslot none rfl fun other => locals.get?_erase name other

/-- Parameters have the values of the arguments that are named after them, the latest first. -/
theorem mem_zip_of_foldl (frame : List Word) (slots : List (String × Slot)) (locals : Locals)
    {params : List String} {args : List Value} {words : List Word}
    (hlength : params.length = args.length)
    (hwords : InWords args words)
    (hold : ∀ name k, slots.lookup name = some (.param k) → ∃ w,
      (words.reverse ++ frame)[k - 1]? = some w ∧ HoldsValue (locals.get? name) w)
    (hslots : ∀ name, slots.lookup name = none → locals.get? name = none) :
    (∀ name k, (paramSlots params slots).lookup name = some (.param k) → ∃ w,
      (words.reverse ++ frame)[k - 1]? = some w ∧
        HoldsValue (((params.zip args).foldl (fun locals binding =>
          locals.set binding.1 binding.2) locals).get? name) w) ∧
      ∀ name, (paramSlots params slots).lookup name = none →
        ((params.zip args).foldl (fun locals binding =>
          locals.set binding.1 binding.2) locals).get? name = none := by
  induction params generalizing args slots locals words frame with
  | nil =>
    obtain rfl := List.eq_nil_of_length_eq_zero hlength.symm
    exact ⟨hold, hslots⟩
  | cons param params ih =>
    cases args with
    | nil => simp at hlength
    | cons value args =>
      rcases hwords with _ | ⟨hw, hwords⟩
      next w words =>
      have hparams := Nat.succ.inj hlength
      have hcount : words.length = params.length := hwords.length_eq ▸ hparams.symm
      rw [paramSlots, List.zip_cons_cons, List.foldl_cons, List.reverse_cons, List.append_assoc]
      apply ih _ _ _ hparams hwords
      · intro name k hk
        rw [List.lookup_cons] at hk
        rw [Locals.get?_set]
        split at hk
        · next heq =>
          obtain rfl : name = param := by simpa using heq
          obtain rfl := Slot.param.inj (Option.some.inj hk)
          rw [if_pos rfl]
          refine ⟨w, ?_, hw⟩
          simp [← hcount]
        · next hne =>
          have hne : name ≠ param := by simpa using hne
          rw [if_neg hne]
          obtain ⟨old, hold, hvalue⟩ := hold name k hk
          refine ⟨old, ?_, hvalue⟩
          simpa using hold
      · intro name hname
        rw [List.lookup_cons] at hname
        rw [Locals.get?_set]
        split at hname
        · cases hname
        · next hne =>
          have hne : name ≠ param := by simpa using hne
          rw [if_neg hne]
          exact hslots name hname

/-- In a new frame parameters have the words behind those that belong to the call. -/
theorem getElem?_frame_param {locals k : Nat} (hk : 0 < k) (rbp ret : Word) (words : List Word) :
    (List.replicate locals (.int sentinel) ++ rbp :: ret :: words)[
      (Slot.param k).index locals]? = words[k - 1]? := by
  have hindex : (Slot.param k).index locals = locals + (k - 1 + 2) := by
    rw [Slot.index]
    omega
  rw [hindex, List.getElem?_append_right (by simp), List.length_replicate,
    Nat.add_sub_cancel_left, List.getElem?_cons_succ, List.getElem?_cons_succ]

/-- In a new frame the other variables have no value. -/
theorem getElem?_frame_own {locals k : Nat} (hk : 0 < k ∧ k ≤ locals) (rest : List Word) :
    (List.replicate locals (.int sentinel) ++ rest)[(Slot.own k).index locals]? =
      some (.int sentinel) := by
  have hlt : locals - k < locals := by omega
  rw [Slot.index, List.getElem?_append_left (by simpa using hlt), List.getElem?_replicate,
    if_pos hlt]

/-- A new frame holds the arguments, and the other variables have no value. -/
theorem holds_arguments {routine : Routine} {args : List Value} {words : List Word}
    (hlength : routine.params.length = args.length) (hwords : InWords args words) (rbp ret : Word) :
    (ofRoutine routine).Holds (Locals.ofArguments routine.params args)
      (List.replicate (ofRoutine routine).locals (.int sentinel) ++
        rbp :: ret :: words.reverse) := by
  intro name slot hslot
  obtain ⟨hparam, hnone⟩ := mem_zip_of_foldl [] [] .empty hlength hwords
    (by simp) fun _ _ => rfl
  have hfits := (separates_ofRoutine routine).fitsIn hslot
  rw [(numbers_ofRoutine routine).slot] at hslot
  rcases Option.or_eq_some_iff.1 hslot with hstart | ⟨hstart, hown⟩
  · cases slot with
    | own k => exact (slot?_ofParams_ne_own _ name k hstart).elim
    | param k =>
      obtain ⟨w, hw, hvalue⟩ := hparam name k hstart
      rw [List.append_nil] at hw
      exact ⟨w, (getElem?_frame_param hfits.1 rbp ret words.reverse).trans hw, hvalue⟩
  · obtain ⟨k, -, rfl⟩ := Option.map_eq_some_iff.1 hown
    refine ⟨.int sentinel, getElem?_frame_own hfits _, ?_⟩
    have hvalue : (Locals.ofArguments routine.params args).get? name = none := hnone name hstart
    rw [hvalue]
    rfl

end FrameLayout

/-! ## Reading and writing -/

/-- The frame of a routine on the stack, with its pointer. -/
structure View.Framed (v : View) (layout : FrameLayout) (above frame below : List Word) : Prop where
  live : v.live = above ++ frame ++ below
  rbp : v.regs.rbp = .stack (-(8 * (below.length + layout.params + 2 : Nat)))
  length : frame.length = layout.locals + 2 + layout.params

variable {code : NativeCode} {v : View} {n : Nat} {layout : FrameLayout}
variable {above frame below : List Word} {name : String} {mem : Memory} {Q : View → Nat → Prop}

/-- The address of a variable. -/
theorem address?_slot (hv : v.Framed layout above frame below) {slot : Slot}
    (hfits : slot.FitsIn layout.params layout.locals) (hmem : slot.memory = .ok mem) :
    v.cpu.address? mem =
      some (stackAddress (below.length + (frame.length - 1 - slot.index layout.locals))) := by
  have hrbp : v.cpu.reg .rbp = .stack (-(8 * (below.length + layout.params + 2 : Nat))) := hv.rbp
  obtain ⟨hbase, hbytes⟩ := toInt_slot hfits hmem
  have hlength := hv.length
  have hindex := (Slot.index_ne hfits).2.2
  rw [Processor.address?, hbase, hrbp, Word.add, hbytes, stackAddress]
  congr 2
  omega

/-- The words of a frame are accessed at the addresses of their variables. -/
theorem View.Framed.exists_slot (hv : v.Framed layout above frame below)
    (hlayout : layout.Separates) (hmem : layout.memory name = .ok mem) :
    ∃ slot address, layout.slot? name = some slot ∧ v.cpu.address? mem = some address ∧
      (∀ w, frame[slot.index layout.locals]? = some w → v.read? address = some w) ∧
      ∀ w, v.write? address w =
        some { v with live := above ++ frame.set (slot.index layout.locals) w ++ below } := by
  obtain ⟨slot, hslot, hmemory⟩ := slot_of_memory hmem
  have hfits := hlayout.fitsIn hslot
  have hlt : slot.index layout.locals < frame.length := by
    rw [hv.length]
    exact (Slot.index_ne hfits).2.2
  have hsplit (w : Word) : frame.set (slot.index layout.locals) w =
      frame.take (slot.index layout.locals) ++ w :: frame.drop (slot.index layout.locals + 1) := by
    rw [List.set_eq_take_append_cons_drop, if_pos hlt]
  have hlength : (frame.drop (slot.index layout.locals + 1) ++ below).length =
      below.length + (frame.length - 1 - slot.index layout.locals) := by
    rw [List.length_append, List.length_drop]
    omega
  have hlive : v.live = above ++ frame.take (slot.index layout.locals) ++
      frame[slot.index layout.locals] :: (frame.drop (slot.index layout.locals + 1) ++ below) := by
    have hframe := hsplit frame[slot.index layout.locals]
    rw [List.set_getElem_self] at hframe
    rw [hv.live, ← List.cons_append, List.append_assoc, List.append_assoc,
      ← List.append_assoc (List.take _ _), ← hframe]
  refine ⟨slot, _, hslot, address?_slot hv hfits hmemory, fun w hw => ?_, fun w => ?_⟩
  · obtain ⟨-, rfl⟩ := List.getElem?_eq_some_iff.1 hw
    rw [← hlength]
    exact View.read?_live hlive
  · rw [← hlength, View.write?_live hlive, hsplit]
    simp

/-- The frame stays where it is when other words or registers change. -/
theorem View.Framed.of_live (hv : v.Framed layout above frame below) {v' : View}
    {above' frame' : List Word} (hlive : v'.live = above' ++ frame' ++ below)
    (hrbp : v'.regs.rbp = v.regs.rbp) (hlength : frame'.length = frame.length) :
    v'.Framed layout above' frame' below :=
  ⟨hlive, hrbp.trans hv.rbp, hlength.trans hv.length⟩

end Native
end Gobstones
