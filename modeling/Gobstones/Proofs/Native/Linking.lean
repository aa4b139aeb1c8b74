import Mathlib.Data.List.Induction
import Mathlib.Data.List.Nodup
import Gobstones.Native.Link
import Gobstones.Proofs.Board.Operations
import Gobstones.Proofs.Bytes
/-!
# Linking

This module shows what linking makes of any instructions.  The first pass stops at the first label
that is given a second place, and otherwise gives each label the number of bytes in front of its
place as its offset.  The second pass stops at the first branch to a label without a place, and
otherwise encodes each instruction where the ones in front of it end, with the distance from there
to its label.

Main definitions:

- {lit}`boundLabels` and {lit}`codeSize`: the labels with places and the number of bytes.
- {lit}`FirstRebound` and {lit}`FirstUndefined`: the labels that linking reports.
- {lit}`Places` and {lit}`Encodes`: what the first and the second pass make of instructions.
- {lit}`Links`: what linking makes of instructions.

Main results:

- Theorem {lit}`exists_labelOffsets`: the first pass, of labels with one place each.
- Theorem {lit}`exists_encodeFrom`: the second pass, of branches to labels with offsets.
- Theorem {lit}`link_cases`: the label that linking reports, or the code that it makes.
-/

namespace Gobstones
namespace Native

variable {labels offset : Nat} {label : Label} {instr : Instr}
variable {instrs before after rest : List Instr}
variable {offsets middle final : Offsets}

/-! ## Labels of instructions -/

/-- The label that an instruction gives a place. -/
def Instr.bound? : Instr → Option Label
  | bind label => some label
  | _ => none

@[simp]
theorem Instr.bound?_eq_some_iff : instr.bound? = some label ↔ instr = .bind label := by
  cases instr <;> simp [bound?]

/-- The labels that instructions give places, in order. -/
def boundLabels (instrs : List Instr) : List Label :=
  instrs.filterMap Instr.bound?

@[simp]
theorem boundLabels_append (first second : List Instr) :
    boundLabels (first ++ second) = boundLabels first ++ boundLabels second :=
  List.filterMap_append

theorem boundLabels_cons_bind (label : Label) (rest : List Instr) :
    boundLabels (.bind label :: rest) = label :: boundLabels rest :=
  rfl

theorem boundLabels_cons_of_none (h : instr.bound? = none) (rest : List Instr) :
    boundLabels (instr :: rest) = boundLabels rest :=
  List.filterMap_cons_none h

@[simp]
theorem mem_boundLabels : label ∈ boundLabels instrs ↔ Instr.bind label ∈ instrs := by
  simp [boundLabels]

/-- The labels to which instructions give places or branch are among the first so many. -/
def Over (labels : Nat) (instrs : List Instr) : Prop :=
  ∀ instr ∈ instrs, ∀ label, instr.bound? = some label ∨ instr.target? = some label →
    label < labels

/-- The label is the first one to be given a second place. -/
def FirstRebound (instrs : List Instr) (label : Label) : Prop :=
  ∃ before after, instrs = before ++ .bind label :: after ∧ label ∈ boundLabels before ∧
    (boundLabels before).Nodup

/-- The label is the first one to which an instruction branches and that has no place. -/
def FirstUndefined (instrs : List Instr) (label : Label) : Prop :=
  ∃ before instr after, instrs = before ++ instr :: after ∧ instr.target? = some label ∧
    label ∉ boundLabels instrs ∧
    ∀ earlier ∈ before, ∀ other, earlier.target? = some other → other ∈ boundLabels instrs

/-- Some label is the first to be given a second place if there is one. -/
theorem exists_firstRebound_iff :
    (∃ label, FirstRebound instrs label) ↔ ¬(boundLabels instrs).Nodup := by
  constructor
  · rintro ⟨label, before, after, rfl, hmem, -⟩ hnodup
    rw [boundLabels_append, boundLabels_cons_bind] at hnodup
    exact (List.nodup_append.1 hnodup).2.2 label hmem label List.mem_cons_self rfl
  · intro h
    induction instrs using List.reverseRecOn with
    | nil => exact (h List.nodup_nil).elim
    | append_singleton before instr ih =>
      by_cases hbefore : (boundLabels before).Nodup
      · cases hbound : instr.bound? with
        | none =>
          rw [boundLabels_append, boundLabels_cons_of_none hbound] at h
          exact (h (by simpa [boundLabels] using hbefore)).elim
        | some label =>
          obtain rfl := Instr.bound?_eq_some_iff.1 hbound
          refine ⟨label, before, [], rfl, ?_, hbefore⟩
          by_contra hfresh
          apply h
          rw [boundLabels_append, boundLabels_cons_bind, List.nodup_append]
          refine ⟨hbefore, List.nodup_singleton label, ?_⟩
          rintro _ hmem _ hlabel rfl
          rw [List.mem_singleton.1 hlabel] at hmem
          exact hfresh hmem
      · obtain ⟨label, early, late, rfl, hmem, hnodup⟩ := ih hbefore
        exact ⟨label, early, late ++ [instr], by simp, hmem, hnodup⟩

/-- Some label is the first that is branched to and has no place if there is one. -/
theorem exists_firstUndefined_iff :
    (∃ label, FirstUndefined instrs label) ↔
      ∃ instr ∈ instrs, ∃ label, instr.target? = some label ∧ label ∉ boundLabels instrs := by
  constructor
  · rintro ⟨label, before, instr, after, hsplit, htarget, hlabel, -⟩
    refine ⟨instr, ?_, label, htarget, hlabel⟩
    rw [hsplit]
    exact List.mem_append_right before List.mem_cons_self
  · rintro ⟨instr, hmem, label, htarget, hlabel⟩
    cases hfound : instrs.find? fun instr => instr.target?.any (· ∉ boundLabels instrs) with
    | none =>
      have hbound := List.find?_eq_none.1 hfound instr hmem
      rw [htarget] at hbound
      simp only [Option.any_some, decide_eq_true_eq] at hbound
      exact (hbound hlabel).elim
    | some first =>
      obtain ⟨hfirst, before, after, hsplit, hbefore⟩ := List.find?_eq_some_iff_append.1 hfound
      obtain ⟨found, hfound, hfresh⟩ := (Option.any_eq_true ..).1 hfirst
      refine ⟨found, before, first, after, hsplit, hfound, of_decide_eq_true hfresh, ?_⟩
      intro earlier hearlier other hother
      have hdefined := hbefore earlier hearlier
      rw [hother] at hdefined
      simpa using hdefined

/-! ## Offsets -/

/-- The number of bytes of instructions. -/
def codeSize (instrs : List Instr) : Nat :=
  (instrs.map Instr.size).sum

@[simp]
theorem codeSize_nil : codeSize [] = 0 :=
  rfl

@[simp]
theorem codeSize_cons (instr : Instr) (rest : List Instr) :
    codeSize (instr :: rest) = instr.size + codeSize rest :=
  rfl

@[simp]
theorem codeSize_append (first second : List Instr) :
    codeSize (first ++ second) = codeSize first + codeSize second := by
  simp [codeSize]

@[simp]
theorem Instr.size_bind (label : Label) : (bind label).size = 0 :=
  rfl

/-! ## The first pass -/

theorem labelOffsets_cons_of_none (h : instr.bound? = none) :
    labelOffsets offsets offset (instr :: rest) =
      labelOffsets offsets (offset + instr.size) rest := by
  cases instr with
  | bind label => simp [Instr.bound?] at h
  | _ => rfl

/-- What instructions that start at an offset make of the offsets of labels: those that they
give places have the offsets there, the others have those from before. -/
structure Places (offsets : Offsets) (offset : Nat) (instrs : List Instr) (final : Offsets) :
    Prop where
  size : final.size = offsets.size
  kept : ∀ label, label ∉ boundLabels instrs → final[label]? = offsets[label]?
  bound : ∀ before label after, instrs = before ++ .bind label :: after →
    final[label]? = some (some (offset + codeSize before))

/-- An instruction in front that gives no label a place moves the other ones on. -/
theorem Places.cons_of_none (hbound : instr.bound? = none)
    (h : Places offsets (offset + instr.size) rest final) :
    Places offsets offset (instr :: rest) final := by
  constructor
  · exact h.size
  · rw [boundLabels_cons_of_none hbound]
    exact h.kept
  · intro before label after hsplit
    cases before with
    | nil =>
      obtain ⟨rfl, -⟩ := List.cons.inj hsplit
      cases hbound
    | cons _ before =>
      obtain ⟨rfl, hrest⟩ := List.cons.inj hsplit
      rw [h.bound before label after hrest, codeSize_cons, Nat.add_assoc]

/-- A label in front has its place there, unless the other instructions give it another one. -/
theorem Places.cons_bind (hlt : label < offsets.size) (hfresh : label ∉ boundLabels rest)
    (h : Places (offsets.setIfInBounds label (some offset)) offset rest final) :
    Places offsets offset (.bind label :: rest) final := by
  constructor
  · rw [h.size, Array.size_setIfInBounds]
  · intro other hother
    rw [boundLabels_cons_bind, List.mem_cons, not_or] at hother
    rw [h.kept other hother.2, Array.getElem?_setIfInBounds_ne (Ne.symm hother.1)]
  · intro before other after hsplit
    cases before with
    | nil =>
      obtain ⟨heq, -⟩ := List.cons.inj hsplit
      obtain rfl := Instr.bind.inj heq
      rw [h.kept label hfresh]
      simp [hlt]
    | cons _ before =>
      obtain ⟨rfl, hrest⟩ := List.cons.inj hsplit
      rw [h.bound before other after hrest, codeSize_cons, Instr.size_bind, Nat.zero_add]

/-- The first pass succeeds if no label is given two places. -/
theorem exists_labelOffsets (hnodup : (boundLabels instrs).Nodup)
    (hfresh : ∀ label ∈ boundLabels instrs, offsets[label]? = some none) :
    ∃ final, labelOffsets offsets offset instrs = .ok final ∧
      Places offsets offset instrs final := by
  induction instrs generalizing offsets offset with
  | nil => exact ⟨offsets, rfl, rfl, fun _ _ => rfl, by simp⟩
  | cons first rest ih =>
    cases hbound : first.bound? with
    | none =>
      rw [boundLabels_cons_of_none hbound] at hnodup hfresh
      obtain ⟨final, hfinal, hplaces⟩ := ih hnodup hfresh
      refine ⟨final, ?_, hplaces.cons_of_none hbound⟩
      rw [labelOffsets_cons_of_none hbound, hfinal]
    | some label =>
      obtain rfl := Instr.bound?_eq_some_iff.1 hbound
      rw [boundLabels_cons_bind, List.nodup_cons] at hnodup
      have hunknown : offsets[label]? = some none := hfresh label List.mem_cons_self
      have hlt : label < offsets.size := (Array.getElem?_eq_some_iff.1 hunknown).1
      have hrest (other : Label) (hmem : other ∈ boundLabels rest) :
          (offsets.setIfInBounds label (some offset))[other]? = some none := by
        have hne : label ≠ other := by
          rintro rfl
          exact hnodup.1 hmem
        rw [Array.getElem?_setIfInBounds_ne hne]
        exact hfresh other (List.mem_cons_of_mem label hmem)
      obtain ⟨final, hfinal, hplaces⟩ := ih hnodup.2 hrest
      refine ⟨final, ?_, hplaces.cons_bind hlt hnodup.1⟩
      rw [labelOffsets, if_neg (by simp [Offsets.get?, hunknown]), hfinal]

/-- The first pass goes on behind instructions that it has passed. -/
theorem labelOffsets_append (h : labelOffsets offsets offset before = .ok middle)
    (after : List Instr) :
    labelOffsets offsets offset (before ++ after) =
      labelOffsets middle (offset + codeSize before) after := by
  induction before generalizing offsets offset with
  | nil =>
    obtain rfl := Except.ok.inj h
    rfl
  | cons first rest ih =>
    rw [codeSize_cons, ← Nat.add_assoc]
    cases hbound : first.bound? with
    | none =>
      rw [labelOffsets_cons_of_none hbound] at h
      rw [List.cons_append, labelOffsets_cons_of_none hbound]
      exact ih h
    | some label =>
      obtain rfl := Instr.bound?_eq_some_iff.1 hbound
      rw [labelOffsets] at h
      rw [List.cons_append, labelOffsets]
      split at h
      · cases h
      · next hfresh =>
        rw [if_neg hfresh]
        exact ih h

/-! ## The start of the first pass -/

/-- To start with, no label has an offset. -/
theorem Offsets.get?_replicate (labels : Nat) (label : Label) :
    Offsets.get? (Array.replicate labels none) label = none := by
  rw [Offsets.get?, Array.getElem?_replicate]
  split <;> rfl

/-- From its start, where no label has an offset, the first pass over labels in range succeeds if
none of them is given two places. -/
theorem exists_labelOffsets_of_over (hover : Over labels instrs)
    (hnodup : (boundLabels instrs).Nodup) :
    ∃ offsets, labelOffsets (Array.replicate labels none) 0 instrs = .ok offsets ∧
      Places (Array.replicate labels none) 0 instrs offsets := by
  apply exists_labelOffsets hnodup
  intro label hmem
  have hlt := hover _ (mem_boundLabels.1 hmem) label (.inl rfl)
  simp [hlt]

theorem Places.isSome (h : Places offsets offset instrs final) (hmem : label ∈ boundLabels instrs) :
    (final.get? label).isSome := by
  obtain ⟨before, after, hsplit⟩ := List.mem_iff_append.1 (mem_boundLabels.1 hmem)
  simp [Offsets.get?, h.bound before label after hsplit]

theorem Over.append_left (h : Over labels (before ++ after)) : Over labels before := by
  intro instr hmem
  exact h instr (List.mem_append_left after hmem)

/-- The first label to be given a second place is reported. -/
theorem labelOffsets_of_firstRebound (hover : Over labels instrs)
    (h : FirstRebound instrs label) :
    labelOffsets (Array.replicate labels none) 0 instrs = .error (.labelRebound label) := by
  obtain ⟨before, after, rfl, hmem, hnodup⟩ := h
  obtain ⟨middle, hmiddle, hplaces⟩ := exists_labelOffsets_of_over hover.append_left hnodup
  rw [labelOffsets_append hmiddle, labelOffsets, if_pos (hplaces.isSome hmem)]

/-! ## The second pass -/

/-- The distance to the destination of an instruction at an offset, zero if there is none. -/
def branchDistance (offsets : Offsets) (offset : Nat) (instr : Instr) : Int32 :=
  (instr.target?.bind offsets.get?).elim 0 (distance (offset + instr.size))

/-- All branches lead to labels with offsets. -/
def Targets (offsets : Offsets) (instrs : List Instr) : Prop :=
  ∀ instr ∈ instrs, ∀ label, instr.target? = some label → (offsets.get? label).isSome

variable {code bytes : Array UInt8}

theorem encodeFrom_cons (h : ∀ label, instr.target? = some label → (offsets.get? label).isSome) :
    encodeFrom offsets code (instr :: rest) =
      encodeFrom offsets (code ++ instr.encode (branchDistance offsets code.size instr)) rest := by
  rw [encodeFrom, branchDistance]
  cases htarget : instr.target? with
  | none => rfl
  | some label =>
    obtain ⟨target, hfound⟩ := Option.isSome_iff_exists.1 (h label htarget)
    simp only [hfound, Option.bind_some, Option.elim_some]

/-- The second pass goes on behind instructions that it has encoded. -/
theorem encodeFrom_append (h : encodeFrom offsets code before = .ok bytes) (after : List Instr) :
    encodeFrom offsets code (before ++ after) = encodeFrom offsets bytes after := by
  induction before generalizing code with
  | nil =>
    obtain rfl := Except.ok.inj h
    rfl
  | cons first rest ih =>
    rw [encodeFrom] at h
    rw [List.cons_append, encodeFrom]
    split at h
    · exact ih h
    · split at h
      · cases h
      · exact ih h

/-- What encoding instructions behind code makes of it: the encoding of every instruction, with
its distance, lies where the instructions in front of it end. -/
structure Encodes (offsets : Offsets) (code : Array UInt8) (instrs : List Instr)
    (bytes : Array UInt8) : Prop where
  size : bytes.size = code.size + codeSize instrs
  kept : code.toList <+: bytes.toList
  placed : ∀ before instr after, instrs = before ++ instr :: after →
    instr.encode (branchDistance offsets (code.size + codeSize before) instr) <+:
      bytes.toList.drop (code.size + codeSize before)

/-- An instruction in front is encoded right behind the code. -/
theorem Encodes.cons
    (h : Encodes offsets (code ++ instr.encode (branchDistance offsets code.size instr)) rest
      bytes) : Encodes offsets code (instr :: rest) bytes := by
  let encoding := instr.encode (branchDistance offsets code.size instr)
  have hcode : (code ++ encoding).toList = code.toList ++ encoding := Array.toList_appendList
  have hnext : (code ++ encoding).size = code.size + instr.size := by
    rw [← Array.length_toList, hcode, List.length_append, Array.length_toList,
      Instr.length_encode]
  have hkept : code.toList ++ encoding <+: bytes.toList := hcode ▸ h.kept
  constructor
  · rw [h.size, hnext, codeSize_cons, Nat.add_assoc]
  · exact (List.prefix_append code.toList encoding).trans hkept
  · intro before other after hsplit
    cases before with
    | nil =>
      obtain ⟨rfl, -⟩ := List.cons.inj hsplit
      obtain ⟨later, hlater⟩ := hkept
      rw [codeSize_nil, Nat.add_zero, ← hlater, List.append_assoc, ← Array.length_toList,
        List.drop_left]
      exact List.prefix_append encoding later
    | cons _ before =>
      obtain ⟨rfl, hrest⟩ := List.cons.inj hsplit
      rw [codeSize_cons, ← Nat.add_assoc, ← hnext]
      exact h.placed before other after hrest

/-- The second pass succeeds if all branches lead to labels with offsets. -/
theorem exists_encodeFrom (h : Targets offsets instrs) (code : Array UInt8) :
    ∃ bytes, encodeFrom offsets code instrs = .ok bytes ∧ Encodes offsets code instrs bytes := by
  induction instrs generalizing code with
  | nil => exact ⟨code, rfl, rfl, List.prefix_refl _, by simp⟩
  | cons first rest ih =>
    obtain ⟨hfirst, hrest⟩ := List.forall_mem_cons.1 h
    rw [encodeFrom_cons hfirst]
    obtain ⟨bytes, hbytes, hencodes⟩ := ih hrest _
    exact ⟨bytes, hbytes, hencodes.cons⟩

/-- The first branch to a label without an offset is reported. -/
theorem encodeFrom_of_undefined (hbefore : Targets offsets before)
    (htarget : instr.target? = some label) (hlabel : offsets.get? label = none)
    (after : List Instr) :
    encodeFrom offsets code (before ++ instr :: after) = .error (.undefinedLabel label) := by
  obtain ⟨bytes, hbytes, -⟩ := exists_encodeFrom hbefore code
  rw [encodeFrom_append hbytes, encodeFrom, htarget]
  simp only [hlabel]

/-! ## Branches -/

/-- The signed number of 32 bits with some bytes as its digits, the least significant one first. -/
def signedWord (bytes : List UInt8) : Int :=
  (BitVec.ofNat 32 (littleEndian bytes)).toInt

theorem signedWord_int32Bytes (n : Int32) : signedWord (int32Bytes n) = n.toInt := by
  have hword := wordOfBytes_wordBytes n.toUInt32
  rw [wordOfBytes_eq_littleEndian] at hword
  have hbits := congrArg UInt32.toBitVec hword
  change BitVec.ofNat 32 (littleEndian (int32Bytes n)) = n.toBitVec at hbits
  rw [signedWord, hbits]
  rfl

/-- Distances within less than two gibibytes fit their field. -/
theorem toInt_distance {source target : Nat} (hsource : source < 2 ^ 31)
    (htarget : target < 2 ^ 31) : (distance source target).toInt = target - source := by
  apply Int32.toInt_ofInt_of_le
  · omega
  · omega

/-- The encoding of a branch ends with its distance. -/
theorem exists_opcode (h : instr.target? = some label) :
    ∃ opcode, ∀ distance, instr.encode distance = opcode ++ int32Bytes distance := by
  cases instr with
  | jmp target => exact ⟨[0xE9], fun _ => rfl⟩
  | jcc cond target => exact ⟨[0x0F, 0x80 + cond.number], fun _ => rfl⟩
  | call target => exact ⟨[0xE8], fun _ => rfl⟩
  | _ => cases h

/-! ## Linked code -/

/-- Linking succeeds when both passes do. -/
theorem link_eq_ok_iff {linked : LinkedCode} :
    link labels instrs = .ok linked ↔
      labelOffsets (Array.replicate labels none) 0 instrs = .ok linked.offsets ∧
        encodeFrom linked.offsets #[] instrs = .ok linked.bytes := by
  constructor
  · intro h
    obtain ⟨offsets, hoffsets, h⟩ := exists_of_bind_eq_ok h
    obtain ⟨bytes, hbytes, h⟩ := exists_of_bind_eq_ok h
    obtain rfl := Except.ok.inj h
    exact ⟨hoffsets, hbytes⟩
  · rintro ⟨hoffsets, hbytes⟩
    rw [link, hoffsets]
    change (encodeFrom linked.offsets #[] instrs >>= fun bytes => _) = _
    rw [hbytes]
    rfl

/-- What linking makes of instructions over some labels.  Every label that has a place has the
number of bytes in front of it as its offset, and the others have none.  Where the instructions in
front of an instruction end lie the bytes of its own encoding, except that a branch holds its
distance in the last four: added to the offset after the branch it makes the offset of the label,
unless there are more bytes than such a field can count. -/
structure Links (labels : Nat) (instrs : List Instr) (linked : LinkedCode) : Prop where
  size : linked.bytes.size = codeSize instrs
  count : linked.offsets.size = labels
  unbound : ∀ label < labels, Instr.bind label ∉ instrs → linked.offsets[label]? = some none
  bound : ∀ before label after, instrs = before ++ .bind label :: after →
    linked.offsets[label]? = some (some (codeSize before))
  straight : ∀ before instr after, instrs = before ++ instr :: after → instr.target? = none →
    instr.encode 0 <+: linked.bytes.toList.drop (codeSize before)
  branch : ∀ before instr after label, instrs = before ++ instr :: after →
    instr.target? = some label → ∃ (opcode field : List UInt8) (target : Nat),
      instr.encode 0 = opcode ++ [0, 0, 0, 0] ∧ field.length = 4 ∧
      opcode ++ field <+: linked.bytes.toList.drop (codeSize before) ∧
      linked.offsets[label]? = some (some target) ∧
      (linked.bytes.size < 2 ^ 31 →
        signedWord field + (codeSize before + instr.size : Nat) = target)

/-- The distance in a branch leads from its end to the offset of its label. -/
theorem signedWord_branchDistance {target : Nat} (htarget : instr.target? = some label)
    (hlabel : offsets.get? label = some target) (hsource : offset + instr.size < 2 ^ 31)
    (hlt : target < 2 ^ 31) :
    signedWord (int32Bytes (branchDistance offsets offset instr)) + (offset + instr.size : Nat) =
      target := by
  rw [branchDistance, htarget, Option.bind_some, hlabel, Option.elim_some, signedWord_int32Bytes,
    toInt_distance hsource hlt]
  omega

/-- Linking succeeds if no label is given two places and every label that is branched to is
given one. -/
theorem exists_link (hover : Over labels instrs) (hnodup : (boundLabels instrs).Nodup)
    (hbound : ∀ instr ∈ instrs, ∀ label, instr.target? = some label → label ∈ boundLabels instrs) :
    ∃ linked, link labels instrs = .ok linked ∧ Links labels instrs linked := by
  obtain ⟨offsets, hoffsets, hplaces⟩ := exists_labelOffsets_of_over hover hnodup
  have htargets : Targets offsets instrs := by
    intro instr hmem label htarget
    exact hplaces.isSome (hbound instr hmem label htarget)
  obtain ⟨bytes, hbytes, hsize, -, hencoded⟩ := exists_encodeFrom htargets #[]
  simp only [Array.size_empty, Nat.zero_add] at hsize hencoded
  have hplace : ∀ before label after, instrs = before ++ .bind label :: after →
      offsets[label]? = some (some (codeSize before)) := by
    intro before label after hsplit
    rw [hplaces.bound before label after hsplit, Nat.zero_add]
  refine ⟨⟨bytes, offsets⟩, link_eq_ok_iff.2 ⟨hoffsets, hbytes⟩, hsize, ?_, ?_, hplace, ?_, ?_⟩
  · rw [hplaces.size, Array.size_replicate]
  · intro label hlt hmem
    rw [hplaces.kept label (mt mem_boundLabels.1 hmem)]
    simp [hlt]
  · intro before instr after hsplit htarget
    have henc := hencoded before instr after hsplit
    rw [branchDistance, htarget] at henc
    exact henc
  · intro before instr after label hsplit htarget
    obtain ⟨opcode, hopcode⟩ := exists_opcode htarget
    have henc := hencoded before instr after hsplit
    rw [hopcode] at henc
    have hmem : instr ∈ instrs := by
      rw [hsplit]
      exact List.mem_append_right before List.mem_cons_self
    obtain ⟨early, late, hlabel⟩ :=
      List.mem_iff_append.1 (mem_boundLabels.1 (hbound instr hmem label htarget))
    have hfound := hplace early label late hlabel
    refine ⟨opcode, _, codeSize early, hopcode 0, rfl, henc, hfound, ?_⟩
    intro hshort
    rw [hsize] at hshort
    apply signedWord_branchDistance htarget (by simp [Offsets.get?, hfound])
    · rw [hsplit, codeSize_append, codeSize_cons] at hshort
      omega
    · rw [hlabel, codeSize_append] at hshort
      omega

/-- Linking reports the first label that is given a second place.  Without one it reports the
first label that is branched to and has no place.  Without one of these it succeeds, and all
offsets and distances come out right. -/
theorem link_cases (hover : Over labels instrs) :
    (∀ label, FirstRebound instrs label →
      link labels instrs = .error (.labelRebound label)) ∧
    ((∀ label, ¬FirstRebound instrs label) →
      (∀ label, FirstUndefined instrs label →
        link labels instrs = .error (.undefinedLabel label)) ∧
      ((∀ label, ¬FirstUndefined instrs label) →
        ∃ linked, link labels instrs = .ok linked ∧ Links labels instrs linked)) := by
  constructor
  · intro label h
    rw [link, labelOffsets_of_firstRebound hover h]
    rfl
  · intro hrebound
    have hnodup : (boundLabels instrs).Nodup := by
      by_contra h
      obtain ⟨label, hlabel⟩ := exists_firstRebound_iff.2 h
      exact hrebound label hlabel
    constructor
    · rintro label ⟨before, instr, after, hsplit, htarget, hlabel, hbefore⟩
      obtain ⟨offsets, hoffsets, hplaces⟩ := exists_labelOffsets_of_over hover hnodup
      have htargets : Targets offsets before := by
        intro earlier hmem other hother
        exact hplaces.isSome (hbefore earlier hmem other hother)
      have hunknown : offsets.get? label = none := by
        rw [Offsets.get?, hplaces.kept label hlabel]
        exact Offsets.get?_replicate labels label
      rw [link, hoffsets]
      change (encodeFrom offsets #[] instrs >>= fun bytes => _) = _
      rw [hsplit, encodeFrom_of_undefined htargets htarget hunknown]
      rfl
    · intro hundefined
      apply exists_link hover hnodup
      intro instr hmem label htarget
      by_contra hlabel
      obtain ⟨first, hfirst⟩ := exists_firstUndefined_iff.2 ⟨instr, hmem, label, htarget, hlabel⟩
      exact hundefined first hfirst

/-- A loop, a branch to the end of the code, a call of what follows, and a label without a place. -/
def hops : List Instr :=
  [.bind 0, .jmp 0, .jcc .e 2, .call 1, .bind 1, .ret, .bind 2]

/-- The three outcomes: of two labels with two places the one is reported that comes to its second
place first, of two labels without places the one that is branched to first, and branches backward,
forward and to the end are linked. -/
theorem link_cases_hops :
    link 2 [.bind 0, .bind 1, .bind 1, .bind 0, .jmp 0] = .error (.labelRebound 1) ∧
    link 3 [.jmp 0, .call 2, .call 1, .bind 0] = .error (.undefinedLabel 2) ∧
    ∃ linked, link 4 hops = .ok linked ∧ Links 4 hops linked ∧
      linked.offsets = #[some 0, some 16, some 17, none] ∧
      linked.bytes = #[0xE9, 0xFB, 0xFF, 0xFF, 0xFF, 0x0F, 0x84, 0x06, 0, 0, 0, 0xE8, 0, 0, 0, 0,
        0xC3] := by
  refine ⟨?_, ?_, ?_⟩
  · have hover : Over 2 [.bind 0, .bind 1, .bind 1, .bind 0, .jmp 0] := by
      simp [Over, Instr.bound?, Instr.target?]
    exact (link_cases hover).1 1 ⟨[.bind 0, .bind 1], [.bind 0, .jmp 0], rfl, by decide, by decide⟩
  · have hover : Over 3 [.jmp 0, .call 2, .call 1, .bind 0] := by
      simp [Over, Instr.bound?, Instr.target?]
    have hrebound : ∀ label, ¬FirstRebound [.jmp 0, .call 2, .call 1, .bind 0] label := by
      rw [← not_exists, exists_firstRebound_iff]
      decide
    exact ((link_cases hover).2 hrebound).1 2
      ⟨[.jmp 0], .call 2, [.call 1, .bind 0], rfl, rfl, by decide, by decide⟩
  · have hover : Over 4 hops := by
      simp [Over, hops, Instr.bound?, Instr.target?]
    have hrebound : ∀ label, ¬FirstRebound hops label := by
      rw [← not_exists, exists_firstRebound_iff]
      decide
    have hundefined : ∀ label, ¬FirstUndefined hops label := by
      rw [← not_exists, exists_firstUndefined_iff]
      simp [hops, boundLabels, Instr.bound?, Instr.target?]
    obtain ⟨linked, hlinked, hlinks⟩ := ((link_cases hover).2 hrebound).2 hundefined
    have hlink : link 4 hops = .ok ⟨#[0xE9, 0xFB, 0xFF, 0xFF, 0xFF, 0x0F, 0x84, 0x06, 0, 0, 0, 0xE8,
        0, 0, 0, 0, 0xC3], #[some 0, some 16, some 17, none]⟩ := by
      decide +kernel
    rw [hlink] at hlinked
    obtain rfl := Except.ok.inj hlinked
    exact ⟨_, hlink, hlinks, rfl, rfl⟩

end Native
end Gobstones
