import Gobstones.Proofs.Native.Assembly
import Gobstones.Proofs.Native.Linking
import Gobstones.Proofs.Program.Labels
/-!
# Labels of emitted code

This module follows the labels that an emitter hands out.  A label is pending until the place to
which it belongs is emitted, and a label of a stub is bound at the end, when the stubs are placed.
An emitter is tidy if all these labels differ and its branches lead to nothing else; what is
emitted for a builtin binds the labels that it has taken, so it leaves the emitter tidy with the
same labels pending.

Main definitions:

- {lit}`branchLabels` and {lit}`Plain`: the labels to which instructions branch, and
  instructions without labels.
- {lit}`Emitter.Tidy`: all labels are bound, pending or those of stubs, and differ.
- {lit}`Emitter.Settles`: an emitter becomes a tidy one that knows the labels from before.
- {lit}`handOut`: labels for a list of keys.

Main results:

- Theorems {lit}`Emitter.Tidy.settles_fresh`, {lit}`Emitter.Tidy.settles_fault` and
  {lit}`Emitter.Tidy.settles_emitAll`: what an emitter does keeps it tidy.
- Theorem {lit}`Emitter.Tidy.settles_builtin`: so does the code of every builtin.
- Theorem {lit}`Emitter.Tidy.exists_link`: the code of a tidy emitter without pending labels is
  linked once its stubs are placed.
-/

namespace Gobstones
namespace Native

variable {instrs first second : List Instr} {label : Label}

/-! ## Labels of instructions -/

/-- The labels to which instructions branch, in order. -/
def branchLabels (instrs : List Instr) : List Label :=
  instrs.filterMap Instr.target?

@[simp]
theorem branchLabels_append (first second : List Instr) :
    branchLabels (first ++ second) = branchLabels first ++ branchLabels second :=
  List.filterMap_append

theorem mem_branchLabels :
    label ∈ branchLabels instrs ↔ ∃ instr ∈ instrs, instr.target? = some label := by
  simp [branchLabels]

/-- Instructions that neither give labels places nor branch. -/
structure Plain (instrs : List Instr) : Prop where
  bound : boundLabels instrs = []
  branch : branchLabels instrs = []

namespace Plain

theorem nil : Plain [] :=
  ⟨rfl, rfl⟩

theorem append (h : Plain first) (h' : Plain second) : Plain (first ++ second) where
  bound := by rw [boundLabels_append, h.bound, h'.bound, List.append_nil]
  branch := by rw [branchLabels_append, h.branch, h'.branch, List.append_nil]

theorem flatten {parts : List (List Instr)} (h : ∀ part ∈ parts, Plain part) :
    Plain parts.flatten := by
  induction parts with
  | nil => exact nil
  | cons part parts ih =>
    rw [List.forall_mem_cons] at h
    exact h.1.append (ih h.2)

theorem replicate {instr : Instr} (h : Plain [instr]) (n : Nat) :
    Plain (List.replicate n instr) := by
  induction n with
  | zero => exact nil
  | succ n ih => exact h.append ih

end Plain

/-- The code of a builtin without labels is plain. -/
theorem plain_of_plainCode? {name : String} (h : plainCode? name = some instrs) :
    Plain instrs := by
  unfold plainCode? at h
  split at h <;> cases h <;> exact ⟨rfl, rfl⟩

/-- The labels of a switch in the order in which they are handed out. -/
def SwitchLabels.toList (labels : SwitchLabels) : List Label :=
  [labels.case0, labels.case1, labels.case2, labels.case3, labels.done]

section

variable (labels : SwitchLabels) (enough fault0 fault1 fault2 fault3 : Label)

theorem branchLabels_takeStoneCode :
    branchLabels (takeStoneCode enough labels fault0 fault1 fault2 fault3) ⊆
      labels.toList ++ [enough] ++ [fault0, fault1, fault2, fault3] := by
  rcases labels with ⟨a, b, c, d, done⟩
  change [enough, a, b, c, d, fault0, done, fault1, done, fault2, done, fault3, done] ⊆
    [a, b, c, d, done, enough, fault0, fault1, fault2, fault3]
  simp

theorem branchLabels_moveCode :
    branchLabels (moveCode labels fault0 fault1 fault2 fault3) ⊆
      labels.toList ++ [fault0, fault1, fault2, fault3] := by
  rcases labels with ⟨a, b, c, d, done⟩
  change [a, b, c, d, fault0, done, fault1, done, fault2, done, fault3, done] ⊆
    [a, b, c, d, done, fault0, fault1, fault2, fault3]
  simp

theorem branchLabels_goToBoundaryCode :
    branchLabels (goToBoundaryCode labels) ⊆ labels.toList ++ [] := by
  rcases labels with ⟨a, b, c, d, done⟩
  change [a, b, c, d, done, done, done, done] ⊆ [a, b, c, d, done]
  simp

theorem branchLabels_canMoveCode :
    branchLabels (canMoveCode labels) ⊆ labels.toList ++ [] := by
  rcases labels with ⟨a, b, c, d, done⟩
  change [a, b, c, d, done, done, done, done] ⊆ [a, b, c, d, done]
  simp

end

/-! ## Tidy emitters -/

namespace Emitter

variable {em em' em'' : Emitter} {pending pending' pending'' : List Label}
variable {message : String}

/-- The labels that are bound, pending or those of stubs. -/
def known (em : Emitter) (pending : List Label) : List Label :=
  boundLabels em.instrs.toList ++ (pending ++ em.stubs.map Prod.snd)

/-- The labels that an emitter has bound, those that are pending and those of its stubs differ and
have been handed out, and its branches lead to these labels.  There is one stub to a message, and
none has been placed. -/
structure Tidy (em : Emitter) (pending : List Label) : Prop where
  nodup : (em.known pending).Nodup
  lt : ∀ label ∈ em.known pending, label < em.labels
  branches : branchLabels em.instrs.toList ⊆ em.known pending
  messages : (em.stubs.map Prod.fst).Nodup
  placed : em.placed = 0

/-- An emitter becomes a tidy one with other labels pending, which knows all labels from
before. -/
structure Settles (em : Emitter) (pending : List Label) (em' : Emitter) (pending' : List Label) :
    Prop where
  tidy : em'.Tidy pending'
  known : em.known pending ⊆ em'.known pending'

theorem Tidy.refl (h : em.Tidy pending) : em.Settles pending em pending :=
  ⟨h, fun _ hmem => hmem⟩

theorem Settles.trans (h : em.Settles pending em' pending')
    (h' : em'.Settles pending' em'' pending'') : em.Settles pending em'' pending'' :=
  ⟨h'.tidy, fun _ hmem => h'.known (h.known hmem)⟩

theorem mem_known_of_mem (h : label ∈ pending) : label ∈ em.known pending :=
  List.mem_append_right _ (List.mem_append_left _ h)

theorem mem_known_of_stub (h : (message, label) ∈ em.stubs) : label ∈ em.known pending :=
  List.mem_append_right _ (List.mem_append_right _ (List.mem_map_of_mem h))

/-- The order of the pending labels does not matter. -/
theorem Tidy.settles_perm (h : em.Tidy pending) (hperm : pending.Perm pending') :
    em.Settles pending em pending' := by
  have hknown : (em.known pending).Perm (em.known pending') := (hperm.append_right _).append_left _
  refine ⟨⟨hknown.nodup_iff.1 h.nodup, fun label hmem => h.lt label (hknown.mem_iff.2 hmem), ?_,
    h.messages, h.placed⟩, hknown.subset⟩
  exact fun _ hmem => hknown.subset (h.branches hmem)

/-- An emitter that has handed out one more label and has emitted nothing. -/
theorem Tidy.settles_of_perm_cons (h : em.Tidy pending)
    (hknown : (em'.known pending').Perm (em.labels :: em.known pending))
    (hlabels : em'.labels = em.labels + 1) (hinstrs : em'.instrs = em.instrs)
    (hmessages : (em'.stubs.map Prod.fst).Nodup) (hplaced : em'.placed = em.placed) :
    em.Settles pending em' pending' := by
  have hsubset : em.known pending ⊆ em'.known pending' := fun _ hmem =>
    hknown.mem_iff.2 (List.mem_cons_of_mem _ hmem)
  have hfresh : em.labels ∉ em.known pending := fun hmem => Nat.lt_irrefl _ (h.lt _ hmem)
  refine ⟨⟨hknown.nodup_iff.2 (List.nodup_cons.2 ⟨hfresh, h.nodup⟩), fun label hmem => ?_, ?_,
    hmessages, hplaced.trans h.placed⟩, hsubset⟩
  · rw [hlabels]
    rcases List.mem_cons.1 (hknown.mem_iff.1 hmem) with rfl | hmem
    · exact Nat.lt_succ_self em.labels
    · exact Nat.lt_succ_of_lt (h.lt label hmem)
  · rw [hinstrs]
    exact fun _ hmem => hsubset (h.branches hmem)

/-- A label that is handed out is pending. -/
theorem Tidy.settles_fresh (h : em.Tidy pending) :
    em.Settles pending em.fresh.2 (em.fresh.1 :: pending) :=
  h.settles_of_perm_cons List.perm_middle rfl rfl h.messages rfl

/-- A request of a stub leaves the pending labels. -/
theorem Tidy.settles_fault (h : em.Tidy pending) (message : String) :
    em.Settles pending (em.fault message).2 pending := by
  unfold fault
  split
  · exact h.refl
  · next hfresh =>
    refine h.settles_of_perm_cons ?_ rfl rfl ?_ rfl
    · simp only [Emitter.known, List.map_append, List.map_cons, List.map_nil, ← List.append_assoc]
      exact List.perm_append_singleton em.labels _
    · rw [List.map_append, List.map_cons, List.map_nil]
      refine List.nodup_append.2 ⟨h.messages, List.nodup_singleton message, ?_⟩
      rintro _ hmem _ hmessage rfl
      obtain ⟨stub, hstub, rfl⟩ := List.mem_map.1 hmem
      have hne := List.lookup_eq_none_iff.1 hfresh stub hstub
      rw [List.mem_singleton.1 hmessage] at hne
      simp at hne

/-- The label of a requested stub is known. -/
theorem mem_known_fault (em : Emitter) (message : String) (pending : List Label) :
    (em.fault message).1 ∈ (em.fault message).2.known pending :=
  mem_known_of_stub (em.mem_fault message)

/-- Code that binds pending labels leaves the other ones pending, if it branches to its own labels
and to known ones. -/
theorem Tidy.settles_emitAll (h : em.Tidy pending) (others : List Label)
    (hperm : pending.Perm (boundLabels instrs ++ pending'))
    (hbranches : branchLabels instrs ⊆ boundLabels instrs ++ others)
    (hothers : others ⊆ em.known pending) :
    em.Settles pending (em.emitAll instrs) pending' := by
  have hinstrs : (em.emitAll instrs).instrs.toList = em.instrs.toList ++ instrs := by simp
  have hknown : (em.known pending).Perm ((em.emitAll instrs).known pending') := by
    rw [Emitter.known, Emitter.known, hinstrs, boundLabels_append, List.append_assoc,
      ← List.append_assoc (boundLabels instrs)]
    exact (hperm.append_right _).append_left _
  refine ⟨⟨hknown.nodup_iff.1 h.nodup, fun label hmem => h.lt label (hknown.mem_iff.2 hmem), ?_,
    h.messages, h.placed⟩, hknown.subset⟩
  rw [hinstrs, branchLabels_append]
  refine List.append_subset.2 ⟨fun _ hmem => hknown.subset (h.branches hmem), fun label hmem => ?_⟩
  apply hknown.subset
  rcases List.mem_append.1 (hbranches hmem) with hbound | hother
  · exact mem_known_of_mem (hperm.mem_iff.2 (List.mem_append_left _ hbound))
  · exact hothers hother

/-- Plain code leaves all labels as they are. -/
theorem Tidy.settles_plain (h : em.Tidy pending) (hplain : Plain instrs) :
    em.Settles pending (em.emitAll instrs) pending := by
  apply h.settles_emitAll []
  · rw [hplain.bound]
    exact .refl pending
  · rw [hplain.branch]
    exact List.nil_subset _
  · exact List.nil_subset _

/-- An instruction that binds a pending label or none, and branches to a known label or to none. -/
theorem Tidy.settles_emit {instr : Instr} (h : em.Tidy pending)
    (hperm : pending.Perm (boundLabels [instr] ++ pending'))
    (hbranches : branchLabels [instr] ⊆ em.known pending) :
    em.Settles pending (em.emit instr) pending' := by
  have hemit : em.emit instr = em.emitAll [instr] := by
    have hpush : em.instrs.push instr = em.instrs ++ [instr] := by simp
    rw [emit, emitAll, hpush]
  rw [hemit]
  exact h.settles_emitAll (branchLabels [instr]) hperm (List.subset_append_right _ _) hbranches

/-! ## Builtins -/

theorem Tidy.settles_freshSwitch (h : em.Tidy pending) :
    em.Settles pending em.freshSwitch.2 (em.freshSwitch.1.toList.reverse ++ pending) := by
  have h0 := h.settles_fresh
  have h1 := h0.trans h0.tidy.settles_fresh
  have h2 := h1.trans h1.tidy.settles_fresh
  have h3 := h2.trans h2.tidy.settles_fresh
  exact h3.trans h3.tidy.settles_fresh

/-- The stubs of four messages are requested one after the other. -/
theorem Tidy.settles_faults {em0 em1 em2 em3 em4 : Emitter} {a b c d : String}
    {fault0 fault1 fault2 fault3 : Label} (h : em0.Tidy pending) (h0 : em0.fault a = (fault0, em1))
    (h1 : em1.fault b = (fault1, em2)) (h2 : em2.fault c = (fault2, em3))
    (h3 : em3.fault d = (fault3, em4)) :
    em0.Settles pending em4 pending ∧ [fault0, fault1, fault2, fault3] ⊆ em4.known pending := by
  have hfault {em em' : Emitter} {message : String} {label : Label} (h : em.Tidy pending)
      (hrequest : em.fault message = (label, em')) :
      em.Settles pending em' pending ∧ label ∈ em'.known pending := by
    have hsettles := h.settles_fault message
    have hmem := em.mem_known_fault message pending
    rw [hrequest] at hsettles hmem
    exact ⟨hsettles, hmem⟩
  obtain ⟨hem1, hmem0⟩ := hfault h h0
  obtain ⟨hem2, hmem1⟩ := hfault hem1.tidy h1
  obtain ⟨hem3, hmem2⟩ := hfault hem2.tidy h2
  obtain ⟨hem4, hmem3⟩ := hfault hem3.tidy h3
  refine ⟨hem1.trans (hem2.trans (hem3.trans hem4)), ?_⟩
  simp only [List.cons_subset, List.nil_subset, and_true]
  exact ⟨hem4.known (hem3.known (hem2.known hmem0)), hem4.known (hem3.known hmem1),
    hem4.known hmem2, hmem3⟩

theorem Tidy.settles_takeStone (h : em.Tidy pending) :
    em.Settles pending em.takeStone pending := by
  have henough := h.settles_fresh
  have hswitch := henough.trans henough.tidy.settles_freshSwitch
  rcases h0 : em.fresh.2.freshSwitch.2.cannotTake .blue with ⟨fault0, em1⟩
  rcases h1 : em1.cannotTake .black with ⟨fault1, em2⟩
  rcases h2 : em2.cannotTake .red with ⟨fault2, em3⟩
  rcases h3 : em3.cannotTake .green with ⟨fault3, em4⟩
  obtain ⟨hfaults, hknown⟩ := hswitch.tidy.settles_faults h0 h1 h2 h3
  rw [takeStone_eq_emitAll h0 h1 h2 h3]
  -- the labels of the switch are bound in front of the one that was taken first
  refine hswitch.trans (hfaults.trans (hfaults.tidy.settles_emitAll _ ?_
    (branchLabels_takeStoneCode _ _ _ _ _ _) hknown))
  exact (List.reverse_perm em.fresh.2.freshSwitch.1.toList).append_right (em.labels :: pending)

theorem Tidy.settles_move (h : em.Tidy pending) : em.Settles pending em.move pending := by
  have hswitch := h.settles_freshSwitch
  rcases h0 : em.freshSwitch.2.cannotMove .north with ⟨fault0, em1⟩
  rcases h1 : em1.cannotMove .east with ⟨fault1, em2⟩
  rcases h2 : em2.cannotMove .south with ⟨fault2, em3⟩
  rcases h3 : em3.cannotMove .west with ⟨fault3, em4⟩
  obtain ⟨hfaults, hknown⟩ := hswitch.tidy.settles_faults h0 h1 h2 h3
  rw [move_eq_emitAll h0 h1 h2 h3]
  exact hswitch.trans (hfaults.trans (hfaults.tidy.settles_emitAll _
    ((List.reverse_perm em.freshSwitch.1.toList).append_right pending)
    (branchLabels_moveCode _ _ _ _ _) hknown))

/-- A switch that does not fail. -/
theorem Tidy.settles_switch (h : em.Tidy pending) (code : SwitchLabels → List Instr)
    (hbound : ∀ labels, boundLabels (code labels) = labels.toList)
    (hbranches : ∀ labels, branchLabels (code labels) ⊆ labels.toList ++ []) :
    em.Settles pending (em.freshSwitch.2.emitAll (code em.freshSwitch.1)) pending := by
  have hswitch := h.settles_freshSwitch
  refine hswitch.trans (hswitch.tidy.settles_emitAll [] ?_ ?_ (List.nil_subset _))
  · rw [hbound]
    exact (List.reverse_perm em.freshSwitch.1.toList).append_right pending
  · rw [hbound]
    exact hbranches em.freshSwitch.1

/-- Code with two labels, bound in the order in which they were taken, that does not fail. -/
theorem Tidy.settles_loop (h : em.Tidy pending) (code : Label → Label → List Instr)
    (hbound : ∀ top done, boundLabels (code top done) = [top, done])
    (hbranches : ∀ top done, branchLabels (code top done) ⊆ [top, done]) :
    em.Settles pending (em.fresh.2.fresh.2.emitAll (code em.labels (em.labels + 1))) pending := by
  have htop := h.settles_fresh
  have hdone := htop.trans htop.tidy.settles_fresh
  refine hdone.trans (hdone.tidy.settles_emitAll [] ?_ ?_ (List.nil_subset _))
  · rw [hbound]
    exact (List.reverse_perm [em.labels, em.labels + 1]).append_right pending
  · rw [hbound, List.append_nil]
    exact hbranches _ _

/-- Code with the stub of a message and three labels, bound in the order in which they were
taken. -/
theorem Tidy.settles_request (h : em.Tidy pending) {label : Label} {requested : Emitter}
    (hrequest : em.fault message = (label, requested))
    (code : Label → Label → Label → List Instr)
    (hbound : ∀ first second third, boundLabels (code first second third) = [first, second, third])
    (hbranches : ∀ first second third,
      branchLabels (code first second third) ⊆ [first, second, third] ++ [label]) :
    em.Settles pending (requested.fresh.2.fresh.2.fresh.2.emitAll
      (code requested.labels (requested.labels + 1) (requested.labels + 2))) pending := by
  have hsettles := h.settles_fault message
  have hmem := em.mem_known_fault message pending
  rw [hrequest] at hsettles hmem
  have hfirst := hsettles.tidy.settles_fresh
  have hsecond := hfirst.trans hfirst.tidy.settles_fresh
  have hthird := hsecond.trans hsecond.tidy.settles_fresh
  refine hsettles.trans (hthird.trans (hthird.tidy.settles_emitAll [label] ?_ ?_ ?_))
  · rw [hbound]
    exact (List.reverse_perm [requested.labels, requested.labels + 1,
      requested.labels + 2]).append_right pending
  · rw [hbound]
    exact hbranches _ _ _
  · simpa using hthird.known hmem

theorem Tidy.settles_power (h : em.Tidy pending) : em.Settles pending em.power pending := by
  rcases hrequest : em.fault ArithmeticError.negativeExponent.message with ⟨negative, requested⟩
  rw [power_eq_emitAll hrequest]
  refine h.settles_request hrequest (powerCode negative) (fun _ _ _ => rfl) fun top skip done => ?_
  change [negative, done, skip, top] ⊆ [top, skip, done, negative]
  simp

theorem Tidy.settles_division (h : em.Tidy pending) (result : DivisionResult) :
    em.Settles pending (em.division result) pending := by
  rcases hrequest : em.fault ArithmeticError.divisionByZero.message with ⟨byZero, requested⟩
  rw [division_eq_emitAll result hrequest]
  refine h.settles_request hrequest (divisionCode result byZero)
    (fun _ _ _ => by cases result <;> rfl) fun normal exact done => ?_
  have hbranches : branchLabels (divisionCode result byZero normal exact done) =
      [byZero, normal, done, exact, exact] := by
    cases result <;> rfl
  rw [hbranches]
  simp

/-- The code of a builtin leaves the pending labels. -/
theorem Tidy.settles_builtin {name : String} (h : em.Tidy pending)
    (hbuiltin : em.builtin? name = some em') : em.Settles pending em' pending := by
  unfold builtin? at hbuiltin
  split at hbuiltin
  · obtain rfl := Option.some.inj hbuiltin
    exact h.settles_takeStone
  · obtain rfl := Option.some.inj hbuiltin
    exact h.settles_move
  · obtain rfl := Option.some.inj hbuiltin
    exact h.settles_switch goToBoundaryCode (fun _ => rfl) branchLabels_goToBoundaryCode
  · obtain rfl := Option.some.inj hbuiltin
    exact h.settles_switch canMoveCode (fun _ => rfl) branchLabels_canMoveCode
  · obtain rfl := Option.some.inj hbuiltin
    exact h.settles_loop clearBoardCode (fun _ _ => rfl) fun top done => by
      change [done, top] ⊆ [top, done]
      simp
  · obtain rfl := Option.some.inj hbuiltin
    exact h.settles_power
  · obtain rfl := Option.some.inj hbuiltin
    exact h.settles_division .quotient
  · obtain rfl := Option.some.inj hbuiltin
    exact h.settles_division .remainder
  · obtain ⟨instrs, hplain, rfl⟩ := Option.map_eq_some_iff.1 hbuiltin
    exact h.settles_plain (plain_of_plainCode? hplain)

/-! ## Stubs -/

theorem plain_storeWords (index : Nat) (words : List Int64) : Plain (storeWords index words) := by
  induction words generalizing index with
  | nil => exact .nil
  | cons word rest ih =>
    have hfirst : Plain [.movImm .rax word, .store (memAt .r15 (8 * index)) .rax] := ⟨rfl, rfl⟩
    exact hfirst.append (ih (index + 1))

/-- A stub binds its label and does not branch. -/
theorem labels_faultStub (message : String) (label : Label) :
    boundLabels (faultStub message label) = [label] ∧
      branchLabels (faultStub message label) = [] := by
  have hexit : Plain (.movImm .rax sentinel :: .mov .rsp .rsi :: restoreHostRegisters) := ⟨rfl, rfl⟩
  have hret : Plain [.ret] := ⟨rfl, rfl⟩
  have hrest := ((plain_storeWords 0 (messageWords message)).append hexit).append hret
  have hcode : faultStub message label = [.bind label] ++ (storeWords 0 (messageWords message) ++
      .movImm .rax sentinel :: .mov .rsp .rsi :: restoreHostRegisters ++ [.ret]) := by
    simp [faultStub]
  rw [hcode, boundLabels_append, branchLabels_append, hrest.bound, hrest.branch]
  exact ⟨rfl, rfl⟩

theorem labels_faultStubs (stubs : List (String × Label)) :
    boundLabels (stubs.flatMap fun stub => faultStub stub.1 stub.2) = stubs.map Prod.snd ∧
      branchLabels (stubs.flatMap fun stub => faultStub stub.1 stub.2) = [] := by
  induction stubs with
  | nil => exact ⟨rfl, rfl⟩
  | cons stub stubs ih =>
    obtain ⟨hbound, hbranch⟩ := labels_faultStub stub.1 stub.2
    rw [List.flatMap_cons, boundLabels_append, branchLabels_append, hbound, hbranch, ih.1, ih.2]
    exact ⟨rfl, rfl⟩

theorem Tidy.instrs_placeStubs (h : em.Tidy pending) :
    em.placeStubs.instrs.toList =
      em.instrs.toList ++ em.stubs.flatMap fun stub => faultStub stub.1 stub.2 := by
  simp [placeStubs, h.placed]

/-- The code of a tidy emitter without pending labels is linked once its stubs are placed. -/
theorem Tidy.exists_link (h : em.Tidy []) : ∃ linked, em.placeStubs.link = .ok linked := by
  obtain ⟨hbound, hbranch⟩ := labels_faultStubs em.stubs
  have hlabels : boundLabels em.placeStubs.instrs.toList = em.known [] := by
    rw [h.instrs_placeStubs, boundLabels_append, hbound]
    rfl
  have hbranches : branchLabels em.placeStubs.instrs.toList ⊆ em.known [] := by
    rw [h.instrs_placeStubs, branchLabels_append, hbranch, List.append_nil]
    exact h.branches
  have hover : Over em.labels em.placeStubs.instrs.toList := by
    intro instr hmem label hlabel
    apply h.lt label
    rcases hlabel with hbinds | htarget
    · rw [← hlabels]
      exact List.mem_filterMap.2 ⟨instr, hmem, hbinds⟩
    · exact hbranches (mem_branchLabels.2 ⟨instr, hmem, htarget⟩)
  obtain ⟨linked, hlink, -⟩ := Native.exists_link hover (hlabels ▸ h.nodup)
    fun instr hmem label htarget =>
      hlabels ▸ hbranches (mem_branchLabels.2 ⟨instr, hmem, htarget⟩)
  exact ⟨linked, hlink⟩

end Emitter

/-! ## Labels for keys -/

section

variable {κ : Type} {em : Emitter} {found : List (κ × Label)} {pending : List Label}

/-- Hand out a label for each of some keys, the latest one in front. -/
def handOut (em : Emitter) (found : List (κ × Label)) : List κ → List (κ × Label) × Emitter
  | [] => (found, em)
  | key :: rest => handOut em.fresh.2 ((key, em.fresh.1) :: found) rest

theorem handOut_append (keys more : List κ) :
    handOut em found (keys ++ more) =
      handOut (handOut em found keys).2 (handOut em found keys).1 more := by
  induction keys generalizing em found with
  | nil => rfl
  | cons key rest ih => exact ih

/-- Labels that have been handed out are pending. -/
theorem Emitter.Tidy.exists_handOut (h : em.Tidy pending) (found : List (κ × Label))
    (keys : List κ) :
    ∃ new, (handOut em found keys).1 = new ++ found ∧ new.map Prod.fst = keys.reverse ∧
      em.Settles pending (handOut em found keys).2 (new.map Prod.snd ++ pending) := by
  induction keys generalizing em found pending with
  | nil => exact ⟨[], rfl, rfl, h.refl⟩
  | cons key rest ih =>
    have hfresh := h.settles_fresh
    obtain ⟨new, hnew, hkeys, hsettles⟩ := ih hfresh.tidy ((key, em.fresh.1) :: found)
    refine ⟨new ++ [(key, em.fresh.1)], ?_, ?_, ?_⟩
    · rw [handOut, hnew, List.append_assoc]
      rfl
    · rw [List.map_append, hkeys, List.reverse_cons]
      rfl
    · rw [List.map_append, List.append_assoc]
      exact hfresh.trans hsettles

variable [BEq κ]

/-- The labels that stand for keys, in the order of the keys. -/
def labelsOf (labels : List (κ × Label)) (keys : List κ) : List Label :=
  keys.filterMap fun key => labels.lookup key

theorem labelsOf_append (labels : List (κ × Label)) (keys more : List κ) :
    labelsOf labels (keys ++ more) = labelsOf labels keys ++ labelsOf labels more :=
  List.filterMap_append

theorem labelsOf_flatMap {α : Type} (labels : List (κ × Label)) (items : List α)
    (keys : α → List κ) :
    labelsOf labels (items.flatMap keys) = items.flatMap fun item => labelsOf labels (keys item) :=
  List.filterMap_flatMap

variable [LawfulBEq κ]

theorem mem_of_lookup {labels : List (κ × Label)} {key : κ} {label : Label}
    (h : labels.lookup key = some label) : label ∈ labels.map Prod.snd := by
  obtain ⟨front, rest, rfl, -⟩ := List.lookup_eq_some_iff.1 h
  simp

/-- All labels stand for keys if no key has two. -/
theorem labelsOf_keys {labels : List (κ × Label)} (h : (labels.map Prod.fst).Nodup) :
    labelsOf labels (labels.map Prod.fst) = labels.map Prod.snd := by
  induction labels with
  | nil => rfl
  | cons first rest ih =>
    obtain ⟨hfirst, hrest⟩ := List.nodup_cons.1 h
    have hothers : labelsOf (first :: rest) (rest.map Prod.fst) =
        labelsOf rest (rest.map Prod.fst) := by
      refine List.filterMap_congr fun key hkey => ?_
      have hne : key ≠ first.1 := by
        rintro rfl
        exact hfirst hkey
      rw [List.lookup_cons, beq_false_of_ne hne]
    have hself : List.lookup first.1 (first :: rest) = some first.2 := by
      rw [List.lookup_cons, beq_self_eq_true]
    rw [List.map_cons, List.map_cons, labelsOf, List.filterMap_cons]
    simp only [hself]
    exact congrArg (first.2 :: ·) (hothers.trans (ih hrest))

/-- The labels handed out for different keys are pending, in the order of the keys. -/
theorem Emitter.Tidy.settles_handOut (h : em.Tidy pending) {keys : List κ} (hkeys : keys.Nodup)
    {labels : List (κ × Label)} {labeled : Emitter}
    (hlabels : handOut em [] keys = (labels, labeled)) :
    em.Settles pending labeled (labelsOf labels keys ++ pending) ∧
      labels.map Prod.snd ⊆ labeled.known (labelsOf labels keys ++ pending) ∧
      ∀ key ∈ keys, ∃ label, labels.lookup key = some label := by
  obtain ⟨new, hnew, hfirst, hsettles⟩ := h.exists_handOut [] keys
  rw [hlabels] at hnew hsettles
  obtain rfl : labels = new := by simpa using hnew
  have hperm : (labels.map Prod.snd).Perm (labelsOf labels keys) := by
    rw [← List.reverse_reverse keys, ← hfirst, labelsOf, List.filterMap_reverse]
    have hnodup : (labels.map Prod.fst).Nodup := by
      rw [hfirst]
      exact List.nodup_reverse.2 hkeys
    have hall := labelsOf_keys hnodup
    rw [labelsOf] at hall
    rw [hall]
    exact (List.reverse_perm _).symm
  refine ⟨hsettles.trans (hsettles.tidy.settles_perm (hperm.append_right pending)),
    fun label hmem => Emitter.mem_known_of_mem (List.mem_append_left _ (hperm.subset hmem)),
    fun key hkey => ?_⟩
  rw [← List.mem_reverse, ← hfirst] at hkey
  cases hlookup : labels.lookup key with
  | some label => exact ⟨label, rfl⟩
  | none =>
    obtain ⟨entry, hentry, rfl⟩ := List.mem_map.1 hkey
    have hne := List.lookup_eq_none_iff.1 hlookup entry hentry
    simp at hne

end

/-- The labels of a routine are handed out for the labels that its instructions define. -/
theorem codeLabels_eq (em : Emitter) (labels : List (String × Label)) (code : List Instruction) :
    codeLabels em labels code = handOut em labels (Labels.defined code) := by
  fun_induction codeLabels em labels code with
  | case1 em labels => rfl
  | case2 em labels name rest label next hfresh ih =>
    obtain ⟨rfl, rfl⟩ := Prod.mk.inj hfresh.symm
    exact ih
  | case3 em labels instruction rest hlabel ih =>
    have hnone : instruction.definedLabel? = none := by
      cases instruction with
      | label name => exact (hlabel name rfl).elim
      | _ => rfl
    rw [ih, Labels.defined, Labels.defined, List.filterMap_cons_none hnone]

/-- The key of a routine among the labels of routines. -/
def routineKey (home : Program) (routine : Routine) : String × String :=
  (home.moduleName, routine.name)

theorem moduleLabels_eq (em : Emitter) (found : RoutineLabels) (modules : List Program) :
    moduleLabels em found modules =
      handOut em found (modules.flatMap fun home => home.routines.map (routineKey home)) := by
  have hroutines (home : Program) (routines : List Routine) (em : Emitter)
      (found : RoutineLabels) : routineLabels home.moduleName em found routines =
        handOut em found (routines.map (routineKey home)) := by
    induction routines generalizing em found with
    | nil => rfl
    | cons routine rest ih => exact ih _ _
  induction modules generalizing em found with
  | nil => rfl
  | cons home rest ih =>
    rw [moduleLabels, hroutines, List.flatMap_cons, handOut_append]
    exact ih _ _

/-- Routines of modules with names of their own have keys of their own. -/
theorem nodup_routineKeys {modules : List Program}
    (h : (modules.map Program.moduleName).Nodup) :
    (modules.flatMap fun home => home.routines.map (routineKey home)).Nodup := by
  refine List.nodup_flatMap.2 ⟨fun home _ => ?_, ?_⟩
  · have hkeys : home.routines.map (routineKey home) =
        (home.routines.map Routine.name).map (Prod.mk home.moduleName) := by
      rw [List.map_map]
      rfl
    rw [hkeys]
    exact home.distinct.map fun _ _ heq => (Prod.mk.inj heq).2
  · refine (List.pairwise_map.1 h).imp fun {first second} hne key hkey hkey' => hne ?_
    obtain ⟨_, -, rfl⟩ := List.mem_map.1 hkey
    obtain ⟨_, -, heq⟩ := List.mem_map.1 hkey'
    exact (Prod.mk.inj heq).1.symm

end Native
end Gobstones
