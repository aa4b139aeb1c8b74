import Gobstones.Proofs.Native.Fragments
import Gobstones.Proofs.Native.Records
import Gobstones.Proofs.Native.Taming
/-!
# Instructions on any words

This module follows the code of the instructions that stay in an activation, whatever the
words on the stack are.  Each of them leaves as many operands as the walk through the
routine has found, so the words below the operands stay out of its reach, and then runs go
on from the next instruction.

Main definitions:

- {lit}`Stage.Goes`: runs from all instructions keep to what native code may do.

Main results:

- Theorem {lit}`Stage.Runs.next`: an activation goes on at another instruction.
- Theorem {lit}`Stage.Acts.readCode`: the value of a variable is pushed.
- Theorems {lit}`Stage.Runs.tends_popTo` and {lit}`Stage.Runs.tends_delVar`: a variable is
  written.
- Theorem {lit}`Stage.Runs.tends_builtin`: the code of a builtin.
-/

namespace Gobstones
namespace Native
namespace Stage

/-- Runs from all instructions of all activations keep to what native code may do for fewer
steps. -/
def Goes (stage : Stage) (k : Nat) : Prop :=
  ∀ record callers v n, stage.Runs record callers v n → stage.Soon k (record.call :: callers) v n

variable {stage : Stage} {k n m : Nat} {record : Record} {callers calls : List OpenCall}
variable {v v' : View} {instruction : Instruction} {name : String} {instrs : List Instr}

/-! ## Variables -/

/-- The value of a variable is pushed, or its lack is reported. -/
theorem Acts.readCode (hfit : stage.Fit) (h : stage.Acts record callers v)
    (hcode : ReadCode record.rc.layout stage.stubs name instrs) (hat : stage.code.At n instrs)
    (hstart : record.start ≤ n) (hstop : n + instrs.length ≤ record.stop)
    (hrest : ∀ v' w, v.Agrees v' → v'.live = w :: v.live →
      stage.Soon k (record.call :: callers) v' (n + instrs.length)) :
    stage.Tends k (record.call :: callers) v n := by
  have hread := hcode
  obtain ⟨mem, label, hmem, hstub, rfl⟩ := hcode
  obtain ⟨m, hplace, hsoon⟩ := (h.faults hfit (List.suffix_refl _)).exists_place
    hfit.regions.linked hstub (hat 3 _ rfl) rfl
  rw [List.length_cons] at hstop
  refine .quiet (hat 0 _ rfl) rfl (h.guardAt_variable hfit hstart (by omega) hmem (hat 0 _ rfl) rfl
    fun p hp hposition _ _ hneg hunassigned => h.faultsOn hfit hread hat hmem hneg hunassigned hp
      hposition) fun v₁ hv₁ => ?_
  refine .quiet (hat.slice 1 2) rfl (hv₁.agrees.spans h.spans) fun v₂ hv₂ => ?_
  have hv₂ := hv₁.trans hv₂
  have hspans₂ := hv₂.agrees.spans h.spans
  refine (Tends.split (hat 3 _ rfl) hplace hspans₂ (hsoon v₂ hv₂.agrees.toKeeps ?_)
    (Tends.instr (hat 4 _ rfl) rfl (guardAt_of_isHarmless (hat 4 _ rfl) hspans₂ rfl) rfl
      (hrest _ _ (hv₂.agrees.trans (v₂.agrees_push _)) (congrArg (_ :: ·) hv₂.live))).soon).soon
  rw [hv₂.live, h.live]
  exact List.suffix_append _ _

/-! ## Lists of words -/

/-- An unknown word is looked up in a list. -/
theorem Soon.lookup {words : List Int64} {matched target : Label} (hlinked : stage.code.Linked)
    (hat : stage.code.At n
      (words.flatMap (fun word => compareWord word ++ [Instr.jcc .e matched]) ++
        [Instr.jmp target, .bind matched])) (hspans : v.Spans stage.board)
    (hplace : stage.code.place target = some m)
    (hfound : ∀ v', v.Agrees v' → v'.live = v.live → stage.Soon k calls v'
      (n + (words.flatMap (fun word => compareWord word ++ [Instr.jcc .e matched]) ++
        [Instr.jmp target, .bind matched]).length))
    (hmissed : ∀ v', v.Agrees v' → v'.live = v.live → stage.Soon k calls v' m) :
    stage.Soon k calls v n := by
  induction words generalizing v n with
  | nil =>
    exact (Tends.jmp (hat 0 _ rfl) hplace (guardAt_of_isHarmless (hat 0 _ rfl) hspans rfl)
      (hmissed v (.refl v) rfl)).soon
  | cons word words ih =>
    rw [List.flatMap_cons, List.append_assoc, List.append_assoc] at hat hfound
    obtain ⟨hcompare, hat⟩ := NativeCode.at_append_iff.1 hat
    rw [List.singleton_append] at hat
    obtain ⟨hjcc, hat⟩ := NativeCode.at_cons_iff.1 hat
    have hmatched := hlinked.place_eq hjcc rfl ((NativeCode.at_append_iff.1 hat).2 1 _ rfl)
    have hquiet : (compareWord word).all (fun instr => instr.isQuiet && instr.isHarmless) = true := by
      unfold compareWord
      split <;> rfl
    rw [List.length_append, List.singleton_append, List.length_cons, Nat.add_comm _ 1,
      ← Nat.add_assoc, ← Nat.add_assoc] at hfound
    refine .quiet hcompare hquiet hspans fun v₁ hv₁ => ?_
    have hspans₁ := hv₁.agrees.spans hspans
    refine (Tends.split hjcc hmatched hspans₁ ?_ (ih hat hspans₁ (fun v' hv' hlive' => ?_)
      fun v' hv' hlive' => ?_)).soon
    · have hsoon := hfound v₁ hv₁.agrees hv₁.live
      rw [List.length_append, ← Nat.add_assoc] at hsoon
      exact hsoon
    · exact hfound v' (hv₁.agrees.trans hv') (hlive'.trans hv₁.live)
    · exact hmissed v' (hv₁.agrees.trans hv') (hlive'.trans hv₁.live)

/-! ## Names of builtins -/

/-- Code is generated for names of standard builtins only. -/
theorem exists_standard_of_builtinCode {stubs : List (String × Label)}
    (h : BuiltinCode stubs name instrs) :
    ∃ standard ∈ BuiltinTable.standard.entries, standard.name = name := by
  apply BuiltinTable.exists_mem_of_contains
  unfold BuiltinCode at h
  split at h
  iterate 8 rfl
  unfold plainCode? at h
  split at h <;> first | rfl | cases h

/-! ## Going on -/

section Instructions

variable (hfit : stage.Fit) (hgoes : stage.Goes k) (h : stage.Runs record callers v n)
include hfit h

theorem Runs.depthFits (hinstruction : record.rc.routine.code[record.ip]? = some instruction) :
    record.rc.program.DepthFits record.rc.routine
      (fun q d => record.rc.program.depthAt? record.rc.routine q = some d) record.ip
      record.words.length instruction :=
  (hfit.depthsFit h.lies.owns).fits h.depth hinstruction

/-- An activation goes on at another instruction, possibly with another value of a variable. -/
theorem Runs.next (hinstruction : record.rc.routine.code[record.ip]? = some instruction)
    (henter : instruction ≠ .enter) (hleave : instruction ≠ .leave) {ip : Nat}
    (hip : ip ∈ record.rc.program.successors record.rc.routine record.ip instruction)
    (words : List Word) {frame : List Word} {assigned : List Int32}
    (hlies : ({ record with frame, call := { record.call with assigned } } : Record).Lies stage)
    (hwords : words.length = record.rc.program.depthAfter instruction record.words.length)
    (hcode : record.rc.Continues stage record.start record.stop m
      (record.rc.routine.code.toList.drop ip))
    (hlive : v'.live = words ++ record.saved ++ frame ++ record.below) (hkeeps : v.Keeps v')
    (hspans : v'.Spans stage.board) :
    stage.Runs { record with ip, words, frame, call := { record.call with assigned } } callers v'
      m where
  lies :=
    { hlies with
      saves := by
        have hinside := (((hfit.bracketed h.lies.owns).inTransaction_stay hinstruction hip).2.2
          henter hleave).1
        have hsaves := hlies.saves
        rw [← hinside] at hsaves
        exact hsaves }
  awaits := h.awaits
  live := hlive
  rbp := hkeeps.rbp.trans h.rbp
  spans := hspans
  hosts := h.hosts.of_keeps hkeeps
  depth := by
    rw [hwords]
    exact (h.depthFits hfit hinstruction).next ip hip
  code := hcode

include hgoes in
/-- An activation goes on at another instruction with other operands. -/
theorem Runs.go (hinstruction : record.rc.routine.code[record.ip]? = some instruction)
    (henter : instruction ≠ .enter) (hleave : instruction ≠ .leave) {ip : Nat}
    (hip : ip ∈ record.rc.program.successors record.rc.routine record.ip instruction)
    (words : List Word)
    (hwords : words.length = record.rc.program.depthAfter instruction record.words.length)
    (hcode : record.rc.Continues stage record.start record.stop m
      (record.rc.routine.code.toList.drop ip))
    (hlive : v'.live = words ++ (record.saved ++ record.frame ++ record.below))
    (hkeeps : v.Keeps v') (hspans : v'.Spans stage.board) :
    stage.Soon k (record.call :: callers) v' m := by
  have hnext := h.next hfit hinstruction henter hleave hip words h.lies hwords hcode
    (by simpa using hlive) hkeeps hspans
  have hsoon := hgoes _ _ _ _ hnext
  exact hsoon

omit hfit in
/-- The words on top of the stack are operands. -/
theorem Runs.live_eq : v.live = record.words ++ (record.saved ++ record.frame ++ record.below) := by
  rw [h.live]
  simp

/-- There are as many operands as an instruction pops. -/
theorem Runs.exists_operand (hinstruction : record.rc.routine.code[record.ip]? = some instruction)
    (hpops : (record.rc.program.effect instruction).1 = 1) :
    ∃ w words, record.words = w :: words := by
  have hle := (h.depthFits hfit hinstruction).pops_le
  rw [hpops] at hle
  cases hwords : record.words with
  | nil =>
    rw [hwords] at hle
    cases hle
  | cons w words => exact ⟨w, words, rfl⟩

/-- A failure goes to the stub of its message. -/
theorem Runs.tends_fail {cause : FaultCause} (hcode : FailCode stage.stubs cause instrs)
    (hat : stage.code.At n instrs) : stage.Tends k (record.call :: callers) v n := by
  obtain ⟨label, hstub, rfl⟩ := hcode
  obtain ⟨m, hplace, hsoon⟩ := (h.faults hfit (List.suffix_refl _)).exists_place
    hfit.regions.linked hstub (hat 0 _ rfl) rfl
  refine .jmp (hat 0 _ rfl) hplace (guardAt_of_isHarmless (hat 0 _ rfl) h.spans rfl)
    (hsoon v (.refl v) ?_)
  rw [h.live]
  exact List.suffix_append _ _

include hgoes

theorem Runs.tends_pushConst {value : Value}
    (hinstruction : record.rc.routine.code[record.ip]? = some (.pushConst value)) :
    stage.Tends k (record.call :: callers) v n := by
  obtain ⟨first, ⟨word, -, -, rfl⟩, hat, -, -, hnext⟩ := h.code.split hinstruction (by simp)
  have hend (v' : View) (words : List Word) (hagrees : v.Agrees v')
      (hlive : v'.live = words ++ v.live) (hlength : words.length = 1) :
      stage.Soon k (record.call :: callers) v' (n + (pushWord word).length) := by
    obtain ⟨w, rfl⟩ := List.length_eq_one_iff.1 hlength
    exact h.go hfit hgoes hinstruction (by simp) (by simp) (List.mem_singleton_self _)
      (w :: record.words) (by simp [Program.depthAfter, Program.effect]) hnext
      (by rw [hlive, h.live_eq]; rfl) hagrees.toKeeps (hagrees.spans h.spans)
  unfold pushWord at hat hend
  split at hat
  · next hfits =>
    rw [if_pos hfits] at hend
    exact .line hat h.spans (List.nil_append v.live).symm rfl hend
  · next hlarge =>
    rw [if_neg hlarge] at hend
    exact .line hat h.spans (List.nil_append v.live).symm rfl hend

theorem Runs.tends_pushFrom
    (hinstruction : record.rc.routine.code[record.ip]? = some (.pushFrom name)) :
    stage.Tends k (record.call :: callers) v n := by
  obtain ⟨first, hfirst, hat, hstart, hstop, hnext⟩ := h.code.split hinstruction (by simp)
  refine h.readCode hfit hfirst hat hstart hstop fun v' w hagrees hlive => ?_
  refine h.go hfit hgoes hinstruction (by simp) (by simp) (List.mem_singleton_self _)
    (w :: record.words) (by simp [Program.depthAfter, Program.effect]) hnext ?_
    hagrees.toKeeps (hagrees.spans h.spans)
  rw [hlive, h.live_eq]
  rfl

theorem Runs.tends_popTo
    (hinstruction : record.rc.routine.code[record.ip]? = some (.popTo name)) :
    stage.Tends k (record.call :: callers) v n := by
  obtain ⟨first, ⟨mem, hmem, rfl⟩, hat, hstart, hstop, hnext⟩ :=
    h.code.split hinstruction (by simp)
  obtain ⟨w, words, hwords⟩ := h.exists_operand hfit hinstruction rfl
  have hframed := h.framed
  rw [hwords, List.cons_append] at hframed
  obtain ⟨slot, v', hslot, hview, hagrees, hlive⟩ := exists_popMem hframed h.separates hmem
  obtain ⟨other, hother, hmemory⟩ := slot_of_memory hmem
  obtain rfl := Option.some.inj (hslot.symm.trans hother)
  have hfits := h.separates.fitsIn hslot
  obtain ⟨hbase, hdisp⟩ := toInt_slot hfits hmemory
  obtain ⟨base, disp⟩ := mem
  obtain rfl : base = .rbp := hbase
  have hindex := Slot.index_ne hfits
  have hnote (p p' : Processor) : noteCalls p p' (.popMem ⟨.rbp, disp⟩) (record.call :: callers) =
      { record.call with assigned := disp :: record.call.assigned } :: callers := rfl
  refine .noted (hat 0 _ rfl) hview (h.guardAt_variable hfit hstart hstop hmem (hat 0 _ rfl) rfl
    fun _ _ _ _ hload => nomatch hload) (fun p p' _ => hnote p p') ?_
  refine hgoes _ _ _ _ (h.next hfit hinstruction (by simp) (by simp) (List.mem_singleton_self _)
    words (h.lies.setVariable hdisp ⟨hindex.1, hindex.2.1⟩ fun other hother => .inr ?_) ?_ hnext
      hlive hagrees.toKeeps (hagrees.spans h.spans))
  · exact ⟨fun heq => hother (heq ▸ List.mem_cons_self), fun hmem => hother (List.mem_cons_of_mem _ hmem)⟩
  · simp [hwords, Program.depthAfter, Program.effect]

theorem Runs.tends_delVar
    (hinstruction : record.rc.routine.code[record.ip]? = some (.delVar name)) :
    stage.Tends k (record.call :: callers) v n := by
  obtain ⟨first, ⟨mem, hmem, rfl⟩, hat, hstart, hstop, hnext⟩ :=
    h.code.split hinstruction (by simp)
  have hview₁ : v.perform (.movImm .rax sentinel) =
      some (v.adopt (v.cpu.setReg .rax (.int sentinel))) := rfl
  refine .computed (hat 0 _ rfl) hview₁ rfl h.spans fun hv₁ => Tends.soon ?_
  have hacts := h.toActs.of_keeps hv₁.agrees.toKeeps (hv₁.agrees.spans h.spans)
    (hv₁.live.trans h.live)
  obtain ⟨slot, v', hslot, hview, hagrees, hlive⟩ :=
    exists_storeVariable hacts.framed hacts.separates hmem .rax
  obtain ⟨other, hother, hmemory⟩ := slot_of_memory hmem
  obtain rfl := Option.some.inj (hslot.symm.trans hother)
  have hfits := hacts.separates.fitsIn hslot
  obtain ⟨hbase, hdisp⟩ := toInt_slot hfits hmemory
  obtain ⟨base, disp⟩ := mem
  obtain rfl : base = .rbp := hbase
  have hindex := Slot.index_ne hfits
  have hnote (p p' : Processor) :
      noteCalls p p' (.store ⟨.rbp, disp⟩ .rax) (record.call :: callers) =
        { record.call with assigned := record.call.assigned.filter (· ≠ disp) } :: callers := rfl
  refine .noted (hat 1 _ rfl) hview (hacts.guardAt_variable hfit (Nat.le_succ_of_le hstart) hstop
    hmem (hat 1 _ rfl) rfl fun _ _ _ _ hload => nomatch hload) (fun p p' _ => hnote p p') ?_
  have hagrees := hv₁.agrees.trans hagrees
  refine hgoes _ _ _ _ (h.next hfit hinstruction (by simp) (by simp) (List.mem_singleton_self _)
    record.words (h.lies.setVariable hdisp ⟨hindex.1, hindex.2.1⟩ fun other hother => ?_) ?_ hnext
      hlive hagrees.toKeeps (hagrees.spans h.spans))
  · by_cases heq : other = disp
    · exact .inl ⟨heq, rfl⟩
    · exact .inr ⟨heq, fun hmem => hother (by simp [heq, hmem])⟩
  · simp [Program.depthAfter, Program.effect]

/-! ## Jumps -/

theorem Runs.tends_label
    (hinstruction : record.rc.routine.code[record.ip]? = some (.label name)) :
    stage.Tends k (record.call :: callers) v n := by
  obtain ⟨first, ⟨label, -, rfl⟩, hat, -, -, hnext⟩ := h.code.split hinstruction (by simp)
  refine .bind (hat 0 _ rfl) (guardAt_of_isHarmless (hat 0 _ rfl) h.spans rfl) ?_
  exact h.go hfit hgoes hinstruction (by simp) (by simp) (List.mem_singleton_self _) record.words
    (by simp [Program.depthAfter, Program.effect]) hnext h.live_eq (.refl v) h.spans

omit hgoes in
/-- A jump of the routine has a place in the code. -/
theorem Runs.exists_target (hinstruction : record.rc.routine.code[record.ip]? = some instruction)
    (hjump : instruction.jumpLabel? = some name) {label : Label}
    (hlabel : record.rc.labels.lookup name = some label) {i : Nat} {instr : Instr}
    (hinstr : stage.code.instrs[i]? = some instr) (hto : instr.target? = some label) :
    ∃ m ip, stage.code.place label = some m ∧ record.rc.routine.target? record.ip = some ip ∧
      record.rc.Continues stage record.start record.stop m
        (record.rc.routine.code.toList.drop ip) := by
  obtain ⟨ip, htarget⟩ := Routine.exists_target? hinstruction hjump
  obtain ⟨m, hplace, hcode⟩ := h.lies.placed.target hfit.regions.linked htarget
    (by rw [hinstruction]; exact hjump) hlabel hinstr hto
  exact ⟨m, ip, hplace, htarget, hcode⟩

theorem Runs.tends_jump
    (hinstruction : record.rc.routine.code[record.ip]? = some (.jump name)) :
    stage.Tends k (record.call :: callers) v n := by
  obtain ⟨first, ⟨label, hlabel, rfl⟩, hat, -⟩ := h.code.split hinstruction (by simp)
  obtain ⟨m, ip, hplace, htarget, hcode⟩ :=
    h.exists_target hfit hinstruction rfl hlabel (hat 0 _ rfl) rfl
  refine .jmp (hat 0 _ rfl) hplace (guardAt_of_isHarmless (hat 0 _ rfl) h.spans rfl) ?_
  exact h.go hfit hgoes hinstruction (by simp) (by simp)
    (by simp [Program.successors, Program.alwaysFails, htarget]) record.words
    (by simp [Program.depthAfter, Program.effect]) hcode h.live_eq (.refl v) h.spans

theorem Runs.tends_jumpIfFalse
    (hinstruction : record.rc.routine.code[record.ip]? = some (.jumpIfFalse name)) :
    stage.Tends k (record.call :: callers) v n := by
  obtain ⟨first, ⟨label, hlabel, rfl⟩, hat, -, -, hnext⟩ := h.code.split hinstruction (by simp)
  obtain ⟨m, ip, hplace, htarget, hcode⟩ :=
    h.exists_target hfit hinstruction rfl hlabel (hat 2 _ rfl) rfl
  obtain ⟨w, words, hwords⟩ := h.exists_operand hfit hinstruction rfl
  have hlive := h.live_eq
  rw [hwords, List.cons_append] at hlive
  have hlength : words.length =
      record.rc.program.depthAfter (.jumpIfFalse name) record.words.length := by
    simp [hwords, Program.depthAfter, Program.effect]
  refine .pop rfl (hat 0 _ rfl) h.spans hlive fun v₁ hv₁ hlive₁ _ => ?_
  refine .quiet (hat.slice 1 1) rfl (hv₁.spans h.spans) fun v₂ hv₂ => ?_
  have hlive₂ := hv₂.live.trans hlive₁
  have hv₂ := hv₁.trans hv₂.agrees
  refine (Tends.split (hat 2 _ rfl) hplace (hv₂.spans h.spans) ?_ ?_).soon
  · exact h.go hfit hgoes hinstruction (by simp) (by simp)
      (by simp [Program.successors, Program.alwaysFails, htarget]) words hlength hcode hlive₂
      hv₂.toKeeps (hv₂.spans h.spans)
  · exact h.go hfit hgoes hinstruction (by simp) (by simp)
      (by simp [Program.successors, Program.alwaysFails]) words hlength hnext hlive₂
      hv₂.toKeeps (hv₂.spans h.spans)

theorem Runs.tends_jumpIfNotIn {values : List Value}
    (hinstruction : record.rc.routine.code[record.ip]? = some (.jumpIfNotIn values name)) :
    stage.Tends k (record.call :: callers) v n := by
  obtain ⟨first, ⟨target, matched, listed, hlabel, -, rfl⟩, hat, -, -, hnext⟩ :=
    h.code.split hinstruction (by simp)
  unfold RoutineCompiler.jumpUnlessListed at hat hnext
  rw [List.cons_append] at hat hnext
  obtain ⟨hpop, hat⟩ := NativeCode.at_cons_iff.1 hat
  have hjmp := (NativeCode.at_append_iff.1 hat).2 0 _ rfl
  obtain ⟨m, ip, hplace, htarget, hcode⟩ :=
    h.exists_target hfit hinstruction rfl hlabel hjmp rfl
  obtain ⟨w, words, hwords⟩ := h.exists_operand hfit hinstruction rfl
  have hlive := h.live_eq
  rw [hwords, List.cons_append] at hlive
  have hlength : words.length =
      record.rc.program.depthAfter (.jumpIfNotIn values name) record.words.length := by
    simp [hwords, Program.depthAfter, Program.effect]
  refine .pop rfl hpop h.spans hlive fun v₁ hv₁ hlive₁ _ => .lookup hfit.regions.linked hat
    (hv₁.spans h.spans) hplace (fun v₂ hv₂ hlive₂ => ?_) fun v₂ hv₂ hlive₂ => ?_
  · rw [List.length_cons, Nat.add_comm _ 1, ← Nat.add_assoc] at hnext
    have hv₂ := hv₁.trans hv₂
    exact h.go hfit hgoes hinstruction (by simp) (by simp)
      (by simp [Program.successors, Program.alwaysFails]) words hlength hnext
      (hlive₂.trans hlive₁) hv₂.toKeeps (hv₂.spans h.spans)
  · have hv₂ := hv₁.trans hv₂
    exact h.go hfit hgoes hinstruction (by simp) (by simp)
      (by simp [Program.successors, Program.alwaysFails, htarget]) words hlength hcode
      (hlive₂.trans hlive₁) hv₂.toKeeps (hv₂.spans h.spans)

/-! ## Builtins and transactions -/

theorem Runs.tends_builtin {argc : Nat} {builtin : Builtin}
    (hinstruction : record.rc.routine.code[record.ip]? = some (.call name argc))
    (hresolve : record.rc.program.resolve? name = some (.builtin builtin))
    (harity : builtin.arity = argc) (hcode : BuiltinCode stage.stubs builtin.name instrs)
    (hat : stage.code.At n instrs)
    (hnext : record.rc.Continues stage record.start record.stop (n + instrs.length)
      (record.rc.routine.code.toList.drop (record.ip + 1))) :
    stage.Tends k (record.call :: callers) v n := by
  subst harity
  obtain ⟨standard, hstandard, hname⟩ := exists_standard_of_builtinCode hcode
  have hbuiltin := Program.mem_of_resolve?_builtin hresolve
  obtain ⟨harity, hkind⟩ :=
    hfit.builtins _ h.lies.owns.reaches builtin hbuiltin standard hstandard hname
  have htames := tames_of_standard hfit.regions.linked hfit.fits hfit.board hstandard
    (hname ▸ hcode)
  rw [harity, hkind] at htames
  have hpops := (h.depthFits hfit hinstruction).pops_le
  have heffect : record.rc.program.effect (.call name builtin.arity) =
      (builtin.arity, if builtin.kind = .function then 1 else 0) :=
    Machine.effect_call hresolve
  rw [heffect] at hpops
  have hlive : v.live = record.words.take builtin.arity ++
      (record.words.drop builtin.arity ++ (record.saved ++ record.frame ++ record.below)) := by
    rw [← List.append_assoc, List.take_append_drop]
    exact h.live_eq
  refine htames k _ v n _ _ hat h.spans hlive (List.length_take_of_le hpops)
    (h.faults hfit ?_) fun v' words hkeeps hspans hlive' hlength => ?_
  · rw [← List.append_assoc]
    exact List.suffix_append _ _
  · refine h.go hfit hgoes hinstruction (by simp) (by simp) ?_ (words ++ record.words.drop builtin.arity)
      ?_ hnext (hlive'.trans (List.append_assoc ..).symm) hkeeps hspans
    · have hnext := @Machine.successors_call _ record.rc.routine record.ip builtin.arity _ _
        hresolve rfl
      rw [hnext]
      exact List.mem_singleton_self _
    · rw [Program.depthAfter, heffect, List.length_append, List.length_drop, hlength]
      omega

theorem Runs.tends_enter
    (hinstruction : record.rc.routine.code[record.ip]? = some .enter) :
    stage.Tends k (record.call :: callers) v n := by
  obtain ⟨first, ⟨top, done, rfl⟩, hat, -, -, hnext⟩ := h.code.split hinstruction (by simp)
  have hbracketed := hfit.bracketed h.lies.owns
  have hip : record.ip + 1 ∈ record.rc.program.successors record.rc.routine record.ip .enter :=
    List.mem_singleton_self _
  obtain ⟨houtside, hinside⟩ := (hbracketed.inTransaction_stay hinstruction hip).1 rfl
  -- A transaction is opened by the first instruction, where there are no operands.
  have hwords : record.words = [] := by
    have hstart := (hfit.depthsFit h.lies.owns).start
    have hdepth := h.depth
    rw [((hbracketed.enter_iff _).1 hinstruction).2, hstart] at hdepth
    exact List.eq_nil_of_length_eq_zero (Option.some.inj hdepth).symm
  have hsaves := h.lies.saves
  rw [houtside] at hsaves
  have hlive := h.live
  rw [hwords, hsaves.2] at hlive
  refine .enterCode hfit.fits hfit.board hfit.regions.linked hat h.spans
    fun v' saved words hlies hagrees hlive' => hgoes { record with
      ip := record.ip + 1, saved := words, call := { record.call with saved := some saved } }
        callers v' (n + 19) ?_
  exact
    { lies :=
        { h.lies with
          saves := by
            dsimp only
            rw [hinside]
            exact ⟨saved, rfl, hlies⟩ }
      awaits := h.awaits
      live := by
        rw [hlive', hlive, hwords]
        simp
      rbp := hagrees.rbp.trans h.rbp
      spans := hagrees.spans h.spans
      hosts := h.hosts.of_keeps hagrees.toKeeps
      depth := (h.depthFits hfit hinstruction).next _ hip
      code := hnext }

end Instructions

end Stage
end Native
end Gobstones
