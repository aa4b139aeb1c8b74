import Gobstones.Proofs.Native.Labels
import Gobstones.Proofs.Native.Regions
/-!
# Compiled programs are linked

This module shows that the compiler never fails to link what it has emitted.  It refuses programs
for what they contain; of every other program all labels to which the code branches have one place
each, and the messages of all failures have one stub each.

Main definitions:

- {lit}`NativeError.IsRefusal`: the errors with which programs are refused.
- {lit}`Meets`: a result meets a condition, or the program is refused.

Main results:

- Theorem {lit}`meets_instruction`: instructions bind the labels that they define.
- Theorem {lit}`meets_emitRoutine`: routines bind their own labels.
- Theorem {lit}`linked_of_compile`: programs are refused or linked.
-/

namespace Gobstones
namespace Native

/-! ## Refusals -/

/-- The compiler refuses a program for what it contains, before its code is linked. -/
def NativeError.IsRefusal : NativeError → Prop
  | .noEntrypoint | .untypedResult _ | .rejected _ | .unsupported _ | .frameTooLarge _ => True
  | .link _ | .unavailable | .fault _ | .board _ => False

/-- A result meets a condition, or the program is refused. -/
def Meets {α : Type} (result : Except NativeError α) (P : α → Prop) : Prop :=
  match result with
  | .ok a => P a
  | .error e => e.IsRefusal

namespace Meets

variable {α β : Type} {result : Except NativeError α} {P P' : α → Prop} {Q : β → Prop}

theorem mono (h : Meets result P) (himp : ∀ a, P a → P' a) : Meets result P' := by
  cases result with
  | ok a => exact himp a h
  | error e => exact h

theorem and_eq (h : Meets result P) : Meets result fun a => result = .ok a ∧ P a := by
  cases result with
  | ok a => exact ⟨rfl, h⟩
  | error e => exact h

theorem bind {f : α → Except NativeError β} (h : Meets result P)
    (hf : ∀ a, P a → Meets (f a) Q) : Meets (result >>= f) Q := by
  cases result with
  | ok a => exact hf a h
  | error e => exact h

theorem map {f : α → β} (h : Meets result P) (hf : ∀ a, P a → Q (f a)) :
    Meets (result.map f) Q := by
  cases result with
  | ok a => exact hf a h
  | error e => exact h

theorem mapM {f : α → Except NativeError β} (hf : ∀ a, Meets (f a) Q) (items : List α) :
    Meets (items.mapM f) fun results => ∀ b ∈ results, Q b := by
  induction items with
  | nil => exact List.forall_mem_nil _
  | cons item items ih =>
    rw [List.mapM_cons]
    refine (hf item).bind fun b hb => ih.bind fun results hresults => ?_
    exact List.forall_mem_cons.2 ⟨hb, hresults⟩

end Meets

/-! ## Operands -/

variable {em : Emitter} {pending : List Label} {rc : RoutineCompiler}

theorem meets_wordOffset (words : Nat) : Meets (wordOffset words) fun _ => True := by
  unfold wordOffset
  split <;> trivial

theorem meets_memory (layout : FrameLayout) (name : String) :
    Meets (layout.memory name) fun _ => True := by
  unfold FrameLayout.memory
  split
  · next slot _ =>
    cases slot with
    | param k => exact (meets_wordOffset _).map fun _ _ => trivial
    | own k => exact (meets_wordOffset _).map fun _ _ => trivial
  · trivial

theorem meets_dropWords (n : Nat) : Meets (dropWords n) Plain := by
  unfold dropWords
  split
  · exact Plain.nil
  · exact (meets_wordOffset n).map fun disp _ => ⟨rfl, rfl⟩

theorem meets_returnedValue (i : Nat) : Meets (returnedValue i) fun _ => True :=
  (meets_wordOffset _).map fun _ _ => trivial

theorem meets_constantWord (value : Value) :
    Meets (RoutineCompiler.constantWord value) fun _ => True := by
  unfold RoutineCompiler.constantWord
  split <;> trivial

theorem meets_jumpLabel (rc : RoutineCompiler) (name : String) :
    Meets (rc.jumpLabel name) fun label => rc.labels.lookup name = some label := by
  unfold RoutineCompiler.jumpLabel
  split
  · next label hlabel => exact hlabel
  · trivial

/-- Code that pushes values is plain. -/
theorem plain_of_forall {instrs : List Instr} (h : ∀ instr ∈ instrs, Plain [instr]) :
    Plain instrs := by
  induction instrs with
  | nil => exact .nil
  | cons instr rest ih =>
    rw [List.forall_mem_cons] at h
    exact h.1.append (ih h.2)

theorem meets_pushResults (n : Nat) : Meets (RoutineCompiler.pushResults n) Plain := by
  unfold RoutineCompiler.pushResults
  split
  · trivial
  · refine (Meets.mapM (fun i => ?_) (List.range n)).mono fun _ => plain_of_forall
    exact (meets_returnedValue i).map fun _ _ => ⟨rfl, rfl⟩

theorem meets_copyResults (n : Nat) : Meets (copyResults n) Plain := by
  have hcopy (i : Nat) : Meets (do
      let source ← returnedValue i
      let disp ← wordOffset i
      return [Instr.load .rax source, .store ⟨.r15, disp⟩ .rax]) Plain :=
    (meets_returnedValue i).bind fun _ _ => (meets_wordOffset i).bind fun _ _ => ⟨rfl, rfl⟩
  exact (Meets.mapM hcopy (List.range n)).bind fun copies hcopies => Plain.flatten hcopies

theorem plain_pushWord (word : Int64) : Plain (pushWord word) := by
  unfold pushWord
  split <;> exact ⟨rfl, rfl⟩

theorem plain_compareWord (word : Int64) : Plain (compareWord word) := by
  unfold compareWord
  split <;> exact ⟨rfl, rfl⟩

/-! ## Items of code -/

/-- What is emitted for items binds the pending labels of each, if every item binds its own. -/
theorem meets_foldlM {α : Type} {f : Emitter → α → Except NativeError Emitter} {items : List α}
    (own : α → List Label) (labels : List Label)
    (hf : ∀ em pending, ∀ item ∈ items, em.Tidy (own item ++ pending) →
      labels ⊆ em.known (own item ++ pending) →
      Meets (f em item) fun em' => em.Settles (own item ++ pending) em' pending)
    (h : em.Tidy (items.flatMap own ++ pending))
    (hlabels : labels ⊆ em.known (items.flatMap own ++ pending)) :
    Meets (items.foldlM f em) fun em' => em.Settles (items.flatMap own ++ pending) em' pending := by
  induction items generalizing em with
  | nil => exact h.refl
  | cons item items ih =>
    rw [List.flatMap_cons, List.append_assoc] at h hlabels ⊢
    rw [List.foldlM_cons]
    refine (hf em _ item List.mem_cons_self h hlabels).bind fun next hnext => ?_
    refine (ih (fun em pending other hmem => hf em pending other (List.mem_cons_of_mem _ hmem))
      hnext.tidy fun _ hmem => hnext.known (hlabels hmem)).mono fun em' hem' => ?_
    exact hnext.trans hem'

/-! ## Instructions -/

namespace RoutineCompiler

/-- An emitter is tidy and knows the labels that the instructions of a routine use. -/
structure Serves (rc : RoutineCompiler) (em : Emitter) (pending : List Label) : Prop where
  tidy : em.Tidy pending
  labels : rc.labels.map Prod.snd ⊆ em.known pending
  routines : rc.routines.map Prod.snd ⊆ em.known pending

theorem Serves.settles {em' : Emitter} {pending' : List Label} (h : rc.Serves em pending)
    (h' : em.Settles pending em' pending') : rc.Serves em' pending' :=
  ⟨h'.tidy, fun _ hmem => h'.known (h.labels hmem), fun _ hmem => h'.known (h.routines hmem)⟩

end RoutineCompiler

theorem settles_failWith (h : em.Tidy pending) (cause : FaultCause) :
    em.Settles pending (RoutineCompiler.failWith em cause) pending := by
  rcases hrequest : em.fault cause.message with ⟨label, requested⟩
  have hfail : RoutineCompiler.failWith em cause = requested.emit (.jmp label) := by
    unfold RoutineCompiler.failWith
    rw [hrequest]
  have hsettles := h.settles_fault cause.message
  have hmem := em.mem_known_fault cause.message pending
  rw [hrequest] at hsettles hmem
  rw [hfail]
  exact hsettles.trans (hsettles.tidy.settles_emit (.refl pending)
    (List.cons_subset.2 ⟨hmem, List.nil_subset _⟩))

theorem meets_pushVariable (h : em.Tidy pending) (name : String) :
    Meets (rc.pushVariable em name) fun em' => em.Settles pending em' pending := by
  refine (meets_memory rc.layout name).bind fun memory _ => ?_
  rcases hrequest : em.fault (FaultCause.uninitialized name).message with ⟨label, requested⟩
  have hsettles := h.settles_fault (FaultCause.uninitialized name).message
  have hmem := em.mem_known_fault (FaultCause.uninitialized name).message pending
  rw [hrequest] at hsettles hmem
  exact hsettles.trans (hsettles.tidy.settles_emitAll [label] (.refl pending)
    (List.Subset.refl [label]) (List.cons_subset.2 ⟨hmem, List.nil_subset _⟩))

theorem meets_pushVariables (h : em.Tidy pending) (names : List String) :
    Meets (names.foldlM (fun em name => rc.pushVariable em (Polyname.base name)) em)
      fun em' => em.Settles pending em' pending := by
  have hown : (names.flatMap fun _ => ([] : List Label)) ++ pending = pending := by simp
  rw [← hown] at h
  have hnames := meets_foldlM (fun _ => []) []
    (fun em pending name _ (h : em.Tidy pending) _ =>
      @meets_pushVariable _ _ rc h (Polyname.base name)) h (List.nil_subset _)
  rwa [hown] at hnames

theorem meets_returnValues (h : em.Tidy pending) (n : Nat) :
    Meets (RoutineCompiler.returnValues em n) fun em' => em.Settles pending em' pending :=
  (meets_dropWords n).bind fun _ hdrop => h.settles_plain (hdrop.append ⟨rfl, rfl⟩)

theorem meets_leaveAndReturn (h : em.Tidy pending) (n : Nat) :
    Meets (RoutineCompiler.leaveAndReturn em n) fun em' => em.Settles pending em' pending := by
  refine (meets_dropWords n).bind fun drop hdrop => ?_
  refine h.settles_loop (fun top done => drop ++ .mov .rdi .rsp :: leaveCode top done ++ epilogue)
    (fun top done => ?_) fun top done => ?_
  · rw [boundLabels_append, boundLabels_append, hdrop.bound]
    rfl
  · rw [branchLabels_append, branchLabels_append, hdrop.branch]
    change [done, top] ⊆ [top, done]
    simp

theorem settles_enter (h : em.Tidy pending) :
    em.Settles pending (RoutineCompiler.enter em) pending := by
  refine h.settles_loop enterCode (fun _ _ => rfl) fun top done => ?_
  change [done, top] ⊆ [top, done]
  simp

theorem meets_callRoutine (h : rc.Serves em pending) (home : Program) (callee : Routine)
    (argc : Nat) :
    Meets (rc.callRoutine em home callee argc) fun em' => em.Settles pending em' pending := by
  unfold RoutineCompiler.callRoutine
  split
  · exact settles_failWith h.tidy _
  · split
    · trivial
    · next label hlabel =>
      refine (meets_dropWords argc).bind fun drop hdrop => ?_
      refine (meets_pushResults callee.resultCount).bind fun results hresults => ?_
      have hplain := hdrop.append hresults
      have hmem : label ∈ em.known pending := h.routines (mem_of_lookup hlabel)
      have hcode : .call label :: drop ++ results = [.call label] ++ (drop ++ results) := rfl
      refine h.tidy.settles_emitAll [label] ?_ ?_ (List.cons_subset.2 ⟨hmem, List.nil_subset _⟩)
      · rw [hcode, boundLabels_append, hplain.bound]
        exact .refl pending
      · rw [hcode, branchLabels_append, hplain.branch]
        exact List.subset_append_right _ _

theorem meets_call (h : rc.Serves em pending) (name : String) (argc : Nat) :
    Meets (rc.call em name argc) fun em' => em.Settles pending em' pending := by
  unfold RoutineCompiler.call
  split
  · exact settles_failWith h.tidy _
  · split
    · exact settles_failWith h.tidy _
    · unfold RoutineCompiler.inlineBuiltin
      split
      · next em' hbuiltin => exact h.tidy.settles_builtin hbuiltin
      · split <;> trivial
  · exact meets_callRoutine h _ _ _
  · exact meets_callRoutine h _ _ _

/-- A jump that depends on listed words binds the label that it takes for them. -/
theorem labels_jumpUnlessListed (words : List Int64) (matched target : Label) :
    boundLabels (RoutineCompiler.jumpUnlessListed words matched target) = [matched] ∧
      branchLabels (RoutineCompiler.jumpUnlessListed words matched target) ⊆ [matched] ++ [target] := by
  have hwords : boundLabels (words.flatMap fun word => compareWord word ++ [.jcc .e matched]) = [] ∧
      branchLabels (words.flatMap fun word => compareWord word ++ [.jcc .e matched]) ⊆
        [matched] := by
    induction words with
    | nil => exact ⟨rfl, List.nil_subset _⟩
    | cons word words ih =>
      have hplain := plain_compareWord word
      rw [List.flatMap_cons, boundLabels_append, boundLabels_append, branchLabels_append,
        branchLabels_append, hplain.bound, hplain.branch, ih.1]
      exact ⟨rfl, List.append_subset.2 ⟨List.Subset.refl [matched], ih.2⟩⟩
  have hcode : RoutineCompiler.jumpUnlessListed words matched target = [.pop .rax] ++
      words.flatMap (fun word => compareWord word ++ [.jcc .e matched]) ++
        [.jmp target, .bind matched] := rfl
  rw [hcode, boundLabels_append, boundLabels_append, branchLabels_append, branchLabels_append,
    hwords.1]
  refine ⟨rfl, List.append_subset.2 ⟨List.append_subset.2 ⟨List.nil_subset _, ?_⟩, ?_⟩⟩
  · exact fun _ hmem => List.mem_append_left _ (hwords.2 hmem)
  · exact fun _ hmem => List.mem_append_right _ hmem

/-- An instruction binds the label that it defines. -/
theorem meets_instruction {instruction : Instruction}
    (h : rc.Serves em (labelsOf rc.labels (Labels.defined [instruction]) ++ pending)) :
    Meets (rc.instruction em instruction) fun em' =>
      em.Settles (labelsOf rc.labels (Labels.defined [instruction]) ++ pending) em' pending := by
  cases instruction with
  | pushConst value =>
    refine (meets_constantWord value).bind fun word _ => ?_
    split
    · trivial
    · exact h.tidy.settles_plain (plain_pushWord word)
  | pushFrom name => exact meets_pushVariable h.tidy name
  | popTo name =>
    refine (meets_memory rc.layout name).bind fun memory _ => ?_
    exact h.tidy.settles_emit (.refl _) (List.nil_subset _)
  | delVar name =>
    refine (meets_memory rc.layout name).bind fun memory _ => ?_
    exact h.tidy.settles_plain ⟨rfl, rfl⟩
  | setImmutable name | unsetImmutable name => exact h.tidy.refl
  | label name =>
    refine (meets_jumpLabel rc name).bind fun label hlabel => ?_
    have hown : labelsOf rc.labels (Labels.defined [.label name]) = [label] :=
      List.filterMap_cons_some hlabel
    rw [hown] at h ⊢
    exact h.tidy.settles_emit (.refl _) (List.nil_subset _)
  | jump name =>
    refine (meets_jumpLabel rc name).bind fun label hlabel => ?_
    exact h.tidy.settles_emit (.refl _)
      (List.cons_subset.2 ⟨h.labels (mem_of_lookup hlabel), List.nil_subset _⟩)
  | jumpIfFalse name =>
    refine (meets_jumpLabel rc name).bind fun label hlabel => ?_
    exact h.tidy.settles_emitAll [label] (.refl _) (List.Subset.refl [label])
      (List.cons_subset.2 ⟨h.labels (mem_of_lookup hlabel), List.nil_subset _⟩)
  | jumpIfNotIn values name =>
    refine (meets_jumpLabel rc name).bind fun label hlabel => ?_
    refine (Meets.mapM meets_constantWord values).bind fun words _ => ?_
    have hfresh := h.tidy.settles_fresh
    obtain ⟨hbound, hbranch⟩ := labels_jumpUnlessListed words em.labels label
    refine hfresh.trans (hfresh.tidy.settles_emitAll [label] ?_ (hbound ▸ hbranch) ?_)
    · rw [hbound]
      exact .refl _
    · exact List.cons_subset.2
        ⟨hfresh.known (h.labels (mem_of_lookup hlabel)), List.nil_subset _⟩
  | raise message => exact settles_failWith h.tidy _
  | call name argc => exact meets_call h name argc
  | ret n => exact meets_returnValues h.tidy n
  | returnVars n names =>
    refine (meets_pushVariables h.tidy names).bind fun next hnext => ?_
    exact (meets_returnValues hnext.tidy n).mono fun _ => hnext.trans
  | enter => exact settles_enter h.tidy
  | leave => trivial

/-! ## Routines -/

/-- The instructions of a routine bind the labels that they define. -/
theorem meets_code {code : List Instruction}
    (h : rc.Serves em (labelsOf rc.labels (Labels.defined code) ++ pending)) :
    Meets (rc.code em code) fun em' =>
      em.Settles (labelsOf rc.labels (Labels.defined code) ++ pending) em' pending := by
  fun_induction RoutineCompiler.code rc em code with
  | case1 em => exact h.tidy.refl
  | case2 em n rest ih =>
    refine (meets_leaveAndReturn h.tidy n).bind fun next hnext => ?_
    exact (ih next (h.settles hnext)).mono fun _ => hnext.trans
  | case3 em instruction rest _ ih =>
    have hdefined : Labels.defined (instruction :: rest) =
        Labels.defined [instruction] ++ Labels.defined rest := by
      rw [Labels.defined, Labels.defined, Labels.defined, ← List.filterMap_append]
      rfl
    rw [hdefined, labelsOf_append, List.append_assoc] at h ⊢
    refine (meets_instruction h).bind fun next hnext => ?_
    exact (ih next (h.settles hnext)).mono fun _ => hnext.trans

/-- The prologue binds the label of a routine. -/
theorem labels_prologue (start : Label) (locals : Nat) :
    boundLabels (prologue start locals) = [start] ∧ branchLabels (prologue start locals) = [] := by
  have hlocals : Plain (if locals = 0 then [] else
      .movImm .rax sentinel :: List.replicate locals (.push .rax)) := by
    have hfill : Plain [.movImm .rax sentinel] := ⟨rfl, rfl⟩
    have hpush : Plain [.push .rax] := ⟨rfl, rfl⟩
    split
    · exact .nil
    · exact hfill.append (hpush.replicate locals)
  rw [prologue, boundLabels_append, branchLabels_append, hlocals.bound, hlocals.branch]
  exact ⟨rfl, rfl⟩

/-- A routine binds its label and those that its instructions define. -/
theorem meets_emitRoutine {routines : RoutineLabels} {home : Program} {routine : Routine}
    {start : Label} (hstart : routines.lookup (home.moduleName, routine.name) = some start)
    (h : em.Tidy (start :: pending))
    (hroutines : routines.map Prod.snd ⊆ em.known (start :: pending)) :
    Meets (emitRoutine routines home em routine) fun em' =>
      em.Settles (start :: pending) em' pending := by
  rcases hlabels : codeLabels em [] routine.code.toList with ⟨labels, labeled⟩
  have hhanded := hlabels
  rw [codeLabels_eq] at hhanded
  obtain ⟨hsettles, hown, -⟩ := h.settles_handOut routine.nodup_defined hhanded
  -- the label of the routine is bound in front of those that its instructions define
  obtain ⟨hbound, hbranch⟩ := labels_prologue start (FrameLayout.ofRoutine routine).locals
  have hperm : (labelsOf labels (Labels.defined routine.code.toList) ++ start :: pending).Perm
      (boundLabels (prologue start (FrameLayout.ofRoutine routine).locals) ++
        (labelsOf labels (Labels.defined routine.code.toList) ++ pending)) := by
    rw [hbound]
    exact List.perm_middle
  have hplain : branchLabels (prologue start (FrameLayout.ofRoutine routine).locals) ⊆
      boundLabels (prologue start (FrameLayout.ofRoutine routine).locals) ++ [] := by
    rw [hbranch]
    exact List.nil_subset _
  have hopened := hsettles.tidy.settles_emitAll [] hperm hplain (List.nil_subset _)
  let rc : RoutineCompiler :=
    { program := home, routine, layout := FrameLayout.ofRoutine routine, routines, labels }
  have hserves : rc.Serves _ (labelsOf labels (Labels.defined routine.code.toList) ++ pending) :=
    ⟨hopened.tidy, fun _ hmem => hopened.known (hown hmem),
      fun _ hmem => hopened.known (hsettles.known (hroutines hmem))⟩
  have hcode := (meets_code hserves).bind fun last hlast =>
    (show Meets (pure (RoutineCompiler.failWith last (.ranOff routine.kind routine.name)))
        fun em' => em.Settles (start :: pending) em' pending from
      hsettles.trans (hopened.trans (hlast.trans (settles_failWith hlast.tidy _))))
  unfold emitRoutine
  simp only [hstart, Option.getD_some, hlabels]
  exact hcode

/-! ## Programs -/

theorem tidy_empty : Emitter.empty.Tidy [] :=
  ⟨List.nodup_nil, List.forall_mem_nil _, List.nil_subset _, List.nodup_nil, rfl⟩

/-- The entry stub branches to the entrypoint. -/
theorem labels_entryStub (entry : Label) {copies : List Instr} (h : Plain copies) :
    boundLabels (entryStub entry copies) = [] ∧ branchLabels (entryStub entry copies) = [entry] := by
  rw [entryStub]
  simp only [boundLabels_append, branchLabels_append, h.bound, h.branch]
  exact ⟨rfl, rfl⟩

/-- The routines of a module bind their labels. -/
theorem meets_emitRoutines {routines : RoutineLabels} {home : Program}
    (hkeys : ∀ routine ∈ home.routines, ∃ label,
      routines.lookup (routineKey home routine) = some label)
    (h : em.Tidy (labelsOf routines (home.routines.map (routineKey home)) ++ pending))
    (hroutines : routines.map Prod.snd ⊆
      em.known (labelsOf routines (home.routines.map (routineKey home)) ++ pending)) :
    Meets (emitRoutines routines em home) fun em' =>
      em.Settles (labelsOf routines (home.routines.map (routineKey home)) ++ pending) em'
        pending := by
  have hown : labelsOf routines (home.routines.map (routineKey home)) =
      home.routines.flatMap fun routine => labelsOf routines [routineKey home routine] := by
    rw [List.map_eq_flatMap, labelsOf_flatMap]
  rw [hown] at h hroutines ⊢
  refine meets_foldlM _ (routines.map Prod.snd) (fun em pending routine hmem h hknown => ?_) h
    hroutines
  obtain ⟨start, hstart⟩ := hkeys routine hmem
  have hlabel : labelsOf routines [routineKey home routine] = [start] :=
    List.filterMap_cons_some hstart
  rw [hlabel] at h hknown ⊢
  exact meets_emitRoutine hstart h hknown

/-- Everything but the stubs leaves no label pending. -/
theorem meets_emitProgram (program : Program) (entry : Routine) (results : Nat) :
    Meets (emitProgram program entry results) fun em =>
      ∃ last : Emitter, last.Tidy [] ∧ em = last.placeStubs := by
  rcases hlabels : moduleLabels .empty [] program.modules with ⟨routines, labeled⟩
  have hhanded := hlabels
  rw [moduleLabels_eq] at hhanded
  obtain ⟨hsettles, hown, hkeys⟩ :=
    tidy_empty.settles_handOut (nodup_routineKeys program.nodup_modules) hhanded
  rw [labelsOf_flatMap] at hsettles hown
  unfold emitProgram
  simp only [hlabels]
  split
  · trivial
  · next label hlabel =>
    refine (meets_copyResults results).bind fun copies hcopies => ?_
    obtain ⟨hbound, hbranch⟩ := labels_entryStub label hcopies
    have hmem := hown (mem_of_lookup hlabel)
    have hopened := hsettles.tidy.settles_emitAll [label] (by rw [hbound]; exact .refl _)
      (by rw [hbranch]; exact List.subset_append_right _ _)
      (List.cons_subset.2 ⟨hmem, List.nil_subset _⟩)
    refine (meets_foldlM _ (routines.map Prod.snd) (fun em pending home hhome h hknown => ?_)
      hopened.tidy fun _ hmem => hopened.known (hown hmem)).bind fun last hlast =>
        ⟨last, hlast.tidy, rfl⟩
    refine meets_emitRoutines (fun routine hroutine => hkeys _ ?_) h hknown
    exact List.mem_flatMap.2 ⟨home, hhome, List.mem_map_of_mem hroutine⟩

theorem meets_resultTypes (names : List String) : Meets (resultTypes names) fun _ => True := by
  have hname (name : String) :
      Meets ((resultType name).map (Polyname.base name, ·)) fun _ => True := by
    have htype : Meets (resultType name) fun _ => True := by
      unfold resultType
      split <;> trivial
    exact htype.map fun _ _ => trivial
  exact (Meets.mapM hname names).mono fun _ _ => trivial

theorem meets_checkLayouts (modules : List Program) :
    Meets (modules.forM checkLayout) fun _ => True := by
  induction modules with
  | nil => trivial
  | cons home rest ih =>
    have hfirst : Meets (checkLayout home) fun _ => True := by
      unfold checkLayout
      split <;> trivial
    exact hfirst.bind fun _ _ => ih

/-- The stubs of the code of a program: they lie behind everything else, one for each message, and
their labels differ.  Whatever fails in the code of a routine goes to the stub of its message. -/
structure Stubbed (code : NativeCode) (program : Program) (routines : RoutineLabels)
    (stubs : List (String × Label)) : Prop where
  messages : (stubs.map Prod.fst).Nodup
  labels : (stubs.map Prod.snd).Nodup
  placed : ∃ others, code.instrs.toList =
    others ++ stubs.flatMap fun stub => faultStub stub.1 stub.2
  routine : ∀ home ∈ program.modules, ∀ routine ∈ home.routines, ∃ n labels body last,
    code.At n (prologue ((routines.lookup (home.moduleName, routine.name)).getD 0)
      (FrameLayout.ofRoutine routine).locals ++ body ++ last) ∧
    RoutineCompiler.Translates
      { program := home, routine, layout := FrameLayout.ofRoutine routine, routines, labels }
      stubs routine.code.toList body ∧
    FailCode stubs (.ranOff routine.kind routine.name) last

/-- What has been emitted for a program has its stubs. -/
theorem exists_stubbed {program : Program} {entry : Routine} {results : Nat} {last : Emitter}
    (h : emitProgram program entry results = .ok last.placeStubs) (htidy : last.Tidy []) :
    ∃ routines, ∀ code : NativeCode, code.instrs = last.placeStubs.instrs →
      Stubbed code program routines last.stubs := by
  obtain ⟨routines, _, _, _, final, _, _, hlast, -, -, -, -, hroutines⟩ :=
    exists_step_of_emitProgram h
  have hstubs : final.stubs = last.stubs := (congrArg Emitter.stubs hlast).symm
  obtain ⟨-, hlabels, -⟩ := List.nodup_append.1 htidy.nodup
  refine ⟨routines, fun code hinstrs => ?_⟩
  have hkept : final.instrs.toList <+: code.instrs.toList := by
    rw [hinstrs, hlast]
    exact (final.emits_emitAll _).isPrefix
  refine ⟨htidy.messages, by simpa using hlabels,
    ⟨last.instrs.toList, by rw [hinstrs, htidy.instrs_placeStubs]⟩,
    fun home hhome routine hmem => ?_⟩
  obtain ⟨before, after, hemit, -, ⟨rest, hrest⟩⟩ := hroutines home hhome routine hmem
  obtain ⟨labels, body, failure, hemits, hcode⟩ := exists_parts_of_emitRoutine hemit
  have hat := NativeCode.at_of_emits hemits (hrest.isPrefix.trans hkept)
  exact ⟨_, labels, body, failure, hat, hcode last.stubs (hstubs ▸ hrest.stubs)⟩

/-- The code of a program is linked, and it has its stubs. -/
theorem meets_compile (program : Program) :
    Meets (compile program) fun code =>
      code.Linked ∧ ∃ routines stubs, Stubbed code program routines stubs := by
  unfold compile
  split
  · trivial
  · next entry _ =>
    refine (meets_resultTypes _).bind fun results _ => ?_
    refine (meets_checkLayouts _).bind fun _ _ => ?_
    refine (meets_emitProgram program entry results.length).and_eq.bind ?_
    rintro em ⟨hem, last, htidy, rfl⟩
    obtain ⟨linked, hlink⟩ := htidy.exists_link
    obtain ⟨routines, hstubs⟩ := exists_stubbed hem htidy
    simp only [hlink]
    exact ⟨⟨linked, hlink⟩, routines, last.stubs, hstubs _ rfl⟩

/-- Compiling a program, whether it is linked to others or not and whatever the checks say of it,
refuses it or makes code of it that is linked.  In the code every label to which an instruction
branches is bound at exactly one place, and failures with the same message have the same stub and
failures with different messages have different ones. -/
theorem linked_of_compile (program : Program) :
    match compile program with
    | .ok code =>
      (∀ instr ∈ code.instrs, ∀ label, instr.target? = some label →
        ∃! position : Nat, code.instrs[position]? = some (.bind label)) ∧
      ∃ routines stubs, Stubbed code program routines stubs
    | .error e => e.IsRefusal := by
  have hmeets := meets_compile program
  cases hcompile : compile program with
  | error e =>
    rw [hcompile] at hmeets
    exact hmeets
  | ok code =>
    rw [hcompile] at hmeets
    obtain ⟨hlinked, hstubs⟩ := hmeets
    refine ⟨fun instr hmem label htarget => ?_, hstubs⟩
    obtain ⟨i, hi⟩ := Array.getElem?_of_mem hmem
    obtain ⟨j, hunique, -⟩ := hlinked.exists_place hi htarget
    exact ⟨j, (hunique j).2 rfl, fun k hk => (hunique k).1 hk⟩

end Native
end Gobstones
