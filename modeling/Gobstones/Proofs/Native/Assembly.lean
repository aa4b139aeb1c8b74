import Gobstones.Proofs.Native.Emission
import Gobstones.Proofs.Program.Reach
/-!
# Assembled programs

This module says what the native code of a program consists of: the entry stub, the
code of every routine of every module behind the program, and the stubs of all
messages that the code can fail with.

Main definitions:

- {lit}`RoutineCode`: the code of a routine, up to its labels.
- {lit}`Assembled`: the code of a program.

Main results:

- Theorems {lit}`Program.mem_modules` and {lit}`Program.nodup_modules`: every module behind a
  program is compiled, and modules of one name are compiled once.
- Theorem {lit}`assembled_of_compile`: compiling a program assembles its code.
-/

namespace Gobstones

/-! ## Modules -/

namespace Program

/-- Modules that were found before stay found, the names of the targets and of the links of new
ones are found, and new ones lie behind the targets. -/
structure Finds (targets before after : List Program) : Prop where
  subset : before ⊆ after
  names : ∀ target ∈ targets, target.moduleName ∈ after.map moduleName
  links : ∀ found ∈ after, found ∈ before ∨ (∃ target ∈ targets, target.Reaches found) ∧
    ∀ link ∈ found.links, link.target.moduleName ∈ after.map moduleName

theorem Finds.nil (before : List Program) : Finds [] before before :=
  ⟨fun _ hmem => hmem, by simp, fun _ hfound => .inl hfound⟩

theorem Finds.cons {target : Program} {targets before middle after : List Program}
    (h : Finds [target] before middle) (h' : Finds targets middle after) :
    Finds (target :: targets) before after where
  subset := fun _ hmem => h'.subset (h.subset hmem)
  names other hother := by
    rcases List.mem_cons.1 hother with rfl | hother
    · exact List.map_subset _ h'.subset (h.names other List.mem_cons_self)
    · exact h'.names other hother
  links found hfound := by
    rcases h'.links found hfound with hmiddle | ⟨⟨other, hother, hreaches⟩, hlinks⟩
    · rcases h.links found hmiddle with hbefore | ⟨⟨other, hother, hreaches⟩, hlinks⟩
      · exact .inl hbefore
      · obtain rfl : other = target := by simpa using hother
        exact .inr ⟨⟨other, List.mem_cons_self, hreaches⟩,
          fun link hlink => List.map_subset _ h'.subset (hlinks link hlink)⟩
    · exact .inr ⟨⟨other, List.mem_cons_of_mem _ hother, hreaches⟩, hlinks⟩

theorem finds_modulesFrom (program : Program) (before : List Program) :
    Finds [program] before (program.modulesFrom before) := by
  rw [modulesFrom]
  split
  · next hfound =>
    refine ⟨fun _ hmem => hmem, fun target htarget => ?_, fun found hfound => .inl hfound⟩
    obtain rfl : target = program := by simpa using htarget
    simpa using hfound
  · have hfold (links : List { l // l ∈ program.links }) (found : List Program) :
        Finds (links.map (·.val.target)) found
          (links.foldl (fun found link => link.val.target.modulesFrom found) found) := by
      induction links generalizing found with
      | nil => exact .nil found
      | cons link links ih => exact (finds_modulesFrom link.val.target found).cons (ih _)
    have hall := hfold program.links.attach (before ++ [program])
    have hself := hall.subset (List.mem_append_right before List.mem_cons_self)
    refine ⟨fun _ hmem => hall.subset (List.mem_append_left _ hmem), fun target htarget => ?_,
      fun found hfound => ?_⟩
    · obtain rfl : target = program := by simpa using htarget
      exact List.mem_map_of_mem hself
    · rcases hall.links found hfound with hbefore | ⟨⟨target, htarget, hreaches⟩, hlinks⟩
      · rcases List.mem_append.1 hbefore with hbefore | hprogram
        · exact .inl hbefore
        · obtain rfl : found = program := by simpa using hprogram
          refine .inr ⟨⟨found, List.mem_cons_self, .refl⟩, fun link hlink => hall.names _ ?_⟩
          exact List.mem_map.2 ⟨⟨link, hlink⟩, List.mem_attach _ _, rfl⟩
      · obtain ⟨link, -, rfl⟩ := List.mem_map.1 htarget
        exact .inr ⟨⟨program, List.mem_cons_self, .link link.property hreaches⟩, hlinks⟩
termination_by sizeOf program
decreasing_by exact sizeOf_target_lt link.property

/-- Modules that are found have names of their own. -/
theorem nodup_modulesFrom (program : Program) {before : List Program}
    (h : (before.map moduleName).Nodup) : ((program.modulesFrom before).map moduleName).Nodup := by
  rw [modulesFrom]
  split
  · exact h
  · next hfresh =>
    have hfold (links : List { l // l ∈ program.links }) {found : List Program}
        (hfound : (found.map moduleName).Nodup) :
        ((links.foldl (fun found link => link.val.target.modulesFrom found) found).map
          moduleName).Nodup := by
      induction links generalizing found with
      | nil => exact hfound
      | cons link links ih => exact ih (nodup_modulesFrom link.val.target hfound)
    apply hfold
    rw [List.map_append, List.nodup_append]
    refine ⟨h, List.nodup_singleton _, ?_⟩
    rintro _ hmem _ hname rfl
    obtain ⟨found, hfound, hsame⟩ := List.mem_map.1 hmem
    rw [List.mem_singleton.1 hname] at hsame
    exact hfresh (List.any_eq_true.2 ⟨found, hfound, decide_eq_true hsame⟩)
termination_by sizeOf program
decreasing_by exact sizeOf_target_lt link.property

/-- The modules that are compiled have names of their own. -/
theorem nodup_modules (program : Program) : (program.modules.map moduleName).Nodup :=
  program.nodup_modulesFrom List.nodup_nil

/-- Every module behind a program is compiled, if the names of modules tell them apart. -/
theorem mem_modules {program home : Program} (hnames : program.NamesModules)
    (h : program.Reaches home) : home ∈ program.modules := by
  have hfinds := program.finds_modulesFrom []
  have hreached {found : Program} (hfound : found ∈ program.modules) :
      program.Reaches found ∧
        ∀ link ∈ found.links, link.target.moduleName ∈ program.modules.map moduleName := by
    rcases hfinds.links found hfound with hnil | ⟨⟨target, htarget, hreaches⟩, hlinks⟩
    · simp at hnil
    · obtain rfl : target = program := by simpa using htarget
      exact ⟨hreaches, hlinks⟩
  have hmem {target : Program} (htarget : program.Reaches target)
      (hname : target.moduleName ∈ program.modules.map moduleName) : target ∈ program.modules := by
    obtain ⟨found, hfound, hsame⟩ := List.mem_map.1 hname
    rwa [← hnames found target (hreached hfound).1 htarget hsame]
  have hall {first : Program} (hfirst : first.Reaches home) (hroot : program.Reaches first)
      (hfound : first ∈ program.modules) : home ∈ program.modules := by
    induction hfirst with
    | refl => exact hfound
    | link hlink _ ih =>
      have htarget : program.Reaches _ := hroot.trans (.link hlink .refl)
      exact ih h htarget (hmem htarget ((hreached hfound).2 _ hlink))
  exact hall h .refl (hmem .refl (hfinds.names program List.mem_cons_self))

end Program
namespace Native

/-! ## Pieces of code -/

namespace NativeCode

variable {code : NativeCode}

theorem at_zero : code.At 0 code.instrs.toList := by
  intro i instr hi
  simpa using hi

/-- The first piece of the code. -/
theorem at_of_prefix {instrs : List Instr} (h : instrs <+: code.instrs.toList) :
    code.At 0 instrs := by
  rcases h with ⟨rest, hcode⟩
  have hat := code.at_zero
  rw [← hcode, at_append_iff] at hat
  exact hat.1

/-- A piece of the code lies somewhere in it. -/
theorem exists_at {instrs : List Instr} (h : instrs <:+: code.instrs.toList) :
    ∃ n, code.At n instrs := by
  rcases h with ⟨front, rest, hcode⟩
  have hat := code.at_zero
  rw [← hcode, at_append_iff, at_append_iff] at hat
  exact ⟨_, hat.1.2⟩

end NativeCode

variable {em em' : Emitter} {stubs : List (String × Label)} {routines : RoutineLabels}

/-- What is emitted for the items of a list, one after the other. -/
theorem emits_foldlM {α : Type} {f : Emitter → α → Except NativeError Emitter}
    {P : List (String × Label) → α → List Instr → Prop} {items : List α}
    (hf : ∀ em em' item, f em item = .ok em' → ∃ instrs, em.Emits em' instrs ∧
      ∀ stubs, em'.stubs ⊆ stubs → P stubs item instrs) (h : items.foldlM f em = .ok em') :
    ∃ instrs, em.Emits em' instrs ∧ ∀ stubs, em'.stubs ⊆ stubs → ∀ item ∈ items,
      ∃ part, part <:+: instrs ∧ P stubs item part := by
  induction items generalizing em with
  | nil =>
    obtain rfl := Except.ok.inj h
    exact ⟨[], .refl em, by simp⟩
  | cons item items ih =>
    rw [List.foldlM_cons] at h
    obtain ⟨next, hfirst, h⟩ := exists_of_bind_eq_ok h
    obtain ⟨first, hemits, hcode⟩ := hf em next item hfirst
    obtain ⟨rest, hemits', hcodes⟩ := ih h
    refine ⟨first ++ rest, hemits.trans hemits', fun stubs hstubs other hother => ?_⟩
    rcases List.mem_cons.1 hother with rfl | hother
    · exact ⟨first, (List.prefix_append first rest).isInfix,
        hcode stubs fun _ hmem => hstubs (hemits'.stubs hmem)⟩
    · obtain ⟨part, hpart, hP⟩ := hcodes stubs hstubs other hother
      exact ⟨part, hpart.trans (List.suffix_append first rest).isInfix, hP⟩

/-! ## Routines -/

/-- The code of a routine, up to its labels: a frame is opened, and the instructions of the
routine follow.  Nothing leads past the last one. -/
def RoutineCode (routines : RoutineLabels) (stubs : List (String × Label)) (home : Program)
    (routine : Routine) (instrs : List Instr) : Prop :=
  ∃ labels body last,
    instrs = prologue ((routines.lookup (home.moduleName, routine.name)).getD 0)
      (FrameLayout.ofRoutine routine).locals ++ body ++ last ∧
    RoutineCompiler.Translates
      { program := home, routine, layout := FrameLayout.ofRoutine routine, routines, labels } stubs
      routine.code.toList body

/-- Labels are handed out without emitting anything. -/
theorem emits_codeLabels (em : Emitter) (labels : List (String × Label))
    (instructions : List Instruction) :
    em.Emits (codeLabels em labels instructions).2 [] := by
  fun_induction codeLabels em labels instructions with
  | case1 em => exact .refl em
  | case2 em labels name rest label next hfresh ih =>
    have hnext : next = em.fresh.2 := (congrArg Prod.snd hfresh).symm
    exact ih.after (hnext ▸ em.emits_fresh)
  | case3 em labels instruction rest _ ih => exact ih

/-- The parts of what is emitted for a routine.  Where control would run past the instructions,
the code fails. -/
theorem exists_parts_of_emitRoutine {home : Program} {routine : Routine}
    (h : emitRoutine routines home em routine = .ok em') :
    ∃ labels body last,
      em.Emits em' (prologue ((routines.lookup (home.moduleName, routine.name)).getD 0)
        (FrameLayout.ofRoutine routine).locals ++ body ++ last) ∧
      ∀ stubs, em'.stubs ⊆ stubs →
        RoutineCompiler.Translates
          { program := home, routine, layout := FrameLayout.ofRoutine routine, routines, labels }
          stubs routine.code.toList body ∧
        FailCode stubs (.ranOff routine.kind routine.name) last := by
  have hlabels := emits_codeLabels em [] routine.code.toList
  unfold emitRoutine at h
  rcases hnames : codeLabels em [] routine.code.toList with ⟨labels, labeled⟩
  simp only [hnames] at h hlabels
  let rc : RoutineCompiler :=
    { program := home, routine, layout := FrameLayout.ofRoutine routine, routines, labels }
  let start := (routines.lookup (home.moduleName, routine.name)).getD 0
  let opened := labeled.emitAll (prologue start rc.layout.locals)
  have h : (rc.code opened routine.code.toList >>= fun em =>
    pure (RoutineCompiler.failWith em (.ranOff routine.kind routine.name))) = .ok em' := h
  obtain ⟨next, hbody, h⟩ := exists_of_bind_eq_ok h
  obtain rfl := Except.ok.inj h
  obtain ⟨body, hemits, hcode⟩ := emits_code hbody
  obtain ⟨last, hlast, hfail⟩ := emits_failWith next (.ranOff routine.kind routine.name)
  have hopened := (labeled.emits_emitAll (prologue start rc.layout.locals)).after hlabels
  refine ⟨labels, body, last, (hopened.trans hemits).trans hlast, fun stubs hstubs => ?_⟩
  exact ⟨hcode stubs fun _ hmem => hstubs (hlast.stubs hmem), hfail stubs hstubs⟩

theorem emits_emitRoutine {home : Program} {routine : Routine}
    (h : emitRoutine routines home em routine = .ok em') :
    ∃ instrs, em.Emits em' instrs ∧
      ∀ stubs, em'.stubs ⊆ stubs → RoutineCode routines stubs home routine instrs := by
  obtain ⟨labels, body, last, hemits, hcode⟩ := exists_parts_of_emitRoutine h
  exact ⟨_, hemits, fun stubs hstubs => ⟨labels, body, last, rfl, (hcode stubs hstubs).1⟩⟩

/-! ## Programs -/

/-- Labels are handed out without emitting anything. -/
theorem emits_routineLabels (moduleName : String) (em : Emitter) (found : RoutineLabels)
    (items : List Routine) : em.Emits (routineLabels moduleName em found items).2 [] := by
  induction items generalizing em found with
  | nil => exact .refl em
  | cons routine rest ih => exact (ih _ _).after em.emits_fresh

theorem emits_moduleLabels (em : Emitter) (found : RoutineLabels) (modules : List Program) :
    em.Emits (moduleLabels em found modules).2 [] := by
  induction modules generalizing em found with
  | nil => exact .refl em
  | cons program rest ih =>
    exact (ih _ _).after (emits_routineLabels program.moduleName em found program.routines)

/-- The code of a program: it starts with the entry stub, and it contains the code of every
routine and every stub. -/
structure Assembled (code : NativeCode) (program : Program) (entry : Routine)
    (routines : RoutineLabels) (stubs : List (String × Label)) : Prop where
  linked : code.Linked
  results : resultTypes (returnedNames entry) = .ok code.results
  layout : ∀ home ∈ program.modules, home.layoutProblems = []
  start : ∃ label copies, routines.lookup (program.moduleName, entry.name) = some label ∧
    copyResults code.results.length = .ok copies ∧ code.At 0 (entryStub label copies)
  routine : ∀ home ∈ program.modules, ∀ routine ∈ home.routines,
    ∃ n instrs, code.At n instrs ∧ RoutineCode routines stubs home routine instrs
  stub : ∀ stub ∈ stubs, ∃ n, code.At n (faultStub stub.1 stub.2)

/-- What is emitted for a program: the entry stub, then the routines of every module, and at the
end the requested stubs. -/
theorem emitProgram_eq_ok {program : Program} {entry : Routine} {results : Nat}
    (h : emitProgram program entry results = .ok em) :
    ∃ routines label copies opened last,
      routines.lookup (program.moduleName, entry.name) = some label ∧
      copyResults results = .ok copies ∧ Emitter.empty.Emits opened (entryStub label copies) ∧
      program.modules.foldlM (emitRoutines routines) opened = .ok last ∧ em = last.placeStubs := by
  have hlabels := emits_moduleLabels .empty [] program.modules
  unfold emitProgram at h
  rcases hnames : moduleLabels .empty [] program.modules with ⟨routines, labeled⟩
  simp only [hnames] at h hlabels
  split at h
  · cases h
  · next label hlabel =>
    obtain ⟨copies, hcopies, h⟩ := exists_of_bind_eq_ok h
    obtain ⟨last, hbodies, h⟩ := exists_of_bind_eq_ok h
    exact ⟨routines, label, copies, _, last, hlabel, hcopies,
      (labeled.emits_emitAll (entryStub label copies)).after hlabels, hbodies,
      (Except.ok.inj h).symm⟩

/-- The code of a program contains what is emitted for it. -/
theorem emits_emitProgram {program : Program} {entry : Routine} {results : Nat}
    (h : emitProgram program entry results = .ok em) :
    ∃ routines label copies, routines.lookup (program.moduleName, entry.name) = some label ∧
      copyResults results = .ok copies ∧ entryStub label copies <+: em.instrs.toList ∧
      (∀ home ∈ program.modules, ∀ routine ∈ home.routines, ∃ instrs,
        instrs <:+: em.instrs.toList ∧ RoutineCode routines em.stubs home routine instrs) ∧
      ∀ stub ∈ em.stubs, faultStub stub.1 stub.2 <:+: em.instrs.toList := by
  obtain ⟨routines, label, copies, opened, last, hlabel, hcopies, hopened, hbodies, rfl⟩ :=
    emitProgram_eq_ok h
  have hhome (em em' : Emitter) (home : Program) (hem : emitRoutines routines em home = .ok em') :
      ∃ instrs, em.Emits em' instrs ∧ ∀ stubs, em'.stubs ⊆ stubs → ∀ routine ∈ home.routines,
        ∃ part, part <:+: instrs ∧ RoutineCode routines stubs home routine part :=
    emits_foldlM (fun _ _ _ => emits_emitRoutine) hem
  obtain ⟨instrs, hemits, hcodes⟩ := emits_foldlM hhome hbodies
  have hall := hopened.trans hemits
  have hplaced : last.placed = 0 := hall.placed
  have hinstrs : last.placeStubs.instrs.toList = entryStub label copies ++ instrs ++
      last.stubs.flatMap fun stub => faultStub stub.1 stub.2 := by
    have hcode := last.emits_emitAll (last.stubs.flatMap fun stub => faultStub stub.1 stub.2)
    have hplace := (hall.trans hcode).instrs
    simpa [Emitter.placeStubs, hplaced, Emitter.empty] using hplace
  refine ⟨routines, label, copies, hlabel, hcopies, ?_, ?_, ?_⟩
  · rw [hinstrs, List.append_assoc]
    exact List.prefix_append _ _
  · intro home hmem routine hroutine
    obtain ⟨part, hpart, hcode⟩ := hcodes last.stubs (fun _ hstub => hstub) home hmem
    obtain ⟨piece, hpiece, hcode⟩ := hcode routine hroutine
    refine ⟨piece, ?_, hcode⟩
    rw [hinstrs]
    exact (hpiece.trans hpart).trans ⟨_, _, rfl⟩
  · intro stub hstub
    rw [hinstrs]
    obtain ⟨front, rest, hstubs⟩ := List.append_of_mem hstub
    have hstubs : last.stubs = front ++ stub :: rest := hstubs
    rw [hstubs, List.flatMap_append, List.flatMap_cons, ← List.append_assoc, ← List.append_assoc]
    exact ⟨_, _, rfl⟩

/-- Only modules that are fit for native code are compiled. -/
theorem layoutProblems_of_forM {modules : List Program}
    (h : modules.forM checkLayout = .ok ()) : ∀ home ∈ modules, home.layoutProblems = [] := by
  induction modules with
  | nil => simp
  | cons first rest ih =>
    obtain ⟨_, hfirst, h⟩ := exists_of_bind_eq_ok h
    intro home hhome
    rcases List.mem_cons.1 hhome with rfl | hhome
    · unfold checkLayout at hfirst
      split at hfirst
      · next hempty => simpa using hempty
      · cases hfirst
    · exact ih h home hhome

/-- A program compiles to what is emitted for it, if all modules are fit for native code and the
linker finds all labels. -/
theorem compile_eq_ok {program : Program} {code : NativeCode} (h : compile program = .ok code) :
    ∃ entry em, program.entrypoint? = some entry ∧
      resultTypes (returnedNames entry) = .ok code.results ∧
      (∀ home ∈ program.modules, home.layoutProblems = []) ∧
      emitProgram program entry code.results.length = .ok em ∧ code.instrs = em.instrs ∧
      code.Linked := by
  unfold compile at h
  split at h
  · cases h
  · next entry hentry =>
    obtain ⟨results, hresults, h⟩ := exists_of_bind_eq_ok h
    obtain ⟨_, hlayout, h⟩ := exists_of_bind_eq_ok h
    obtain ⟨em, hem, h⟩ := exists_of_bind_eq_ok h
    split at h
    · cases h
    · next linked hlink =>
      obtain rfl := Except.ok.inj h
      exact ⟨entry, em, hentry, hresults, layoutProblems_of_forM hlayout, hem, rfl, linked, hlink⟩

/-- Compiling a program assembles its code. -/
theorem assembled_of_compile {program : Program} {code : NativeCode}
    (h : compile program = .ok code) :
    ∃ entry routines stubs, program.entrypoint? = some entry ∧
      Assembled code program entry routines stubs := by
  obtain ⟨entry, em, hentry, hresults, hlayout, hem, hinstrs, hlinked⟩ := compile_eq_ok h
  obtain ⟨routines, label, copies, hlabel, hcopies, hstart, hroutines, hstubs⟩ :=
    emits_emitProgram hem
  rw [← hinstrs] at hstart hroutines hstubs
  refine ⟨entry, routines, em.stubs, hentry, hlinked, hresults, hlayout,
    ⟨label, copies, hlabel, hcopies, NativeCode.at_of_prefix hstart⟩, ?_,
    fun stub hstub => NativeCode.exists_at (hstubs stub hstub)⟩
  intro home hhome routine hroutine
  obtain ⟨instrs, hinfix, hbody⟩ := hroutines home hhome routine hroutine
  obtain ⟨n, hat⟩ := NativeCode.exists_at hinfix
  exact ⟨n, instrs, hat, hbody⟩

/-! ## Evaluating the compiler -/

/-- Whether a program compiles can be evaluated. -/
theorem exists_compile {program : Program} (h : (compile program).toOption.isSome) :
    ∃ code, compile program = .ok code := by
  cases hcompile : compile program with
  | error e => simp [hcompile, Except.toOption] at h
  | ok code => exact ⟨code, rfl⟩

/-- What holds of the compiled code can be evaluated. -/
theorem exists_of_compile {program : Program} {P : NativeCode → Prop} [DecidablePred P]
    (h : (compile program).toOption.any (fun code => decide (P code)) = true) :
    ∃ code, compile program = .ok code ∧ P code := by
  obtain ⟨code, hcompile⟩ := exists_compile (Option.isSome_of_any h)
  exact ⟨code, hcompile, by simpa [hcompile, Except.toOption] using h⟩

end Native
end Gobstones
