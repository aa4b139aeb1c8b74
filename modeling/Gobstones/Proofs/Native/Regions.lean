import Gobstones.Proofs.Native.Assembly
/-!
# Regions of native code

This module says where the pieces of a program lie in its native code.  The entry stub
comes first, then come the routines, each as the emitter has emitted it, and the fault
stubs follow.  What is emitted stays, so the code of a routine lies behind what had been
emitted before it.

Main definitions:

- {lit}`routineCompiler`: what the emitter uses for the instructions of a routine.
- {lit}`NativeCode.Generates`: the code of a routine in the code of a program.
- {lit}`Regions`: the three regions of the code of a program.
- {lit}`Emitted`: what has been emitted for each of them.

Main results:

- Theorem {lit}`emitted_of_compile`: the code of a program has these regions and nothing else.
-/

namespace Gobstones
namespace Native

variable {em em' : Emitter} {routines : RoutineLabels} {program home : Program}
variable {routine : Routine} {code : NativeCode}

/-! ## Emitting one item after the other -/

theorem Emitter.Emits.isPrefix {instrs : List Instr} (h : em.Emits em' instrs) :
    em.instrs.toList <+: em'.instrs.toList :=
  ⟨instrs, h.instrs.symm⟩

/-- An emitter is followed by another one, whatever is emitted between them. -/
def Emitter.Precedes (em em' : Emitter) : Prop :=
  ∃ instrs, em.Emits em' instrs

theorem Emitter.Precedes.size_le (h : em.Precedes em') : em.instrs.size ≤ em'.instrs.size := by
  obtain ⟨instrs, hemits⟩ := h
  have hlength := congrArg List.length hemits.instrs
  rw [List.length_append, Array.length_toList, Array.length_toList] at hlength
  omega

/-- Every item of a list is emitted at some point. -/
theorem exists_step_of_foldlM {α : Type} {f : Emitter → α → Except NativeError Emitter}
    {items : List α} (hf : ∀ em em' item, f em item = .ok em' → em.Precedes em')
    (h : items.foldlM f em = .ok em') :
    em.Precedes em' ∧ ∀ item ∈ items, ∃ before after,
      em.Precedes before ∧ f before item = .ok after ∧ after.Precedes em' := by
  induction items generalizing em with
  | nil =>
    obtain rfl := Except.ok.inj h
    exact ⟨⟨[], .refl em⟩, by simp⟩
  | cons item items ih =>
    rw [List.foldlM_cons] at h
    obtain ⟨next, hfirst, h⟩ := exists_of_bind_eq_ok h
    obtain ⟨hrest, hitems⟩ := ih h
    obtain ⟨first, hemits⟩ := hf em next item hfirst
    obtain ⟨rest, hemits'⟩ := hrest
    refine ⟨⟨_, hemits.trans hemits'⟩, fun other hother => ?_⟩
    rcases List.mem_cons.1 hother with rfl | hother
    · exact ⟨em, next, ⟨[], .refl em⟩, hfirst, ⟨rest, hemits'⟩⟩
    · obtain ⟨before, after, ⟨_, hbefore⟩, hafter⟩ := hitems other hother
      exact ⟨before, after, ⟨_, hemits.trans hbefore⟩, hafter⟩

/-! ## Code of routines -/

/-- What the emitter uses for the instructions of a routine, and the emitter after the frame of
the routine has been opened. -/
def routineCompiler (routines : RoutineLabels) (program : Program) (em : Emitter)
    (routine : Routine) : RoutineCompiler × Emitter :=
  let labeled := codeLabels em [] routine.code.toList
  let layout := FrameLayout.ofRoutine routine
  ({ program, routine, layout, routines, labels := labeled.1 },
    labeled.2.emitAll
      (prologue ((routines.lookup (program.moduleName, routine.name)).getD 0) layout.locals))

theorem emitRoutine_eq_ok (h : emitRoutine routines home em routine = .ok em') :
    ∃ last, (routineCompiler routines home em routine).1.code
        (routineCompiler routines home em routine).2 routine.code.toList = .ok last ∧
      last.Precedes em' := by
  have h : ((routineCompiler routines home em routine).1.code
      (routineCompiler routines home em routine).2 routine.code.toList >>= fun em =>
        pure (RoutineCompiler.failWith em (.ranOff routine.kind routine.name))) = .ok em' := h
  obtain ⟨last, hlast, h⟩ := exists_of_bind_eq_ok h
  obtain rfl := Except.ok.inj h
  obtain ⟨instrs, hemits, -⟩ := emits_failWith last (.ranOff routine.kind routine.name)
  exact ⟨last, hlast, instrs, hemits⟩

/-- The code of a routine of a module in the code of a program: it lies behind what had been
emitted {lit}`before` it, and it is the last of what had been emitted {lit}`after` it. -/
structure NativeCode.Generates (code : NativeCode) (routines : RoutineLabels) (home : Program)
    (routine : Routine) (before after : Emitter) : Prop where
  emits : emitRoutine routines home before routine = .ok after
  kept : after.instrs.toList <+: code.instrs.toList

/-- What has been emitted by an emitter lies in the code. -/
theorem NativeCode.at_of_emits {instrs : List Instr} (h : em.Emits em' instrs)
    (hkept : em'.instrs.toList <+: code.instrs.toList) : code.At em.instrs.size instrs := by
  have hat := code.at_of_prefix hkept
  rw [h.instrs, NativeCode.at_append_iff] at hat
  simpa using hat.2

/-- The code of a routine begins with the place of its label. -/
theorem NativeCode.Generates.start {before after : Emitter} {label : Label}
    (h : code.Generates routines home routine before after)
    (hlabel : routines.lookup (home.moduleName, routine.name) = some label) :
    code.instrs[before.instrs.size]? = some (.bind label) := by
  obtain ⟨instrs, hemits, hcode⟩ := emits_emitRoutine h.emits
  obtain ⟨_, _, _, rfl, -⟩ := hcode _ (fun _ hmem => hmem)
  have hat := NativeCode.at_of_emits hemits h.kept
  rw [hlabel] at hat
  exact hat 0 _ rfl

/-! ## Regions -/

/-- The regions of the code of a program.  The first instructions are the entry stub; the
routines of all modules lie between them and the last ones, which are the stubs of messages. -/
structure Regions (code : NativeCode) (program : Program) (entry : Routine)
    (routines : RoutineLabels) (stubs : List (String × Label)) (first last : Nat) : Prop where
  linked : code.Linked
  entrypoint : program.entrypoint? = some entry
  layout : ∀ home ∈ program.modules, home.layoutProblems = []
  start : ∃ label copies, routines.lookup (program.moduleName, entry.name) = some label ∧
    copyResults code.results.length = .ok copies ∧ code.At 0 (entryStub label copies) ∧
    (entryStub label copies).length = first
  routine : ∀ home ∈ program.modules, ∀ routine ∈ home.routines, ∃ before after,
    code.Generates routines home routine before after ∧ first ≤ before.instrs.size ∧
      after.instrs.size ≤ last ∧ after.stubs ⊆ stubs
  size : last ≤ code.instrs.size
  stub : ∀ stub ∈ stubs, ∃ n, last ≤ n ∧ code.At n (faultStub stub.1 stub.2)

/-- What has been emitted for the regions of the code of a program: the entry stub first, then the
routines module by module, and at last the stubs of all messages. -/
structure Emitted (code : NativeCode) (program : Program) (routines : RoutineLabels)
    (stubs : List (String × Label)) (opened closed : Emitter) : Prop where
  start : ∃ label copies, opened.instrs.toList = entryStub label copies
  emits : program.modules.foldlM (emitRoutines routines) opened = .ok closed
  requested : closed.stubs = stubs
  placed : code.instrs.toList =
    closed.instrs.toList ++ stubs.flatMap fun stub => faultStub stub.1 stub.2

/-- The requested stubs are placed behind the rest of the code. -/
theorem exists_stub_of_placeStubs {em : Emitter} (hplaced : em.placed = 0)
    (hinstrs : code.instrs = em.placeStubs.instrs) {stub : String × Label}
    (hstub : stub ∈ em.stubs) :
    ∃ n, em.instrs.size ≤ n ∧ code.At n (faultStub stub.1 stub.2) := by
  obtain ⟨front, rest, hstubs⟩ := List.append_of_mem hstub
  have hcode : code.instrs.toList = em.instrs.toList ++
      (front.flatMap (fun stub => faultStub stub.1 stub.2) ++ (faultStub stub.1 stub.2 ++
        rest.flatMap fun stub => faultStub stub.1 stub.2)) := by
    rw [hinstrs, Emitter.placeStubs, hplaced, List.drop_zero, Emitter.instrs_emitAll, hstubs]
    simp
  have hat := code.at_zero
  rw [hcode, NativeCode.at_append_iff, NativeCode.at_append_iff, NativeCode.at_append_iff] at hat
  refine ⟨_, ?_, hat.2.2.1⟩
  rw [Array.length_toList]
  omega

/-- What is emitted for a program: behind the entry stub every routine is emitted at some point,
and at the end the requested stubs are placed. -/
theorem exists_step_of_emitProgram {entry : Routine} {results : Nat}
    (h : emitProgram program entry results = .ok em) :
    ∃ routines label copies opened last,
      routines.lookup (program.moduleName, entry.name) = some label ∧
      copyResults results = .ok copies ∧ em = last.placeStubs ∧ last.placed = 0 ∧
      opened.instrs.toList = entryStub label copies ∧
      program.modules.foldlM (emitRoutines routines) opened = .ok last ∧
      entryStub label copies <+: last.instrs.toList ∧
      ∀ home ∈ program.modules, ∀ routine ∈ home.routines, ∃ before after,
        emitRoutine routines home before routine = .ok after ∧
          (entryStub label copies).length ≤ before.instrs.size ∧ after.Precedes last := by
  obtain ⟨routines, label, copies, opened, last, hlabel, hcopies, hopened, hlast, rfl⟩ :=
    emitProgram_eq_ok h
  have hroutine (em em' : Emitter) (home : Program) (routine : Routine)
      (h : emitRoutine routines home em routine = .ok em') : em.Precedes em' := by
    obtain ⟨instrs, hemits, -⟩ := emits_emitRoutine h
    exact ⟨instrs, hemits⟩
  have hmodule (em em' : Emitter) (home : Program)
      (h : emitRoutines routines em home = .ok em') :=
    exists_step_of_foldlM (fun _ _ _ => hroutine _ _ home _) h
  obtain ⟨⟨body, hbody⟩, hmodules⟩ :=
    exists_step_of_foldlM (fun em em' home h => (hmodule em em' home h).1) hlast
  refine ⟨routines, label, copies, _, last, hlabel, hcopies, rfl, (hopened.trans hbody).placed,
    hopened.instrs, hlast, ⟨body, (hopened.trans hbody).instrs.symm⟩,
    fun home hhome routine hmem => ?_⟩
  obtain ⟨_, _, hbefore, hemit, ⟨rest, hrest⟩⟩ := hmodules home hhome
  obtain ⟨before, after, hbefore', hemit, ⟨rest', hrest'⟩⟩ :=
    (hmodule _ _ home hemit).2 routine hmem
  refine ⟨before, after, hemit, ?_, ⟨_, hrest'.trans hrest⟩⟩
  have hsize := (hbefore.size_le).trans hbefore'.size_le
  have hlength := congrArg List.length hopened.instrs
  simp only [Emitter.empty, List.nil_append, Array.length_toList] at hlength
  omega

/-- The code of a program has an entry stub, the routines of all modules, and stubs. -/
theorem emitted_of_compile (h : compile program = .ok code) :
    ∃ entry routines stubs opened closed, Emitted code program routines stubs opened closed ∧
      Regions code program entry routines stubs opened.instrs.size closed.instrs.size := by
  obtain ⟨entry, em, hentry, hresults, hlayout, hem, hinstrs, hlinked⟩ := compile_eq_ok h
  obtain ⟨routines, label, copies, opened, last, hlabel, hcopies, rfl, hplaced, hopened, hlast,
    hstart, hroutines⟩ := exists_step_of_emitProgram hem
  have hkept : last.instrs.toList <+: code.instrs.toList := by
    rw [hinstrs]
    exact (last.emits_emitAll _).isPrefix
  have hfirst : (entryStub label copies).length = opened.instrs.size := by
    rw [← hopened, Array.length_toList]
  refine ⟨entry, routines, last.stubs, opened, last, ⟨⟨label, copies, hopened⟩, hlast, rfl, ?_⟩,
    hlinked, hentry, hlayout, ⟨label, copies, hlabel, hcopies,
      NativeCode.at_of_prefix (hstart.trans hkept), hfirst⟩, fun home hhome routine hmem => ?_,
    ?_, fun stub hstub => exists_stub_of_placeStubs hplaced hinstrs hstub⟩
  · rw [hinstrs, Emitter.placeStubs, hplaced, List.drop_zero, Emitter.instrs_emitAll]
    simp
  · obtain ⟨before, after, hemit, hsize, hafter⟩ := hroutines home hhome routine hmem
    have hlast := hafter.size_le
    obtain ⟨rest, hrest⟩ := hafter
    exact ⟨before, after, ⟨hemit, hrest.isPrefix.trans hkept⟩, hfirst ▸ hsize, hlast,
      hrest.stubs⟩
  · simpa using hkept.length_le

theorem regions_of_compile (h : compile program = .ok code) :
    ∃ entry routines stubs first last, Regions code program entry routines stubs first last := by
  obtain ⟨entry, routines, stubs, opened, closed, -, hregions⟩ := emitted_of_compile h
  exact ⟨entry, routines, stubs, _, _, hregions⟩

end Native
end Gobstones
