import Gobstones.Proofs.Machine.Rollback
import Gobstones.Proofs.Native.Regions
/-!
# Call sites of native code

This module ties calls in native code to the routines that they enter.  The emitter emits
the routines one after the other, so a piece of the code was generated from a certain
routine of a certain module, and each of its calls from a certain instruction.  Labels of
routines are looked up by the name of a module and of a routine.  As long as the modules
behind a program have names of their own, a call therefore leads to the code that was
generated from the routine that the stack machine enters.  Of two modules with one name
only the first is compiled.

Main definitions:

- {lit}`NativeCode.CallSite`: the native call that was generated from a call.

Main results:

- Theorem {lit}`call_enters_callee`: native calls enter the routines that the stack machine
  enters.
- Theorem {lit}`call_of_namesakes`: with two modules of one name, a native call enters the
  wrong routine.
-/

namespace Gobstones
namespace Native

variable {em em' : Emitter} {routines : RoutineLabels} {program home : Program}
variable {routine : Routine} {code : NativeCode}

/-! ## Places of calls -/

/-- A call among the instructions of a routine is emitted after the instructions in front of
it. -/
theorem RoutineCompiler.exists_step_of_code {rc : RoutineCompiler}
    {instructions : List Instruction} (h : rc.code em instructions = .ok em') {i : Nat}
    {name : String} {argc : Nat} (hi : instructions[i]? = some (.call name argc)) :
    ∃ before after, rc.code em (instructions.take i) = .ok before ∧
      rc.call before name argc = .ok after ∧ after.instrs.toList <+: em'.instrs.toList := by
  fun_induction RoutineCompiler.code rc em instructions generalizing i with
  | case1 em => simp at hi
  | case2 em n rest ih =>
    obtain ⟨next, hfirst, h⟩ := exists_of_bind_eq_ok h
    obtain _ | _ | i := i
    · simp at hi
    · simp at hi
    · obtain ⟨before, after, hbefore, hafter⟩ := ih next h (by simpa using hi)
      refine ⟨before, after, ?_, hafter⟩
      simp only [List.take_succ_cons, RoutineCompiler.code, hfirst, bind, Except.bind, hbefore]
  | case3 em instruction rest hnone ih =>
    obtain ⟨next, hfirst, hrest⟩ := exists_of_bind_eq_ok h
    cases i with
    | zero =>
      obtain rfl : instruction = .call name argc := by simpa using hi
      obtain ⟨instrs, hemits, -⟩ := emits_code hrest
      exact ⟨em, next, rfl, hfirst, hemits.isPrefix⟩
    | succ i =>
      obtain ⟨before, after, hbefore, hafter⟩ := ih next hrest (by simpa using hi)
      refine ⟨before, after, ?_, hafter⟩
      have hleave : instruction ≠ .leave := by
        rintro rfl
        cases hfirst
      rw [List.take_succ_cons, RoutineCompiler.code]
      · rw [hfirst]
        exact hbefore
      · rintro n other rfl
        exact (hleave rfl).elim

/-- The position of the native call that was generated from the call at {lit}`ip`: as many
instructions had been emitted before, the instructions of the routine in front of the call
included. -/
def NativeCode.CallSite (code : NativeCode) (routines : RoutineLabels) (home : Program)
    (routine : Routine) (ip site : Nat) : Prop :=
  ∃ before after here, code.Generates routines home routine before after ∧
    (routineCompiler routines home before routine).1.code
      (routineCompiler routines home before routine).2 (routine.code.toList.take ip) = .ok here ∧
    here.instrs.size = site

/-! ## Calls -/

/-- A native call enters the routine that the stack machine enters: its label is bound at the
start of what was generated from that routine of that module. -/
theorem call_enters_callee (hcompile : compile program = .ok code)
    (hnames : program.NamesModules) (howns : program.Owns home routine) {ip : Nat}
    {name : String} {argc : Nat} (hcall : routine.code[ip]? = some (.call name argc))
    {target : Program} {callee : Routine} (hcallee : home.callee? name = some (target, callee))
    (harity : callee.arity = argc) :
    ∃ routines site label before after, code.CallSite routines home routine ip site ∧
      code.instrs[site]? = some (.call label) ∧
      code.Generates routines target callee before after ∧
      code.instrs[before.instrs.size]? = some (.bind label) ∧
      code.place label = some (before.instrs.size + 1) ∧
      (∀ p next : Processor, p.position = site →
        p.step code.instrs code.place = .running next →
          next.position = before.instrs.size + 1) ∧
      ∀ machine next : Machine, ∀ top callers, machine.frames = top :: callers →
        top.program = home → top.routine = routine → top.ip = ip →
          machine.step = (next, .running) →
            ∃ locals, next.frames = .new target callee locals :: machine.frames := by
  obtain ⟨_, routines, _, _, _, hregions⟩ := regions_of_compile hcompile
  have hlinked := hregions.linked
  obtain ⟨outer, outer', hhere, -⟩ :=
    hregions.routine home (Program.mem_modules hnames howns.reaches) routine howns.mem
  have howns' := howns.callee hcallee
  obtain ⟨before, after, hthere, -⟩ :=
    hregions.routine target (Program.mem_modules hnames howns'.reaches) callee howns'.mem
  obtain ⟨last, hlast, _, hlast'⟩ := emitRoutine_eq_ok hhere.emits
  have hkept := hlast'.isPrefix
  obtain ⟨here, next, hbefore, hnext, hkept'⟩ :=
    RoutineCompiler.exists_step_of_code hlast (by simpa using hcall)
  obtain ⟨instrs, hemits, hcode⟩ := emits_call hnext
  have hcode := hcode _ (fun _ hmem => hmem)
  have hat := NativeCode.at_of_emits hemits ((hkept'.trans hkept).trans hhere.kept)
  have hcallcode : (routineCompiler routines home outer routine).1.RoutineCallCode next.stubs target
      callee argc instrs := by
    unfold Program.callee? at hcallee
    unfold RoutineCompiler.CallCode at hcode
    split at hcallee
    · next hresolve =>
      obtain ⟨rfl, rfl⟩ := Prod.mk.inj (Option.some.inj hcallee)
      have hresolve : (routineCompiler routines home outer routine).1.program.resolve? name =
        some (.own _) := hresolve
      rw [hresolve] at hcode
      exact hcode
    · next hresolve =>
      obtain ⟨rfl, rfl⟩ := Prod.mk.inj (Option.some.inj hcallee)
      have hresolve : (routineCompiler routines home outer routine).1.program.resolve? name =
        some (.external _ _) := hresolve
      rw [hresolve] at hcode
      exact hcode
    · cases hcallee
  unfold RoutineCompiler.RoutineCallCode at hcallcode
  rw [if_neg (not_not.2 harity)] at hcallcode
  obtain ⟨label, drop, results, hlabel, -, -, rfl⟩ := hcallcode
  have hinstr : code.instrs[here.instrs.size]? = some (.call label) := hat 0 _ rfl
  have hbind := hthere.start hlabel
  have hplace := hlinked.place_eq hinstr rfl hbind
  refine ⟨routines, here.instrs.size, label, before, after,
    ⟨outer, outer', here, hhere, hbefore, rfl⟩, hinstr, hthere, hbind, hplace, ?_, ?_⟩
  · intro p next hposition hstep
    unfold Processor.step at hstep
    rw [hposition, hinstr] at hstep
    simp only [Processor.perform, hplace] at hstep
    split at hstep
    · next after hafter =>
      obtain rfl := Processor.Progress.running.inj hstep
      simp only [bind, Option.bind, pure] at hafter
      split at hafter
      · cases hafter
      · obtain rfl := Option.some.inj hafter
        rfl
    · cases hstep
  · rintro machine next top callers hframes rfl rfl rfl hstep
    obtain ⟨first, others, instruction, hfirst, hinstruction, hmoves⟩ := Machine.moves_of_step hstep
    obtain ⟨rfl, rfl⟩ : top = first ∧ callers = others := by simpa [hframes] using hfirst
    obtain rfl : .call name argc = instruction := by
      simpa [Activation.instruction?, hcall] using hinstruction
    cases hmoves with
    | stay _ _ _ _ hnone => simp [hnone name argc rfl] at hcallee
    | ret _ _ hreturn => simp at hreturn
    | @call _ _ _ home' routine' locals hcallee' _ hframes' _ _ _ =>
      obtain ⟨rfl, rfl⟩ : home' = target ∧ routine' = callee := by
        simpa [hcallee] using hcallee'.symm
      exact ⟨locals, hframes'⟩

end Native

/-! ## Modules of one name -/

namespace Namesakes

/-- A function that leaves a number. -/
def leaving (n : Int64) : Routine where
  kind := .function
  name := "leaving"
  params := []
  code := #[.enter, .pushConst (.int n), .leave, .ret 1]
  targets := Array.replicate 4 none
  resolved := rfl

/-- Call the function of another module and return what it leaves. -/
def main : Routine where
  kind := .entrypoint
  name := "program"
  params := []
  code := #[.call "far" 0, .popTo "x", .returnVars 1 ["x@Int"]]
  targets := Array.replicate 3 none
  resolved := rfl

/-- A module of some name with a function that leaves two. -/
def library (moduleName : String) : Program where
  moduleName
  routines := [leaving 2]
  builtins := BuiltinTable.standard
  links := []
  distinct := by simp

/-- A program with a function of its own that leaves one, and with the function of the other
module under another name. -/
def program (moduleName : String) : Program where
  moduleName := "main"
  routines := [main, leaving 1]
  builtins := BuiltinTable.standard
  links := [⟨"far", library moduleName, "leaving"⟩]
  distinct := by decide

theorem namesModules {moduleName : String} (h : moduleName ≠ "main") :
    (program moduleName).NamesModules := by
  have hreaches {home : Program} (hhome : (program moduleName).Reaches home) :
      home = program moduleName ∨ home = library moduleName := by
    cases hhome with
    | refl => exact .inl rfl
    | link hlink hhome =>
      obtain rfl := List.mem_singleton.1 hlink
      exact .inr (hhome.eq_of_links rfl)
  intro first second hfirst hsecond hname
  rcases hreaches hfirst with rfl | rfl <;> rcases hreaches hsecond with rfl | rfl
  · rfl
  · exact (h hname.symm).elim
  · exact (h hname).elim
  · rfl

end Namesakes

namespace Native

/-- With names of their own, the call leads to the function of the other module. -/
theorem call_enters_callee_library :
    ∃ code, compile (Namesakes.program "library") = .ok code ∧
      ∃ routines site label before after,
        code.CallSite routines (Namesakes.program "library") Namesakes.main 0 site ∧
        code.instrs[site]? = some (.call label) ∧
        code.Generates routines (Namesakes.library "library") (Namesakes.leaving 2) before after ∧
        code.place label = some (before.instrs.size + 1) := by
  have hcompiles : (compile (Namesakes.program "library")).toOption.isSome := by
    decide +kernel
  cases hcompile : compile (Namesakes.program "library") with
  | error e => simp [hcompile, Except.toOption] at hcompiles
  | ok code =>
    obtain ⟨routines, site, label, before, after, hsite, hinstr, hgenerates, -, hplace, -⟩ :=
      call_enters_callee hcompile (Namesakes.namesModules (by decide))
        (Program.owns_entrypoint (rfl : (Namesakes.program "library").entrypoint? = some _))
        (rfl : Namesakes.main.code[0]? = some (.call "far" 0))
        (rfl : (Namesakes.program "library").callee? "far" =
          some (Namesakes.library "library", Namesakes.leaving 2)) rfl
    exact ⟨code, rfl, routines, site, label, before, after, hsite, hinstr, hgenerates, hplace⟩

/-- If the other module has the name of the program, no code is generated from its function.  The
call leads to the function of the program, which leaves one where the stack machine finds
two. -/
theorem call_of_namesakes :
    ∃ code, compile (Namesakes.program "main") = .ok code ∧
      (Namesakes.program "main").callee? "far" =
        some (Namesakes.library "main", Namesakes.leaving 2) ∧
      (¬ ∃ routines before after,
        code.Generates routines (Namesakes.library "main") (Namesakes.leaving 2) before after) ∧
      (∃ fuel board, code.run fuel Probe.board = some (.ok ([("x", .int 1)], board))) ∧
      ∃ fuel, ((Machine.new (Namesakes.program "main") Probe.board none).execute fuel).2 =
        .finished [("x", .int 2)] := by
  have hends : ((Machine.new (Namesakes.program "main") Probe.board none).execute 7).2 =
      .finished [("x", .int 2)] := by
    decide +kernel
  have habsent : ((compile (Namesakes.program "main")).toOption.all
      fun code => !code.instrs.contains (.pushImm 2)) = true := by
    decide +kernel
  have hruns : ((compile (Namesakes.program "main")).toOption.bind fun code =>
      ((code.run 200 Probe.board).bind Except.toOption).map Prod.fst) = some [("x", .int 1)] := by
    decide +kernel
  cases hcompile : compile (Namesakes.program "main") with
  | error e => simp [hcompile, Except.toOption] at hruns
  | ok code =>
    simp only [hcompile, Except.toOption, Option.all_some, Option.bind_some] at habsent hruns
    refine ⟨code, rfl, rfl, ?_, ?_, 7, hends⟩
    · rintro ⟨routines, before, after, hgenerates⟩
      obtain ⟨instrs, hemits, hcode⟩ := emits_emitRoutine hgenerates.emits
      obtain ⟨labels, body, last, rfl, htranslates⟩ := hcode _ (fun _ hmem => hmem)
      have hpushed : ∃ instr ∈ body, instr = .pushImm 2 := by
        have htranslates : RoutineCompiler.Translates _ _
          [.enter, .pushConst (.int 2), .leave, .ret 1] body := htranslates
        cases htranslates with
        | cons _ hrest =>
          cases hrest with
          | cons hconst _ =>
            obtain ⟨word, hword, -, rfl⟩ := hconst
            obtain rfl : 2 = word := Option.some.inj hword
            exact ⟨_, by simp [show pushWord 2 = [.pushImm 2] from rfl], rfl⟩
      obtain ⟨_, hmem, rfl⟩ := hpushed
      obtain ⟨i, hi⟩ := List.getElem?_of_mem (List.mem_append_left last
        (List.mem_append_right (prologue _ (FrameLayout.ofRoutine _).locals) hmem))
      have hthere := NativeCode.at_of_emits hemits hgenerates.kept i _ hi
      simp [Array.mem_of_getElem? hthere] at habsent
    · obtain ⟨⟨results, board⟩, hresults, rfl⟩ := Option.map_eq_some_iff.1 hruns
      obtain ⟨result, hrun, hresults⟩ := Option.bind_eq_some_iff.1 hresults
      cases result with
      | error e => cases hresults
      | ok results =>
        obtain rfl := Option.some.inj hresults
        exact ⟨200, board, hrun⟩

end Native
end Gobstones
