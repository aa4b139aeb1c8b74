import Gobstones.Proofs.Native.Steps
/-!
# Calls and returns in native code

This module follows the instructions of the stack machine that open or leave an
activation.  A call opens a frame above the words of its caller; a return leaves the
results behind, and the caller, or in the end the host, goes on behind its call.

Main results:

- Theorem {lit}`Simulates.leads_enterRoutine`: calls of routines.
- Theorem {lit}`leads_left`: a caller goes on behind its call.
- Theorems {lit}`Simulates.leads_ret` and {lit}`Simulates.leads_leave`: returns, also those
  behind the end of a transaction.
- Theorem {lit}`Simulates.leads_returnVars`: returns of variables.
-/

namespace Gobstones
namespace Native
namespace Setting

variable {setting : Setting} {scene : Scene} {machine next : Machine} {v : View} {n : Nat}
variable {name : String} {home : Program} {callee routine : Routine} {argc : Nat}

/-! ## Calls -/

/-- A call of a routine with the right number of arguments goes on after it. -/
theorem mem_successors_of_callee (routine : Routine) {program : Program}
    (hcallee : program.callee? name = some (home, callee)) (harity : callee.arity = argc)
    (position : Nat) : position + 1 ∈ program.successors routine position (.call name argc) := by
  unfold Program.callee? at hcallee
  split at hcallee
  · next hresolve =>
    obtain ⟨rfl, rfl⟩ := Prod.mk.inj (Option.some.inj hcallee)
    rw [Machine.successors_call hresolve harity]
    exact List.mem_singleton_self _
  · next hresolve =>
    obtain ⟨rfl, rfl⟩ := Prod.mk.inj (Option.some.inj hcallee)
    rw [Machine.successors_call hresolve harity]
    exact List.mem_singleton_self _
  · cases hcallee

/-- The call of a routine opens its frame above the arguments. -/
theorem leads_open (hprepared : setting.Prepared) (howns : setting.program.Owns home callee)
    {label : Label} (hlabel : setting.routines.lookup (home.moduleName, callee.name) = some label)
    (hcall : setting.code.instrs[n]? = some (.call label)) {args lower : List Value}
    {taken below : List Word} {board : Board} {callers : List Activation}
    (harity : callee.arity = args.length) (htaken : InWords args taken)
    (hlive : v.live = taken ++ below)
    (hwaits : setting.Waits callee callers lower board below v.regs.rbp (n + 1))
    (hboard : board.Resembles setting.board) (hcarries : v.Carries board) (hhosts : setting.Hosts v)
    (hnext : next.frames =
        .new home callee (Locals.ofArguments callee.params args.reverse) :: callers ∧
      next.stack = lower ∧ next.board = board ∧ next.stepLimit = none) :
    setting.code.Leads v n (setting.Shows next) := by
  obtain ⟨hframes, hstack, rfl, hlimit⟩ := hnext
  rcases hprepared.exists_laid howns with ⟨rc, rfl, rfl, hlaid⟩
  rcases hlaid.code with ⟨m, hopen, hbody⟩
  have hbind : setting.code.instrs[m]? = some (.bind label) := by
    have hstart := hopen 0 _ rfl
    rw [hlabel] at hstart
    exact hstart
  have hplace := hprepared.assembled.linked.place_eq hcall rfl hbind
  refine .call hcall hplace (leads_prologue hopen fun v' hagrees hlive' => .done (.inl ?_))
  have hparams : rc.layout.params = args.length := by
    rw [hlaid.layout, FrameLayout.params_ofRoutine]
    exact harity
  let frame := List.replicate rc.layout.locals (.int sentinel) ++
    v.regs.rbp :: .code (n + 1) :: taken
  have hholds : rc.layout.Holds (Locals.ofArguments rc.routine.params args.reverse) frame := by
    have hreversed : InWords args.reverse taken.reverse := List.forall₂_reverse_iff.2 htaken
    have hlength : rc.routine.params.length = args.reverse.length := by
      rw [List.length_reverse]
      exact harity
    have hheld := FrameLayout.holds_arguments hlength hreversed v.regs.rbp (.code (n + 1))
    rw [List.reverse_reverse, ← hlaid.layout] at hheld
    exact hheld
  refine ⟨{
    top := .new rc.program rc.routine (Locals.ofArguments rc.routine.params args.reverse)
    callers, rc, ops := [], lower, under := next.board, words := [], saved := [], frame, below
    rbp := v.regs.rbp, ret := n + 1 }, ?_⟩
  exact
    { frames := hframes
      stack := hstack
      words := .nil
      depth := (hprepared.depthsFit howns).start
      frame :=
        { owns := howns
          program := rfl
          routine := rfl
          laid := hlaid
          holds := hholds
          length := by
            simp only [frame, List.length_append, List.length_replicate, List.length_cons,
              ← htaken.length_eq, hparams]
            omega
          caller := by simp [frame]
          ret := by simp [frame] }
      saves := by
        have houtside := (hprepared.bracketed howns).inTransaction_zero
        dsimp only [Activation.inTransaction, Activation.new]
        rw [houtside]
        exact ⟨rfl, rfl⟩
      waits := hwaits
      board := hboard
      limit := hlimit
      code := hbody
      live := by
        rw [hlive', View.push, hlive]
        simp [frame]
      rbp := by
        rw [hagrees.rbp]
        have hheight : (v.push (.code (n + 1))).live.length + 1 =
            below.length + rc.layout.params + 2 := by
          rw [View.push, hlive, List.length_cons, List.length_append, ← htaken.length_eq, hparams]
          omega
        rw [hheight]
        rfl
      carries := hagrees.carries ⟨hcarries.rbx, hcarries.r11, hcarries.r12, hcarries.r13,
        hcarries.r14, hcarries.cells⟩
      hosts := ⟨hagrees.rsi.trans hhosts.rsi, hagrees.r15.trans hhosts.r15,
        hagrees.results.trans hhosts.results⟩ }

theorem Simulates.leads_enterRoutine (hprepared : setting.Prepared)
    (h : setting.Simulates scene machine v n)
    (hinstruction : scene.top.instruction? = some (.call name argc))
    (hcallee : scene.top.program.callee? name = some (home, callee)) {first : List Instr}
    (hcode : scene.rc.RoutineCallCode setting.stubs home callee argc first)
    (hat : setting.code.At n first)
    (hrest : scene.rc.Remains setting (n + first.length)
      (scene.top.routine.code.toList.drop (scene.top.ip + 1))) :
    setting.code.Leads v n (setting.Arrives (machine.enterRoutine home callee argc)) := by
  unfold RoutineCompiler.RoutineCallCode at hcode
  by_cases harity : callee.arity = argc
  · rw [if_neg (not_not.2 harity)] at hcode
    rcases hcode with ⟨label, drop, results, hlabel, hdrop, hresults, rfl⟩
    rw [h.frame.laid.routines] at hlabel
    rcases h.exists_arguments hprepared hinstruction with
      ⟨args, ops, taken, words, hops, hargs, htaken, hwords, hpop, hlive⟩
    have hcount : ¬callee.params.length ≠ argc := not_not.2 harity
    have hdepth : scene.top.program.depthAt? scene.top.routine scene.top.ip =
        some (argc + ops.length) := by
      rw [h.depth, hops, List.length_append, hargs]
    have hresumes : scene.rc.Resumes setting (n + 1) argc callee.resultCount
        (scene.top.routine.code.toList.drop (scene.top.ip + 1)) := by
      refine ⟨drop, results, hdrop, hresults, (NativeCode.at_cons_iff.1 hat).2, ?_⟩
      rw [List.cons_append, List.length_cons, Nat.add_comm _ 1, ← Nat.add_assoc] at hrest
      exact hrest
    have hwaits : setting.Waits callee (scene.top :: scene.callers) (ops ++ scene.lower)
        machine.board (words ++ scene.saved ++ scene.frame ++ scene.below) v.regs.rbp (n + 1) := by
      rw [h.rbp]
      exact .call hinstruction hcallee harity hdepth hwords h.frame h.saves hresumes h.waits
    simp only [Machine.enterRoutine, if_neg hcount, hpop]
    exact leads_open hprepared (h.frame.owns.callee hcallee) hlabel (hat 0 _ rfl)
      (harity.trans hargs.symm) htaken hlive hwaits h.board h.carries h.hosts
      ⟨congrArg (_ :: ·) h.frames, rfl, rfl, h.limit⟩
  · rw [if_pos harity] at hcode
    have hcount : callee.params.length ≠ argc := harity
    simp only [Machine.enterRoutine, if_pos hcount]
    exact h.leads_fail hprepared hcode hat

/-! ## Going on behind a call -/

/-- A frame consists of the local variables, the two words of the call, and the arguments. -/
theorem exists_frame {frame : List Word} {locals params ret : Nat} {rbp : Word}
    (hlength : frame.length = locals + 2 + params) (hcaller : frame[locals]? = some rbp)
    (hret : frame[locals + 1]? = some (.code ret)) :
    ∃ front args, frame = front ++ rbp :: .code ret :: args ∧ args.length = params := by
  obtain ⟨hlt, hcaller⟩ := List.getElem?_eq_some_iff.1 hcaller
  obtain ⟨hlt', hret⟩ := List.getElem?_eq_some_iff.1 hret
  refine ⟨frame.take locals, frame.drop (locals + 2), ?_, ?_⟩
  · have hdrop := List.drop_eq_getElem_cons hlt
    rw [List.drop_eq_getElem_cons hlt', hcaller, hret] at hdrop
    rw [← hdrop, List.take_append_drop]
  · rw [List.length_drop, hlength]
    omega

theorem InFrame.split {activation : Activation} {rc : RoutineCompiler} {frame : List Word}
    {rbp : Word} {ret : Nat} (h : setting.InFrame activation rc frame rbp ret) :
    ∃ locals args, frame = locals ++ rbp :: .code ret :: args ∧
      args.length = activation.routine.arity ∧ rc.layout.params = activation.routine.arity := by
  have hparams : rc.layout.params = activation.routine.arity := by
    rw [h.laid.layout, FrameLayout.params_ofRoutine, h.routine]
    rfl
  obtain ⟨locals, args, hframe, hargs⟩ := exists_frame h.length h.caller h.ret
  exact ⟨locals, args, hframe, hargs.trans hparams, hparams⟩

variable {caller : Activation} {callers : List Activation} {lower ops : List Value} {board : Board}
variable {below words args : List Word} {rbp : Word} {ret : Nat} {bindings : Bindings}

/-- What is the case behind the call of a routine that has left its results behind: its frame is
gone but for the arguments. -/
structure Left (setting : Setting) (callee : Routine) (below : List Word) (rbp : Word)
    (board : Board) (v : View) : Prop where
  live : ∃ args, args.length = callee.arity ∧ v.live = args ++ below
  rbp : v.regs.rbp = rbp
  carries : v.Carries board
  hosts : setting.Hosts v
  board : board.Resembles setting.board

/-- The caller takes over the results of a call and goes on behind it. -/
theorem Left.leads_resume (hprepared : setting.Prepared) (h : setting.Left callee below rbp board v)
    (hwaits : setting.Waits callee (caller :: callers) lower board below rbp ret)
    (hops : ops.length = callee.resultCount) (hwords : InWords ops words)
    (hreturned : v.Returned words.reverse)
    (hnext : next.frames = caller.advance :: callers ∧ next.stack = ops ++ lower ∧
      next.board = board ∧ next.stepLimit = none) :
    setting.code.Leads v ret (setting.Shows next) := by
  obtain ⟨hframes, hstack, hboard, hlimit⟩ := hnext
  rcases h.live with ⟨args, hargs, hlive⟩
  cases hwaits with
  | @call _ home _ _ rc name argc ops' lower' _ under words' saved frame below' rbp' _ ret' hcall
      hcallee harity hdepth hwords' hframe hsaves hcode hcallers =>
    subst harity
    rcases hcode with ⟨drop, pushes, hdrop, hpushes, hat, hremains⟩
    rw [← hargs] at hdrop
    rw [← hops, hwords.length_eq, ← List.length_reverse] at hpushes
    have hnext := mem_successors_of_callee caller.routine hcallee rfl caller.ip
    have hinside := (Activation.Suspended.inTransaction_advance ⟨_, _, hcall⟩
      (hprepared.bracketed hframe.owns))
    refine leads_takeResults hdrop hpushes hat hlive hreturned
      fun v' hagrees hlive' => .done (.inl ?_)
    rw [List.reverse_reverse] at hlive'
    refine ⟨{
      top := caller.advance, callers, rc, ops := ops ++ ops', lower := lower', under
      words := words ++ words', saved, frame, below := below', rbp := rbp', ret := ret' }, ?_⟩
    exact
      { frames := hframes
        stack := by
          rw [hstack]
          exact (List.append_assoc _ _ _).symm
        words := List.rel_append hwords hwords'
        depth := by
          have hafter := (hprepared.depthFits hframe.owns hdepth hcall).next _ hnext
          rw [Program.depthAfter, Program.effect_call_of_callee hcallee, Nat.add_sub_cancel_left,
            Nat.add_comm ops'.length, ← hops, ← List.length_append] at hafter
          exact hafter
        frame := ⟨hframe.owns, hframe.program, hframe.routine, hframe.laid, hframe.holds,
          hframe.length, hframe.caller, hframe.ret⟩
        saves := by
          dsimp only
          rw [hinside, hboard]
          exact hsaves
        waits := hcallers
        board := by
          rw [hboard]
          exact h.board
        limit := hlimit
        code := hremains
        live := by
          rw [hlive']
          simp
        rbp := hagrees.rbp.trans h.rbp
        carries := by
          rw [hboard]
          exact hagrees.carries h.carries
        hosts := h.hosts.of_keeps hagrees.toKeeps }

/-- Only the entrypoint is called by the host. -/
theorem Waits.routine_eq_entry (h : setting.Waits routine [] lower board below rbp ret) :
    routine = setting.entry := by
  cases h
  rfl

/-- The host goes on behind the call of the entrypoint. -/
theorem Left.finishing (hprepared : setting.Prepared) (h : setting.Left callee below rbp board v)
    {under : Board} (hwaits : setting.Waits callee [] lower under below rbp ret)
    {results : List Int64} (hreturned : v.Returned (results.map Word.int))
    (hlength : results.length = setting.code.results.length)
    (hresults : List.Forall₂ (fun binding word => binding.2.toWord? = some word) bindings results)
    (hnames : bindings = [] ∨ ∃ n names, .returnVars n names ∈ setting.entry.code ∧
      resultTypes names = .ok bindings.signature) : setting.Finishing bindings board v ret := by
  rcases h.live with ⟨args, hargs, hlive⟩
  cases hwaits with
  | host =>
    rw [Routine.arity, hprepared.orderly.params] at hargs
    obtain rfl := List.eq_nil_of_length_eq_zero hargs
    exact ⟨rfl, h.hosts, hlive, h.carries, h.board, ⟨results, hreturned, hlength, hresults⟩, hnames⟩

/-- The names that a routine returns are those of one of its returns of variables. -/
theorem returnedNames_eq (routine : Routine) :
    (returnedNames routine = [] ∧ ∀ n names, .returnVars n names ∉ routine.code) ∨
      ∃ n, .returnVars n (returnedNames routine) ∈ routine.code := by
  have hnames : returnedNames routine =
      (routine.code.toList.findSome? Instruction.returned?).getD [] := rfl
  cases hfound : routine.code.toList.findSome? Instruction.returned? with
  | none =>
    rw [hfound] at hnames
    refine .inl ⟨hnames, fun n names hmem => ?_⟩
    have hnone := List.findSome?_eq_none_iff.1 hfound _ (Array.mem_toList_iff.2 hmem)
    cases hnone
  | some names =>
    rw [hfound, Option.getD_some] at hnames
    rw [hnames]
    rcases List.exists_of_findSome?_eq_some hfound with ⟨instruction, hmem, hsome⟩
    cases instruction with
    | returnVars n other =>
      obtain rfl := Option.some.inj hsome
      exact .inr ⟨n, Array.mem_toList_iff.1 hmem⟩
    | _ => cases hsome

/-- A program that returns no variables has no results. -/
theorem Prepared.results_eq_nil (hprepared : setting.Prepared)
    (hnone : ∀ n names, .returnVars n names ∉ setting.entry.code) : setting.code.results = [] := by
  have hresults := hprepared.assembled.results
  rcases returnedNames_eq setting.entry with ⟨hnames, -⟩ | ⟨n, hmem⟩
  · rw [hnames] at hresults
    exact (Except.ok.inj hresults).symm
  · exact (hnone n _ hmem).elim

/-- Fewer values are left behind, too. -/
theorem returned_nil {values : List Word} (h : v.Returned values) : v.Returned [] := by
  rcases h with ⟨gap, rest, hdead, hrdi⟩
  exact ⟨gap, values ++ rest, by simpa using hdead, hrdi⟩

/-- A routine has returned: its caller goes on behind the call, or the run has ended. -/
theorem Left.leads_left (hprepared : setting.Prepared) (h : setting.Left callee below rbp board v)
    (hwaits : setting.Waits callee callers lower board below rbp ret)
    (hops : ops.length = callee.resultCount) (hwords : InWords ops words)
    (hreturned : v.Returned words.reverse) (hstack : machine.stack = ops ++ lower)
    (hboard : machine.board = board) (hlimit : machine.stepLimit = none)
    (hvars : callers = [] → ∀ n names, .returnVars n names ∉ callee.code) :
    setting.code.Leads v ret (setting.Arrives (machine.leave callers [])) := by
  cases callers with
  | nil =>
    subst hboard
    have hnone : setting.code.results = [] := by
      apply hprepared.results_eq_nil
      rw [← hwaits.routine_eq_entry]
      exact hvars rfl
    have hlength : ([] : List Int64).length = setting.code.results.length := by
      rw [hnone]
      rfl
    have hnil : v.Returned (([] : List Int64).map Word.int) := returned_nil hreturned
    exact .done (h.finishing hprepared hwaits hnil hlength .nil (.inl rfl))
  | cons caller callers =>
    exact h.leads_resume hprepared hwaits hops hwords hreturned ⟨rfl, hstack, hboard, hlimit⟩

/-! ## Returns -/

/-- A return leaves as many values as a call of its routine expects, and nothing else. -/
theorem Prepared.count_of_ret (hprepared : setting.Prepared) (howns : setting.program.Owns home routine)
    {ip depth count : Nat} (hdepth : home.depthAt? routine ip = some depth)
    (hret : routine.code[ip]? = some (.ret count)) :
    depth = count ∧ routine.resultCount = count := by
  have hfits := hprepared.depthFits howns hdepth hret
  obtain ⟨hbalanced, hresults⟩ := Routine.returnProblems_eq_nil hret (hfits.ret_ok count rfl)
  refine ⟨hbalanced, ?_⟩
  by_cases hkind : routine.kind = .function
  · exact hresults hkind
  · have hzero := hprepared.orderly.returns home routine howns hkind count
      (Array.mem_of_getElem? hret)
    rw [Routine.resultCount, if_neg hkind, hzero]

namespace Simulates

/-- The pointer of a frame lies above its arguments and the words below them. -/
theorem rbp_eq (h : setting.Simulates scene machine v n) {args : List Word}
    (hargs : args.length = scene.rc.layout.params) :
    v.regs.rbp = .stack (-(8 * ((args ++ scene.below).length + 2 : Nat))) := by
  rw [h.rbp, framePointer, List.length_append, hargs, Nat.add_comm scene.rc.layout.params]

/-- Outside of transactions nothing lies between the operands and the frame. -/
theorem saves_of_outside (h : setting.Simulates scene machine v n)
    (houtside : scene.top.inTransaction = false) :
    scene.under = machine.board ∧ scene.saved = [] := by
  have hsaves := h.saves
  rw [houtside] at hsaves
  exact hsaves

/-- A return drops what lies above the frame and leaves the rest to the caller. -/
theorem leads_dropFrame (h : setting.Simulates scene machine v n) {v₁ : View} {between : List Word}
    {instrs : List Instr} {Q : View → Nat → Prop} (hcode : ReturnCode words.length instrs)
    (hat : setting.code.At n' instrs) (hagrees : v.Agrees v₁)
    (hlive : v₁.live = words ++ (between ++ scene.frame ++ scene.below))
    (hrest : ∀ v', setting.Left scene.top.routine scene.below scene.rbp machine.board v' →
      v'.Returned words.reverse → setting.code.Leads v' scene.ret Q) :
    setting.code.Leads v₁ n' Q := by
  rcases h.frame.split with ⟨locals, args, hframe, hargs, hparams⟩
  have hcarries := hagrees.carries h.carries
  have hhosts := h.hosts.of_keeps hagrees.toKeeps
  have hlocals : between ++ scene.frame ++ scene.below =
      (between ++ locals) ++ scene.rbp :: .code scene.ret :: (args ++ scene.below) := by
    rw [hframe]
    simp
  rw [hlocals] at hlive
  refine leads_returnCode hcode hat hlive
    (hagrees.rbp.trans (h.rbp_eq (hargs.trans hparams.symm)))
    fun v' hagrees' hlive' hreturned => hrest v' ?_ hreturned
  exact
    { live := ⟨args, hargs, hlive'⟩
      rbp := hagrees'.rbp
      carries := hagrees'.carries ⟨hcarries.rbx, hcarries.r11, hcarries.r12, hcarries.r13,
        hcarries.r14, hcarries.cells⟩
      hosts := ⟨hagrees'.rsi.trans hhosts.rsi, hagrees'.r15.trans hhosts.r15,
        hagrees'.results.trans hhosts.results⟩
      board := h.board }

theorem leads_ret (hprepared : setting.Prepared) (h : setting.Simulates scene machine v n) {count : Nat}
    (hinstruction : scene.top.instruction? = some (.ret count))
    (hsuits : machine.Suits scene.top scene.callers (.ret count)) :
    setting.code.Leads v n
      (setting.Arrives (machine.perform scene.top scene.callers (.ret count))) := by
  rcases h.split hinstruction (by simp) with ⟨first, hcode, hat, -⟩
  obtain ⟨hdepth, hresults⟩ := hprepared.count_of_ret h.frame.owns h.depth hinstruction
  have houtside : scene.top.inTransaction = false := by
    have hcode : scene.top.routine.code[scene.top.ip]? = some (.ret count) := hinstruction
    simp [Activation.inTransaction, Routine.inTransaction, hcode]
  obtain ⟨hunder, -⟩ := h.saves_of_outside houtside
  have hpop := Machine.popArguments_append scene.ops [] scene.lower
  rw [hdepth, ← h.stack] at hpop
  simp only [Machine.perform, hpop]
  rw [← hdepth, h.words.length_eq] at hcode
  have hlive : v.live = scene.words ++ (scene.saved ++ scene.frame ++ scene.below) := by
    simpa using h.live
  refine h.leads_dropFrame hcode hat (.refl v) hlive fun v' hleft hreturned => ?_
  rw [← hunder] at hleft
  exact hleft.leads_left hprepared h.waits (hdepth.trans hresults.symm) h.words hreturned h.stack
    hunder.symm h.limit hsuits

/-- At the end of a transaction the board that it has saved lies above the frame. -/
theorem saves_of_leave (hprepared : setting.Prepared) (h : setting.Simulates scene machine v n)
    (hinstruction : scene.top.instruction? = some .leave) :
    machine.board.popState = .ok scene.under ∧ scene.saved = snapshot scene.under := by
  have hbracketed := hprepared.bracketed h.frame.owns
  have hnext : scene.top.advance.ip ∈ scene.top.program.successors scene.top.routine scene.top.ip
      .leave := by
    simp [Program.successors, Program.alwaysFails, Activation.advance]
  have hroutine : scene.top.advance.routine = scene.top.routine := rfl
  obtain ⟨hinside, -⟩ :=
    (Activation.inTransaction_stay hbracketed hinstruction hroutine hnext).2.1 rfl
  have hsaves := h.saves
  rw [hinside] at hsaves
  exact hsaves

/-- The end of a transaction gives the saved board back. -/
theorem step_of_leave (hprepared : setting.Prepared) (h : setting.Simulates scene machine v n)
    (hinstruction : scene.top.instruction? = some .leave) :
    machine.step = ({ machine with
      steps := machine.steps + 1, board := scene.under
      frames := scene.top.advance :: scene.callers }, .running) := by
  obtain ⟨hpop, -⟩ := h.saves_of_leave hprepared hinstruction
  simp only [Machine.step, h.limit, h.frames, hinstruction, Machine.perform,
    Board.apply_of_outcome hpop, Option.filter_none]
  rfl

/-- The end of a transaction and the return after it. -/
theorem leads_leave (hprepared : setting.Prepared) (h : setting.Simulates scene machine v n)
    (hinstruction : scene.top.instruction? = some .leave)
    (hstep : machine.step = (next, .running)) (htame : next.TameAnywhere) :
    setting.code.Leads v n (setting.Arrives next.step) := by
  have hbracketed := hprepared.bracketed h.frame.owns
  have hnext : scene.top.advance.ip ∈ scene.top.program.successors scene.top.routine scene.top.ip
      .leave := by
    simp [Program.successors, Program.alwaysFails, Activation.advance]
  rcases hbracketed.ret_of_leave scene.top.ip hinstruction with ⟨count, hret⟩
  rcases h.code.split_leave hinstruction hret with ⟨first, hcode, hat⟩
  have hnextDepth : scene.top.program.depthAt? scene.top.routine (scene.top.ip + 1) =
      some scene.ops.length := (h.depthFits hprepared hinstruction).next _ hnext
  obtain ⟨hdepth, hresults⟩ := hprepared.count_of_ret h.frame.owns hnextDepth hret
  rcases h.frame.split with ⟨locals, args, hframe, hargs, hparams⟩
  obtain ⟨hpop, hsaved⟩ := h.saves_of_leave hprepared hinstruction
  have hlimit : machine.stepLimit = none := h.limit
  rw [h.step_of_leave hprepared hinstruction] at hstep
  obtain rfl := (Prod.mk.inj hstep).1
  have hargsPop := Machine.popArguments_append scene.ops [] scene.lower
  rw [hdepth, ← h.stack] at hargsPop
  have hcurrent : scene.top.advance.instruction? = some (.ret count) := hret
  have hsuits := (htame scene.top.advance scene.callers _ rfl hcurrent).suits (.inr rfl)
  simp only [Machine.step, hlimit, hcurrent, Machine.perform, hargsPop, Option.filter_none]
  rw [← hdepth, h.words.length_eq] at hcode
  have hlive : v.live = scene.words ++ (snapshot scene.under ++ (locals ++
      scene.rbp :: .code scene.ret :: (args ++ scene.below))) := by
    rw [h.live, hsaved, hframe]
    simp
  have hunder := h.board.popState hpop
  have hstart := hprepared.sound.toWellFormed
  refine leads_returnLeaveCode hprepared.assembled.linked h.board.toWellFormed (h.fits hprepared)
    (hunder.width.trans h.board.width.symm) (hunder.height.trans h.board.height.symm)
    ((hunder.size hstart).trans (h.board.size hstart).symm) hcode hat h.carries hlive
    (h.rbp_eq (hargs.trans hparams.symm)) ?_
  intro v' hkeeps hcarries hlive' hreturned
  have hleft : setting.Left scene.top.routine scene.below scene.rbp scene.under v' :=
    { live := ⟨args, hargs, hlive'⟩
      rbp := hkeeps.rbp
      carries := hcarries
      hosts := ⟨hkeeps.rsi.trans h.hosts.rsi, hkeeps.r15.trans h.hosts.r15,
        hkeeps.results.trans h.hosts.results⟩
      board := hunder }
  exact hleft.leads_left hprepared h.waits (hdepth.trans hresults.symm) h.words hreturned h.stack rfl
    rfl hsuits

end Simulates

/-! ## Returns of variables -/

/-- Variables are read one after the other, until one of them has no value. -/
theorem leads_reads {layout : FrameLayout} {above frame : List Word} {locals : Locals}
    {stubs : List (String × Label)} {code : NativeCode} {names : List String}
    {reads : List (List Instr)} {Q : View → Nat → Prop} (hv : v.Framed layout above frame below)
    (hlayout : layout.Separates) (hlinked : code.Linked)
    (hreads : List.Forall₂ (fun name => ReadCode layout stubs (Polyname.base name)) names reads)
    (hat : code.At n reads.flatten) (hholds : layout.Holds locals frame)
    (hvalues : ∀ name ∈ names, ∀ value, locals.get? (Polyname.base name) = some value →
      value ≠ .int Int64.maxValue)
    (hfound : ∀ bindings words v', Machine.resultBindings locals names = .ok bindings →
      List.Forall₂ (fun binding word => binding.2.toWord? = some word) bindings words →
        v.Agrees v' → v'.live = (words.map Word.int).reverse ++ v.live →
          code.Leads v' (n + reads.flatten.length) Q)
    (hmissed : ∀ name label m v', Machine.resultBindings locals names = .error name →
      ((FaultCause.uninitialized name).message, label) ∈ stubs → code.place label = some m →
        v.Agrees v' → v.live <:+ v'.live → code.Leads v' m Q) : code.Leads v n Q := by
  induction hreads generalizing v n above with
  | nil => exact hfound [] [] v rfl .nil (.refl v) rfl
  | @cons name read names reads hread _ ih =>
    rw [List.flatten_cons] at hat hfound
    obtain ⟨hat, hatRest⟩ := NativeCode.at_append_iff.1 hat
    rcases leads_readCode hv hlayout hlinked hread hat hholds with ⟨k, hvalue, hpush, hfail⟩
    simp only [Machine.resultBindings] at hfound hmissed
    cases hlocal : locals.get? (Polyname.base name) with
    | none =>
      rw [hlocal] at hvalue hmissed
      rcases hfail (Word.int.inj hvalue) with ⟨label, m, hstub, hplace, hleads⟩
      refine hleads Q fun v' hagrees hlive => ?_
      exact hmissed _ label m v' rfl hstub hplace hagrees (hlive ▸ List.suffix_refl _)
    | some value =>
      rw [hlocal] at hvalue hfound hmissed
      have hk := ne_sentinel hvalue (hvalues name List.mem_cons_self value hlocal)
      rcases hvalue with ⟨word, hword, hsame⟩
      obtain rfl := Word.int.inj hsame
      refine hpush hk Q fun v₁ hagrees hlive => ?_
      have hframed : v₁.Framed layout (.int k :: above) frame below :=
        hv.of_live (by rw [hlive, hv.live]; rfl) hagrees.rbp rfl
      refine ih hframed hatRest (fun other hother => hvalues other (List.mem_cons_of_mem _ hother))
        (fun bindings words v' hbindings hwords hagrees' hlive' => ?_)
        fun missing label m v' hmissing hstub hplace hagrees' hlive' => ?_
      · have hleads := hfound _ (k :: words) v' (by rw [hbindings]; rfl) (.cons hword hwords)
          (hagrees.trans hagrees') (by rw [hlive', hlive]; simp)
        rw [List.length_append, ← Nat.add_assoc] at hleads
        exact hleads
      · refine hmissed missing label m v' (by rw [hmissing]; rfl) hstub hplace
          (hagrees.trans hagrees') (.trans ?_ hlive')
        rw [hlive]
        exact List.suffix_cons _ _

/-- The names of returned variables say which values are returned. -/
theorem resultTypes_of_words {locals : Locals} {names : List String} {words : List Int64}
    (hbindings : Machine.resultBindings locals names = .ok bindings)
    (hwords : List.Forall₂ (fun binding word => binding.2.toWord? = some word) bindings words)
    (htypes : ∀ name ∈ names, ∀ value, locals.get? (Polyname.base name) = some value →
      (Polyname.type? name).bind ValueType.ofName? = some value.type) :
    resultTypes names = .ok bindings.signature := by
  induction names generalizing bindings words with
  | nil =>
    obtain rfl := Except.ok.inj hbindings
    rfl
  | cons name names ih =>
    rw [Machine.resultBindings] at hbindings
    cases hlocal : locals.get? (Polyname.base name) with
    | none => simp [hlocal] at hbindings
    | some value =>
      rw [hlocal] at hbindings
      obtain ⟨others, hothers, rfl⟩ := exists_of_map_eq_ok hbindings
      cases hwords with
      | cons hword hwords =>
        have hsuffix := htypes name List.mem_cons_self value hlocal
        have hscalar : resultType name = .ok value.type := by
          rw [resultType, hsuffix]
          cases value with
          | tuple items => exact (Value.not_tuple_inWord items _ ⟨_, hword, rfl⟩).elim
          | _ => rfl
        have hrest := ih hothers hwords fun other hother =>
          htypes other (List.mem_cons_of_mem _ hother)
        rw [resultTypes, List.mapM_cons, hscalar]
        change (resultTypes names >>= _) = _
        rw [hrest]
        rfl

/-- As many variables are returned as are named. -/
theorem length_resultBindings {locals : Locals} {names : List String}
    (h : Machine.resultBindings locals names = .ok bindings) : bindings.length = names.length := by
  induction names generalizing bindings with
  | nil =>
    obtain rfl := Except.ok.inj h
    rfl
  | cons name names ih =>
    rw [Machine.resultBindings] at h
    cases hlocal : locals.get? (Polyname.base name) with
    | none => simp [hlocal] at h
    | some value =>
      rw [hlocal] at h
      obtain ⟨others, hothers, rfl⟩ := exists_of_map_eq_ok h
      exact congrArg (· + 1) (ih hothers)

/-- Variables that all have values can be returned. -/
theorem exists_resultBindings {locals : Locals} {names : List String}
    (h : ∀ name ∈ names, locals.get? (Polyname.base name) ≠ none) :
    ∃ bindings, Machine.resultBindings locals names = .ok bindings := by
  induction names with
  | nil => exact ⟨[], rfl⟩
  | cons name names ih =>
    obtain ⟨value, hvalue⟩ := Option.ne_none_iff_exists'.1 (h name List.mem_cons_self)
    obtain ⟨bindings, hbindings⟩ := ih fun other hother => h other (List.mem_cons_of_mem _ hother)
    exact ⟨(Polyname.base name, value) :: bindings, by
      simp only [Machine.resultBindings, hvalue, hbindings]; rfl⟩

/-- There is a result for every returned variable. -/
theorem length_resultTypes {names : List String} {results : List (String × ValueType)}
    (h : resultTypes names = .ok results) : results.length = names.length := by
  induction names generalizing results with
  | nil =>
    obtain rfl := Except.ok.inj h
    rfl
  | cons name names ih =>
    rw [resultTypes, List.mapM_cons] at h
    obtain ⟨first, -, h⟩ := exists_of_bind_eq_ok h
    obtain ⟨rest, hrest, h⟩ := exists_of_bind_eq_ok h
    obtain rfl := Except.ok.inj h
    exact congrArg (· + 1) (ih hrest)

/-- The entrypoint returns as many variables as the host expects. -/
theorem Prepared.length_results (hprepared : setting.Prepared) {count : Nat} {names : List String}
    (hmem : .returnVars count names ∈ setting.entry.code) :
    setting.code.results.length = names.length := by
  obtain ⟨hlength, hcounts⟩ := hprepared.orderly.counts count names hmem
  rcases returnedNames_eq setting.entry with ⟨-, hnever⟩ | ⟨other, hother⟩
  · exact (hnever _ _ hmem).elim
  · obtain ⟨hlength', -⟩ := hprepared.orderly.counts _ _ hother
    rw [length_resultTypes hprepared.assembled.results, hlength', hcounts _ _ hother, hlength]

namespace Simulates

/-- Variables that are returned to another activation leave nothing behind. -/
theorem leads_discard (hprepared : setting.Prepared) (h : setting.Simulates scene machine v n)
    {names : List String} (hdiscards : Machine.Discards scene.top names) {caller : Activation}
    {callers : List Activation} (hcallers : scene.callers = caller :: callers) {v' : View}
    (hleft : setting.Left scene.top.routine scene.below scene.rbp machine.board v')
    {returned : List Word} (hreturned : v'.Returned returned) :
    setting.code.Leads v' scene.ret (setting.Arrives (machine.leave scene.callers [])) := by
  have houtside : scene.top.inTransaction = false := by
    simp [Activation.inTransaction, Routine.inTransaction, hdiscards.kind]
  obtain ⟨hunder, -⟩ := h.saves_of_outside houtside
  have hwaits := h.waits
  rw [hunder, hcallers] at hwaits
  have hempty : scene.ops = [] := by
    have hdepth := h.depth
    rw [hdiscards.depth] at hdepth
    exact List.eq_nil_of_length_eq_zero (Option.some.inj hdepth).symm
  have hcount : ([] : List Value).length = scene.top.routine.resultCount := by
    rw [Routine.resultCount, if_neg hdiscards.kind]
    rfl
  have hnext : { machine with frames := caller.advance :: callers }.stack = [] ++ scene.lower := by
    change machine.stack = _
    rw [h.stack, hempty]
  rw [hcallers]
  exact hleft.leads_resume hprepared hwaits hcount .nil (returned_nil hreturned)
    ⟨rfl, hnext, rfl, h.limit⟩

/-- Variables that the outermost activation returns are left for the host. -/
theorem finishing (hprepared : setting.Prepared) (h : setting.Simulates scene machine v n)
    {count : Nat} {names : List String} {words : List Int64} {v' : View}
    (hinstruction : scene.top.instruction? = some (.returnVars count names))
    (hcallers : scene.callers = [])
    (hsuits : machine.Suits scene.top [] (.returnVars count names))
    (hbindings : Machine.resultBindings scene.top.locals names = .ok bindings)
    (hwords : List.Forall₂ (fun binding word => binding.2.toWord? = some word) bindings words)
    (hleft : setting.Left scene.top.routine scene.below scene.rbp machine.board v')
    (hreturned : v'.Returned (words.map Word.int)) :
    setting.Finishing bindings machine.board v' scene.ret := by
  have hwaits := h.waits
  rw [hcallers] at hwaits
  have hmem : .returnVars count names ∈ setting.entry.code := by
    rw [← hwaits.routine_eq_entry]
    exact Array.mem_of_getElem? hinstruction
  have hlength : words.length = setting.code.results.length := by
    rw [hprepared.length_results hmem, ← hwords.length_eq, length_resultBindings hbindings]
  have hnames := resultTypes_of_words hbindings hwords
    fun name hname value hvalue => (hsuits name hname value hvalue).2
  exact hleft.finishing hprepared hwaits hreturned hlength hwords
    (.inr ⟨count, names, hmem, hnames⟩)

/-- A return of variables reads them.  One without a value is a failure of the outermost activation,
and no other has one. -/
theorem leads_returnVars (hprepared : setting.Prepared) (h : setting.Simulates scene machine v n)
    {count : Nat} {names : List String}
    (hinstruction : scene.top.instruction? = some (.returnVars count names))
    (hsuits : machine.SuitsAnywhere scene.top scene.callers (.returnVars count names))
    (hnamed : names.length = count) :
    setting.code.Leads v n
      (setting.Arrives (machine.perform scene.top scene.callers (.returnVars count names))) := by
  rcases h.split hinstruction (by simp) with ⟨first, ⟨reads, last, hreads, hlast, rfl⟩, hat, -⟩
  obtain ⟨hatReads, hatLast⟩ := NativeCode.at_append_iff.1 hat
  have hmatch : ¬names.length ≠ count := not_not.2 hnamed
  have hvalues (name : String) (hname : name ∈ names) (value : Value)
      (hvalue : scene.top.locals.get? (Polyname.base name) = some value) :
      value ≠ .int Int64.maxValue := by
    by_cases houtermost : scene.callers.isEmpty
    · exact (hsuits.suits (.inl houtermost) name hname value hvalue).1
    · rintro rfl
      exact ((hsuits.discards houtermost names rfl).values name hname).2 hvalue
  simp only [Machine.perform, Machine.returnVars, if_neg hmatch]
  refine leads_reads h.framed h.separates hprepared.assembled.linked hreads hatReads h.frame.holds
    hvalues (fun bindings words v₁ hbindings hwords hagrees hlive => ?_)
    fun name label m v' hmissing hstub hplace hagrees hlive => ?_
  · have hpushed : (words.map Word.int).reverse.length = count := by
      rw [List.length_reverse, List.length_map, ← hwords.length_eq,
        length_resultBindings hbindings, hnamed]
    rw [← hpushed] at hlast
    rw [h.live] at hlive
    rw [hbindings]
    refine h.leads_dropFrame hlast hatLast hagrees hlive fun v' hleft hreturned => ?_
    cases hcallers : scene.callers with
    | nil =>
      rw [hcallers] at hsuits
      rw [List.reverse_reverse] at hreturned
      exact .done (h.finishing hprepared hinstruction hcallers (hsuits.suits (.inl rfl)) hbindings
        hwords hleft hreturned)
    | cons caller callers =>
      rw [hcallers] at hsuits
      have hleads := h.leads_discard hprepared (hsuits.discards (by simp) names rfl) hcallers hleft
        hreturned
      rw [hcallers] at hleads
      exact hleads
  · have houtermost : scene.callers = [] := by
      cases hcallers : scene.callers with
      | nil => rfl
      | cons caller callers =>
        rw [hcallers] at hsuits
        obtain ⟨bindings, hbindings⟩ := exists_resultBindings fun name hname =>
          ((hsuits.discards (by simp) names rfl).values name hname).1
        rw [hbindings] at hmissing
        cases hmissing
    rw [houtermost, hmissing]
    exact .done ⟨⟨label, hstub, hplace⟩, h.hosts.of_keeps hagrees.toKeeps, .trans h.suffix hlive⟩

end Simulates

/-! ## Programs whose variables go to the host only -/

/-- Only the host calls a routine that returns variables. -/
theorem Waits.callers_eq_nil (hvalid : setting.Valid) {count : Nat} {names : List String}
    (hmem : .returnVars count names ∈ callee.code) (howns : setting.program.Owns home callee)
    (h : setting.Waits callee callers lower board below rbp ret) : callers = [] := by
  cases h with
  | host => rfl
  | @call _ other _ _ _ name _ _ _ _ _ _ _ _ _ _ _ _ hcall hcallee _ _ _ hframe =>
    have hother := hframe.owns.callee hcallee
    obtain ⟨rfl, rfl, -⟩ := hvalid.conventional.vars _ _ hother _ _ hmem
    have hcalls := Array.mem_of_getElem? hcall
    exact (hvalid.conventional.uncalled _ _ hmem _ _ hframe.owns _ _ hcalls hcallee).elim

/-- The innermost activation of a machine that is shown, with the callers that wait for it. -/
theorem Shows.exists_waits (hprepared : setting.Prepared) (h : setting.Shows machine v n) :
    ∃ top callers lower board below rbp ret, machine.frames = top :: callers ∧
      setting.program.Owns top.program top.routine ∧
      setting.Waits top.routine callers lower board below rbp ret := by
  rcases h with ⟨scene, h⟩ | ⟨before, scene, h, hleave, hstep⟩
  · exact ⟨scene.top, scene.callers, _, _, _, _, _, h.frames, h.frame.owns, h.waits⟩
  · refine ⟨scene.top.advance, scene.callers, _, _, _, _, _, ?_, h.frame.owns, h.waits⟩
    rw [h.step_of_leave hprepared hleave] at hstep
    obtain rfl := (Prod.mk.inj hstep).1
    rfl

/-- Where variables go to the host only, it does not matter what other activations would find. -/
theorem Shows.tameAnywhere (hvalid : setting.Valid) (h : setting.Shows machine v n)
    (htame : machine.Tame) : machine.TameAnywhere ∧ machine.Named := by
  obtain ⟨top, callers, lower, board, below, rbp, ret, hframes, howns, hwaits⟩ :=
    h.exists_waits hvalid.prepared
  refine ⟨fun first others instruction hfirst hinstruction => ?_,
    fun first others count names hfirst hinstruction => ?_⟩
  · have hsuits := htame first others instruction hfirst hinstruction
    obtain ⟨rfl, rfl⟩ := List.cons.inj (hframes.symm.trans hfirst)
    refine ⟨fun _ => hsuits, fun hinner names hnames => ?_⟩
    cases instruction with
    | returnVars count others =>
      have hmem := Array.mem_of_getElem? hinstruction
      rw [hwaits.callers_eq_nil hvalid hmem howns] at hinner
      exact (hinner rfl).elim
    | _ => cases hnames
  · obtain ⟨rfl, rfl⟩ := List.cons.inj (hframes.symm.trans hfirst)
    exact (hvalid.conventional.vars _ _ howns _ _ (Array.mem_of_getElem? hinstruction)).2.2

end Setting
end Native
end Gobstones
