import Gobstones.Proofs.Native.Advances
/-!
# Calls and returns on any words

This module follows calls and returns whatever the words on the stack are.  A routine
leaves its frame by the frame pointer, so it returns to its caller even if it has left
some other number of words than it should.  The caller takes over as many words as the
routine has results, whatever lies there.

Main results:

- Theorem {lit}`Stage.Goes.opens`: a call opens an activation.
- Theorem {lit}`Stage.Goes.resumes`: a caller goes on behind its call.
- Theorems {lit}`Stage.Runs.tends_ret`, {lit}`Stage.Runs.tends_returnVars` and
  {lit}`Stage.Runs.tends_leave`: returns.
-/

namespace Gobstones
namespace Native

theorem Registers.eq_of_get {regs regs' : Registers} (h : ∀ r, regs.get r = regs'.get r) :
    regs = regs' := by
  cases regs
  cases regs'
  simp only [mk.injEq]
  exact ⟨h .rax, h .rcx, h .rdx, h .rbx, h .rsp, h .rbp, h .rsi, h .rdi, h .r8, h .r9, h .r10,
    h .r11, h .r12, h .r13, h .r14, h .r15⟩

/-- Nothing is taken for an integer by an instruction that computes with no integers. -/
theorem Processor.Blurs.eq_of_operands {p q : Processor} {instr : Instr} (h : p.Blurs q instr)
    (hnone : instr.operands = []) : q = p := by
  have hregs : q.regs = p.regs := by
    refine Registers.eq_of_get fun r => (h.regs r).resolve_right fun hmem => ?_
    rw [hnone] at hmem
    cases hmem.1
  rw [h.rest, hregs]

namespace Stage

variable {stage : Stage} {k n m : Nat} {record : Record} {callers calls : List OpenCall}
variable {call : OpenCall} {v v' : View} {p p' : Processor} {name : String} {instrs : List Instr}
variable {above below taken : List Word} {rbp : Word} {ret count : Nat}
variable {home : Program} {callee : Routine}

/-! ## Taking over results -/

/-- Whatever lies at an address of the stack is pushed. -/
theorem Tends.pushMem {mem : Memory} {offset : Int}
    (hinstr : stage.code.instrs[n]? = some (.pushMem mem)) (hspans : v.Spans stage.board)
    (hne : mem.base ≠ .rbp ∧ mem.base ≠ .r15) (hbase : v.reg mem.base = .stack offset)
    (hrest : ∀ w, stage.Soon k calls (v.push w) (n + 1)) : stage.Tends k calls v n := by
  refine tends_of_next (guardAt_of_access hinstr hspans rfl hne fun other haddress => ?_)
    fun p hp hposition s' hnext => ?_
  · have haddress : (v.reg mem.base).add (.int mem.disp.toInt64) = some (.board other) := haddress
    rw [hbase] at haddress
    cases haddress
  · obtain ⟨other, q, hother, hq, hstep, hcalls⟩ := hnext
    subst hposition
    obtain rfl := Option.some.inj (hinstr.symm.trans hother)
    obtain rfl : q = p := by
      rcases hq with rfl | ⟨-, hblurs⟩
      · rfl
      · exact hblurs.eq_of_operands rfl
    obtain ⟨other, hother, hperform⟩ := NativeCode.exists_instr_of_step hstep
    obtain rfl := Option.some.inj (hinstr.symm.trans hother)
    obtain ⟨address, -, hperform⟩ := Option.bind_eq_some_iff.1 hperform
    obtain ⟨w, -, hperform⟩ := Option.bind_eq_some_iff.1 hperform
    have hgo : (q.goTo (q.position + 1)).Shows v :=
      ⟨hp.regs, hp.flags, hp.board, hp.results, hp.words⟩
    obtain ⟨p', hpush, hp', hposition⟩ := hgo.pushWord w
    obtain rfl : p' = s'.cpu := Option.some.inj (hpush.symm.trans hperform)
    refine ⟨v.push w, hp', ?_⟩
    rw [hcalls, noteCalls_of_isUnnoted rfl, hposition]
    exact hrest w

/-- Whatever lies behind the words of a caller is pushed. -/
theorem Soon.pushResults {offset : Int} {results : Nat}
    (hpushes : RoutineCompiler.pushResults results = .ok instrs) (hat : stage.code.At n instrs)
    (hspans : v.Spans stage.board) (hrdi : v.regs.rdi = .stack offset)
    (hrest : ∀ v' words, v.Agrees v' → v'.live = words ++ v.live → words.length = results →
      stage.Soon k calls v' (n + instrs.length)) : stage.Soon k calls v n := by
  unfold RoutineCompiler.pushResults at hpushes
  split at hpushes
  · cases hpushes
  rw [← @List.length_range results] at hrest
  generalize List.range results = indices at hpushes hrest
  induction indices generalizing v n instrs with
  | nil =>
    obtain rfl := Except.ok.inj hpushes
    exact hrest v [] (.refl v) rfl rfl
  | cons i indices ih =>
    rw [List.mapM_cons] at hpushes
    obtain ⟨first, hfirst, hpushes⟩ := exists_of_bind_eq_ok hpushes
    obtain ⟨others, hothers, hpushes⟩ := exists_of_bind_eq_ok hpushes
    obtain rfl := Except.ok.inj hpushes
    obtain ⟨mem, hmem, rfl⟩ := exists_of_map_eq_ok hfirst
    obtain ⟨disp, -, rfl⟩ := exists_of_map_eq_ok hmem
    obtain ⟨hinstr, hat⟩ := NativeCode.at_cons_iff.1 hat
    refine (Tends.pushMem hinstr hspans ⟨nofun, nofun⟩ hrdi fun w => ?_).soon
    refine ih hat ((v.agrees_push w).spans hspans) hrdi hothers
      fun v' words hagrees hlive hlength => ?_
    have hsoon := hrest v' (words ++ [w]) ((v.agrees_push w).trans hagrees)
      (by rw [hlive, List.append_assoc]; rfl) (by rw [List.length_append, hlength]; rfl)
    rw [List.length_cons, Nat.add_comm _ 1, ← Nat.add_assoc] at hsoon
    exact hsoon

/-- Words are dropped. -/
theorem Soon.dropWords (hdrop : dropWords above.length = .ok instrs) (hat : stage.code.At n instrs)
    (hspans : v.Spans stage.board) (hlive : v.live = above ++ below)
    (hrest : ∀ flags, stage.Soon k calls
      { v with live := below, dead := above.reverse ++ v.dead, flags } (n + instrs.length)) :
    stage.Soon k calls v n := by
  unfold Native.dropWords at hdrop
  split at hdrop
  · next hzero =>
    obtain rfl := List.eq_nil_of_length_eq_zero hzero
    obtain rfl := Except.ok.inj hdrop
    have hsoon := hrest v.flags
    rw [View.drop_nil hlive] at hsoon
    exact hsoon
  · obtain ⟨disp, hdisp, rfl⟩ := exists_of_map_eq_ok hdrop
    exact (Tends.release (hat 0 _ rfl) hlive (wordOffset_eq_ok hdisp).1
      (guardAt_of_isHarmless (hat 0 _ rfl) hspans rfl) (hrest none)).soon

/-- A routine has left its frame, and its caller goes on behind the call. -/
theorem Goes.resumes (hgoes : stage.Goes k) (hfit : stage.Fit) {args : List Word} {offset : Int}
    (hawaits : stage.Awaits home callee callers below rbp ret) (hlive : v.live = args ++ below)
    (hargs : args.length = callee.arity) (hrbp : v.regs.rbp = rbp)
    (hrdi : v.regs.rdi = .stack offset) (hspans : v.Spans stage.board) (hhosts : stage.Hosts v) :
    stage.Soon k callers v ret := by
  cases hawaits with
  | host =>
    rw [Routine.arity, hfit.params] at hargs
    obtain rfl := List.eq_nil_of_length_eq_zero hargs
    exact .exit hfit.regions hfit.board hspans hhosts hlive
  | @call record callers _ _ name _ drop pushes hlies hcall hcallee hdepth hdrop hpushes hat hcode
      hawaits =>
    obtain ⟨hdropped, hpushed⟩ := NativeCode.at_append_iff.1 hat
    rw [← hargs] at hdrop
    refine .dropWords hdrop hdropped hspans hlive fun flags => ?_
    have hspans' : ({ v with
        live := record.words ++ record.saved ++ record.frame ++ record.below
        dead := args.reverse ++ v.dead, flags } : View).Spans stage.board :=
      ⟨hspans.rbx, hspans.r11, hspans.r12, hspans.r13, hspans.r14, hspans.size⟩
    refine .pushResults hpushes hpushed hspans' hrdi fun v' words hagrees hlive' hlength => ?_
    have hnext := Setting.mem_successors_of_callee record.rc.routine hcallee rfl record.ip
    have hinside := (((hfit.bracketed hlies.owns).inTransaction_stay hcall hnext).2.2
      (by simp) (by simp)).1
    have hruns : stage.Runs { record with ip := record.ip + 1, words := words ++ record.words }
        callers v' (ret + (drop ++ pushes).length) :=
      { lies :=
          { hlies with
            saves := by
              have hsaves := hlies.saves
              rw [← hinside] at hsaves
              exact hsaves }
        awaits := hawaits
        live := by
          rw [hlive']
          simp
        rbp := hagrees.rbp.trans hrbp
        spans := hagrees.spans hspans'
        hosts := hhosts.of_keeps ⟨hagrees.rbp, hagrees.rsi, hagrees.r15, hagrees.results⟩
        depth := by
          have hafter := ((hfit.depthsFit hlies.owns).fits hdepth hcall).next _ hnext
          rw [Program.depthAfter, Program.effect_call_of_callee hcallee, Nat.add_sub_cancel_left,
            Nat.add_comm record.words.length, ← hlength, ← List.length_append] at hafter
          exact hafter
        code := hcode }
    have hsoon := hgoes _ _ _ _ hruns
    rw [List.length_append, ← Nat.add_assoc] at hsoon
    exact hsoon

/-! ## Opening a frame -/

/-- A word is pushed several times. -/
theorem Soon.replicate {w : Word} (hat : stage.code.At n (List.replicate count (.push .rax)))
    (hspans : v.Spans stage.board) (hrax : v.regs.rax = w)
    (hrest : ∀ v', v.Agrees v' → v'.live = List.replicate count w ++ v.live →
      stage.Soon k calls v' (n + count)) : stage.Soon k calls v n := by
  induction count generalizing v n with
  | zero => exact hrest v (.refl v) rfl
  | succ count ih =>
    obtain ⟨hinstr, hat⟩ := NativeCode.at_cons_iff.1 hat
    have hview : v.perform (.push .rax) = some (v.push w) := by
      rw [← hrax]
      rfl
    have hagrees := v.agrees_push w
    refine (Tends.instr hinstr hview (guardAt_of_isHarmless hinstr hspans rfl) rfl ?_).soon
    refine ih hat (hagrees.spans hspans) hrax fun v' hagrees' hlive => ?_
    rw [Nat.add_assoc, Nat.add_comm 1]
    refine hrest v' (hagrees.trans hagrees') ?_
    rw [hlive, List.replicate_succ', List.append_assoc]
    rfl

/-- A frame is opened behind the label of a routine.  No variable has a value in it. -/
theorem Soon.prologue {start : Label} {locals : Nat}
    (hat : stage.code.At n (prologue start locals)) (hspans : v.Spans stage.board)
    (hrest : ∀ v', View.Agrees (v.setReg .rbp (.stack (-(8 * (v.live.length + 1 : Nat))))) v' →
      v'.live = List.replicate locals (.int sentinel) ++ v.regs.rbp :: v.live →
        stage.Soon k calls v' (n + (prologue start locals).length)) :
    stage.Soon k calls v (n + 1) := by
  let v₁ := v.push v.regs.rbp
  let v₂ := v₁.adopt (v₁.cpu.setReg .rbp v₁.top)
  have hspans₁ : v₁.Spans stage.board := (v.agrees_push _).spans hspans
  have hspans₂ : v₂.Spans stage.board :=
    ⟨hspans.rbx, hspans.r11, hspans.r12, hspans.r13, hspans.r14, hspans.size⟩
  have hopened : View.Agrees (v.setReg .rbp (.stack (-(8 * (v.live.length + 1 : Nat))))) v₂ :=
    ⟨⟨rfl, rfl, rfl, rfl⟩, rfl, rfl, rfl, rfl, rfl, rfl⟩
  have hpush : v.perform (.push .rbp) = some v₁ := rfl
  have hmov : v₁.perform (.mov .rbp .rsp) = some v₂ := rfl
  refine (Tends.instr (hat 1 _ rfl) hpush (guardAt_of_isHarmless (hat 1 _ rfl) hspans rfl) rfl
    (Tends.instr (hat 2 _ rfl) hmov (guardAt_of_isHarmless (hat 2 _ rfl) hspans₁ rfl) rfl
      ?_).soon).soon
  by_cases hlocals : locals = 0
  · subst hlocals
    exact hrest v₂ hopened rfl
  · have hcode : Native.prologue start locals = [.bind start, .push .rbp, .mov .rbp .rsp,
        .movImm .rax sentinel] ++ List.replicate locals (.push .rax) := by
      simp [Native.prologue, hlocals]
    rw [hcode] at hat hrest
    obtain ⟨hopen, hpushes⟩ := NativeCode.at_append_iff.1 hat
    refine (Tends.computed (hopen 3 _ rfl) rfl rfl hspans₂ fun hcomputed =>
      .replicate hpushes (hcomputed.agrees.spans hspans₂) rfl fun v' hagrees hlive => ?_).soon
    rw [List.length_append, List.length_replicate, ← Nat.add_assoc] at hrest
    exact hrest v' (hopened.trans (hcomputed.agrees.trans hagrees)) hlive

/-- A call opens an activation above its arguments. -/
theorem Goes.opens (hgoes : stage.Goes k) (hfit : stage.Fit)
    (howns : stage.program.Owns home callee) {label : Label}
    (hlabel : stage.routines.lookup (home.moduleName, callee.name) = some label)
    (hcall : stage.code.instrs[n]? = some (.call label)) (hguard : stage.GuardAt callers v n)
    (hspans : v.Spans stage.board) (hhosts : stage.Hosts v) (hlive : v.live = taken ++ below)
    (htaken : taken.length = callee.arity)
    (hawaits : stage.Awaits home callee callers below v.regs.rbp (n + 1)) :
    stage.Tends k callers v n := by
  obtain ⟨rc, start, stop, rfl, rfl, hplaced, hstart⟩ := hfit.exists_placed howns
  have hplace := hfit.regions.linked.place_eq hcall rfl (hstart label hlabel)
  obtain ⟨_, hopen, hbody⟩ := hplaced.code
  have hparams : rc.layout.params = taken.length := by
    rw [hplaced.layout, FrameLayout.params_ofRoutine, htaken]
    rfl
  have hheight : v.live.length = below.length + rc.layout.params := by
    rw [hlive, List.length_append, hparams, Nat.add_comm]
  have hpushed : (v.push (.code (n + 1))).Spans stage.board := (v.agrees_push _).spans hspans
  refine .call hcall hplace hguard (.prologue hopen hpushed fun v' hagrees hlive' => ?_)
  let record : Record :=
    { rc, start, stop
      call := ⟨n, -(8 * (v.live.length + 1 : Nat)), none, false, []⟩
      ip := 0, words := [], saved := []
      frame := List.replicate rc.layout.locals (.int sentinel) ++
        v.regs.rbp :: .code (n + 1) :: taken
      below, rbp := v.regs.rbp, ret := n + 1 }
  have hlies : record.Lies stage :=
    { owns := howns
      placed := hplaced
      site := ⟨label, hcall, hplace⟩
      link := by
        dsimp only [record]
        rw [hheight]
      staying := rfl
      saves := by
        dsimp only [record]
        rw [(hfit.bracketed howns).inTransaction_zero]
        exact ⟨rfl, rfl⟩
      length := by
        simp only [record, List.length_append, List.length_replicate, List.length_cons, hparams]
        omega
      caller := by simp [record]
      ret := by simp [record]
      unassigned := fun i hi disp _ _ => by
        have hi : i < rc.layout.locals := hi
        simp [record, List.getElem?_append_left, hi] }
  refine hgoes record callers v' _ ?_
  exact
    { lies := hlies
      awaits := hawaits
      live := by
        rw [hlive', View.push, hlive]
        simp [record]
      rbp := by
        refine hagrees.rbp.trans (congrArg Word.stack ?_)
        rw [View.push, List.length_cons, hheight]
      spans := hagrees.spans ⟨hpushed.rbx, hpushed.r11, hpushed.r12, hpushed.r13, hpushed.r14,
        hpushed.size⟩
      hosts := ⟨hagrees.rsi.trans hhosts.rsi, hagrees.r15.trans hhosts.r15,
        hagrees.results.trans hhosts.results⟩
      depth := (hfit.depthsFit howns).start
      code := hbody }

/-! ## Leaving a frame -/

/-- An instruction that the processor performs, from a state that need not be shown. -/
theorem safeFor_of_perform {instr : Instr} (hinstr : stage.code.instrs[p.position]? = some instr)
    (hguarded : stage.Guarded ⟨p, calls⟩) (hunnoted : instr.isUnnoted = true)
    (hperform : (p.goTo (p.position + 1)).perform stage.code.place instr = some p')
    (hrest : ∀ j < k, stage.code.SafeFor stage.Guarded j ⟨p', calls⟩) :
    stage.code.SafeFor stage.Guarded k ⟨p, calls⟩ := by
  cases k with
  | zero => trivial
  | succ k =>
    refine ⟨hguarded, fun s' hnext => ?_⟩
    obtain rfl := eq_of_next hinstr hperform hnext
    rw [noteCalls_of_isUnnoted hunnoted]
    exact hrest k (Nat.lt_succ_self k)

/-- Wherever the stack pointer is, its address is kept, and it is set to the frame pointer. -/
theorem safeFor_of_dropped {q : Processor} {offset : Int}
    (hat : stage.code.At n [.mov .rdi .rsp, .mov .rsp .rbp]) (hspans : v.Spans stage.board)
    (hlive : v.live = above ++ below) (hrbp : v.regs.rbp = .stack (-(8 * below.length)))
    (hrest : ∀ v' offset, v.Agrees v' → v'.live = below → v'.regs.rdi = .stack offset →
      stage.Soon k calls v' (n + 2)) (hp : p.Shows v)
    (hregs : q.regs = p.regs.set .rsp (.stack offset))
    (hq : q = { p with regs := q.regs, flags := q.flags, position := n }) :
    stage.code.SafeFor stage.Guarded k ⟨q, calls⟩ := by
  have hposition : q.position = n := by rw [hq]
  have hreg (r : Register) (hr : r ≠ .rsp) : q.reg r = v.reg r := by
    refine Eq.trans ?_ (hp.reg r)
    rw [Processor.reg, hregs]
    exact Registers.get_set_of_ne _ _ hr
  have hguarded {q' : Processor} {calls : List OpenCall} {instr : Instr}
      (hinstr : stage.code.instrs[q'.position]? = some instr) (hharmless : instr.isHarmless = true)
      (h11 : q'.reg .r11 = q.reg .r11) (h12 : q'.reg .r12 = q.reg .r12) :
      stage.Guarded ⟨q', calls⟩ :=
    have hheads := hspans.heads_of_reg (h11.trans (hreg .r11 (by decide)))
      (h12.trans (hreg .r12 (by decide)))
    guarded_of_isHarmless hinstr hheads.1 hheads.2 hharmless
  subst hposition
  refine safeFor_of_perform (hat 0 _ rfl) (hguarded (hat 0 _ rfl) rfl rfl rfl) rfl rfl
    fun j hj => safeFor_of_perform (hat 1 _ rfl) (hguarded (hat 1 _ rfl) rfl rfl rfl) rfl rfl
      fun i hi => ?_
  refine hrest { v.setReg .rdi (.stack offset) with
    live := below, dead := above.reverse ++ v.dead, flags := q.flags } offset
      ⟨⟨rfl, rfl, rfl, rfl⟩, rfl, rfl, rfl, rfl, rfl, rfl⟩ rfl rfl i (hi.trans hj) _ ?_ rfl
  constructor
  · change (q.regs.set .rdi (q.regs.get .rsp)).set .rsp (q.regs.get .rbp) = _
    rw [hregs, hp.regs]
    change (v.regs.set .rdi (.stack offset)).set .rsp v.regs.rbp = _
    rw [hrbp]
    rfl
  · rfl
  · exact (congrArg Processor.board hq).trans hp.board
  · exact (congrArg Processor.results hq).trans hp.results
  · intro a w hw
    refine (congrArg (Processor.word · a) hq).trans (hp.words a w ?_)
    rw [View.mem, hlive, List.reverse_append, List.append_assoc]
    exact hw

/-- A frame is left by the frame pointer, however many words have been dropped before. -/
theorem Tends.leaveFrame {drop : List Instr} (hdrop : Native.dropWords count = .ok drop)
    (hat : stage.code.At n (drop ++ [.mov .rdi .rsp, .mov .rsp .rbp]))
    (hspans : v.Spans stage.board) (hlive : v.live = above ++ below)
    (hrbp : v.regs.rbp = .stack (-(8 * below.length)))
    (hrest : ∀ v' offset, v.Agrees v' → v'.live = below → v'.regs.rdi = .stack offset →
      stage.Soon k calls v' (n + drop.length + 2)) : stage.Tends k calls v n := by
  intro p hp hposition
  obtain ⟨hdropped, hat⟩ := NativeCode.at_append_iff.1 hat
  have hrsp : p.reg .rsp = .stack (-(8 * v.live.length)) := by
    rw [Processor.reg, hp.regs, Registers.get_set_self, View.top]
  unfold Native.dropWords at hdrop
  split at hdrop
  · obtain rfl := Except.ok.inj hdrop
    have hregs : p.regs = p.regs.set .rsp (.stack (-(8 * v.live.length))) := by
      rw [hp.regs]
      rfl
    refine safeFor_of_dropped hat hspans hlive hrbp hrest hp hregs ?_
    rw [List.length_nil, Nat.add_zero, ← hposition]
  · obtain ⟨disp, -, rfl⟩ := exists_of_map_eq_ok hdrop
    have hinstr : stage.code.instrs[n]? = some (.aluImm .add .rsp disp) := hdropped 0 _ rfl
    have hguard : stage.GuardAt calls v n := guardAt_of_isHarmless hinstr hspans rfl
    have hperform : (p.goTo (p.position + 1)).perform stage.code.place (.aluImm .add .rsp disp) =
        some (((p.goTo (p.position + 1)).setReg .rsp
          (.stack (-(8 * v.live.length) + disp.toInt64.toInt))).withFlags none) := by
      have hrsp : (p.goTo (p.position + 1)).reg .rsp = .stack (-(8 * v.live.length)) := hrsp
      simp only [Processor.perform, Processor.alu]
      rw [hrsp]
      rfl
    subst hposition
    refine safeFor_of_perform hinstr (hguard p hp rfl) rfl hperform fun i hi => ?_
    exact safeFor_of_dropped hat hspans hlive hrbp (fun v' offset hagrees hlive hrdi =>
      (hrest v' offset hagrees hlive hrdi).mono (Nat.le_of_lt hi)) hp rfl rfl

/-- A routine returns behind its frame. -/
theorem Soon.returns (hat : stage.code.At n [.pop .rbp, .ret]) (hspans : v.Spans stage.board)
    (hlive : v.live = rbp :: .code m :: below)
    (hrestores : call.leaving = true →
      call.saved = some ⟨v.board.toList.drop 4, v.reg .r11, v.reg .r12⟩)
    (hrest : ∀ v', View.Agrees (v.setReg .rbp rbp) v' → v'.live = below →
      v'.regs.rdi = v.regs.rdi → stage.Soon k calls v' m) :
    stage.Soon k (call :: calls) v n := by
  let v₁ : View := { v with live := .code m :: below, dead := rbp :: v.dead }.setReg .rbp rbp
  have hpop : v.perform (.pop .rbp) = some v₁ := by
    simp only [View.perform, View.pop?, hlive]
    rfl
  let v₂ : View := { v₁ with live := below, dead := .code m :: rbp :: v.dead }
  have hret : v₁.pop? = some (.code m, v₂) := rfl
  have hspans₁ : v₁.Spans stage.board :=
    ⟨hspans.rbx, hspans.r11, hspans.r12, hspans.r13, hspans.r14, hspans.size⟩
  have hguard : stage.GuardAt (call :: calls) v₁ (n + 1) := by
    refine guardAt_of_heads (hat 1 _ rfl) (fun p hp _ => hspans₁.heads hp) ?_
      (fun p hp hposition => ⟨?_, ?_, keepsVariables_of_access (hposition ▸ hat 1 _ rfl) ?_⟩) rfl
    · intro _ _ _ haccess
      cases haccess
    · intro _ hdivides
      cases hdivides
    · rintro - other callers hcalls hleaving
      obtain ⟨rfl, -⟩ := List.cons.inj hcalls
      rw [hrestores hleaving, Processor.cells, hp.board, hp.reg, hp.reg]
      rfl
    · intro _ _ haccess
      cases haccess
  refine (Tends.instr (hat 0 _ rfl) hpop (guardAt_of_isHarmless (hat 0 _ rfl) hspans rfl) rfl
    (Tends.ret (hat 1 _ rfl) hret hguard (hrest v₂ ?_ rfl rfl)).soon).soon
  exact ⟨⟨rfl, rfl, rfl, rfl⟩, rfl, rfl, rfl, rfl, rfl, rfl⟩

/-! ## Returns -/

section Returns

variable (hfit : stage.Fit) (hgoes : stage.Goes k)
include hfit hgoes

omit hfit hgoes in
/-- The frame of an activation lies above the words with which it returns. -/
theorem Acts.exists_frame (h : stage.Acts record callers v) :
    ∃ front below', v.live = record.words ++ (record.saved ++ (front ++ below')) ∧
      v.regs.rbp = .stack (-(8 * below'.length)) ∧ ∃ args,
        args.length = record.rc.layout.params ∧
          below' = record.rbp :: .code record.ret :: (args ++ record.below) := by
  obtain ⟨front, args, hframe, hargs⟩ :=
    Setting.exists_frame h.lies.length h.lies.caller h.lies.ret
  refine ⟨front, _, ?_, ?_, args, hargs, rfl⟩
  · rw [h.live, hframe]
    simp
  · rw [h.rbp, framePointer, ← hargs]
    simp only [List.length_cons, List.length_append]
    congr 3
    omega

/-- Behind the frame of an activation, its caller goes on. -/
theorem Acts.soon_returns (h : stage.Acts record callers v') {args : List Word} {offset : Int}
    (hargs : args.length = record.rc.layout.params)
    (hat : stage.code.At n [.pop .rbp, .ret]) (hkeeps : v'.Keeps v)
    (hspans : v.Spans stage.board) (hrdi : v.regs.rdi = .stack offset)
    (hlive : v.live = record.rbp :: .code record.ret :: (args ++ record.below))
    (hrestores : call.leaving = true →
      call.saved = some ⟨v.board.toList.drop 4, v.reg .r11, v.reg .r12⟩) :
    stage.Soon k (call :: callers) v n := by
  have hparams : record.rc.layout.params = record.rc.routine.arity := by
    rw [h.lies.placed.layout, FrameLayout.params_ofRoutine]
    rfl
  have hhosts := h.hosts.of_keeps hkeeps
  refine .returns hat hspans hlive hrestores fun v' hagrees hlive' hrdi' => ?_
  exact hgoes.resumes hfit h.awaits hlive' (hargs.trans hparams) hagrees.rbp (hrdi'.trans hrdi)
    (hagrees.spans ⟨hspans.rbx, hspans.r11, hspans.r12, hspans.r13, hspans.r14, hspans.size⟩)
    ⟨hagrees.rsi.trans hhosts.rsi, hagrees.r15.trans hhosts.r15,
      hagrees.results.trans hhosts.results⟩

/-- An activation drops some words and returns. -/
theorem Acts.tends_return (h : stage.Acts record callers v) (hcode : ReturnCode count instrs)
    (hat : stage.code.At n instrs) : stage.Tends k (record.call :: callers) v n := by
  obtain ⟨drop, hdrop, rfl⟩ := hcode
  obtain ⟨front, below', hlive, hrbp, args, hargs, rfl⟩ := h.exists_frame
  have hcode : drop ++ Instr.mov .rdi .rsp :: epilogue =
      drop ++ [.mov .rdi .rsp, .mov .rsp .rbp] ++ [.pop .rbp, .ret] := by
    simp [epilogue]
  rw [hcode] at hat
  obtain ⟨hat, hret⟩ := NativeCode.at_append_iff.1 hat
  rw [List.length_append, ← Nat.add_assoc] at hret
  rw [← List.append_assoc, ← List.append_assoc] at hlive
  refine .leaveFrame hdrop hat h.spans hlive hrbp fun v' offset hagrees hlive' hrdi => ?_
  refine h.soon_returns hfit hgoes hargs hret hagrees.toKeeps (hagrees.spans h.spans) hrdi hlive'
    fun hleaving => ?_
  rw [h.lies.staying] at hleaving
  cases hleaving

theorem Runs.tends_ret (h : stage.Runs record callers v n)
    (hinstruction : record.rc.routine.code[record.ip]? = some (.ret count)) :
    stage.Tends k (record.call :: callers) v n := by
  obtain ⟨first, hcode, hat, -⟩ := h.code.split hinstruction (by simp)
  exact h.tends_return hfit hgoes hcode hat

omit hgoes in
/-- Variables are read one after the other. -/
theorem Acts.soon_reads {words : List Word} {names : List String} {reads : List (List Instr)}
    (h : stage.Acts { record with words } callers v)
    (hreads : List.Forall₂ (fun name => ReadCode record.rc.layout stage.stubs (Polyname.base name))
      names reads) (hat : stage.code.At n reads.flatten) (hstart : record.start ≤ n)
    (hstop : n + reads.flatten.length ≤ record.stop)
    (hrest : ∀ v' words, stage.Acts { record with words } callers v' →
      stage.Soon k (record.call :: callers) v' (n + reads.flatten.length)) :
    stage.Soon k (record.call :: callers) v n := by
  induction hreads generalizing words v n with
  | nil => exact hrest v words h
  | @cons name read names reads hread _ ih =>
    rw [List.flatten_cons] at hat hstop hrest
    rw [List.length_append, ← Nat.add_assoc] at hstop hrest
    obtain ⟨hat, hrests⟩ := NativeCode.at_append_iff.1 hat
    refine (h.readCode hfit hread hat hstart (Nat.le_of_add_right_le hstop)
      fun v₁ w hagrees hlive => ?_).soon
    have hacts : stage.Acts { record with words := w :: words } callers v₁ :=
      h.of_keeps hagrees.toKeeps (hagrees.spans h.spans) (by rw [hlive, h.live]; rfl)
    exact ih hacts hrests (Nat.le_add_right_of_le hstart) hstop hrest

theorem Runs.tends_returnVars {names : List String} (h : stage.Runs record callers v n)
    (hinstruction : record.rc.routine.code[record.ip]? = some (.returnVars count names)) :
    stage.Tends k (record.call :: callers) v n := by
  obtain ⟨first, ⟨reads, last, hreads, hlast, rfl⟩, hat, hstart, hstop, -⟩ :=
    h.code.split hinstruction (by simp)
  obtain ⟨hat, hatLast⟩ := NativeCode.at_append_iff.1 hat
  rw [List.length_append, ← Nat.add_assoc] at hstop
  refine Soon.tends (h.toActs.soon_reads hfit hreads hat hstart (Nat.le_of_add_right_le hstop)
    fun v' words hacts => ?_)
  have htends := hacts.tends_return hfit hgoes hlast hatLast
  exact htends.soon_succ

/-- The end of a transaction and the return after it. -/
theorem Runs.tends_leave (h : stage.Runs record callers v n)
    (hinstruction : record.rc.routine.code[record.ip]? = some .leave) :
    stage.Tends k (record.call :: callers) v n := by
  have hbracketed := hfit.bracketed h.lies.owns
  have hip : record.ip + 1 ∈ record.rc.program.successors record.rc.routine record.ip .leave :=
    List.mem_singleton_self _
  obtain ⟨hinside, -⟩ := (hbracketed.inTransaction_stay hinstruction hip).2.1 rfl
  obtain ⟨count, hret⟩ := hbracketed.ret_of_leave record.ip hinstruction
  obtain ⟨first, ⟨drop, top, done, hdrop, rfl⟩, hat⟩ := h.code.split_leave hinstruction hret
  -- The return leaves as many words as there are.
  have hcount : record.words.length = count := by
    have hnext := (h.depthFits hfit hinstruction).next _ hip
    have hfits := ((hfit.depthsFit h.lies.owns).fits hnext hret).ret_ok count rfl
    exact (Routine.returnProblems_eq_nil hret hfits).1
  subst hcount
  have hsaves := h.lies.saves
  rw [hinside] at hsaves
  obtain ⟨saved, hsaved, hlies⟩ := hsaves
  obtain ⟨front, below', hlive, hrbp, args, hargs, hbelow⟩ := h.toActs.exists_frame
  rw [List.append_assoc, List.cons_append] at hat
  obtain ⟨hdropped, hat⟩ := NativeCode.at_append_iff.1 hat
  obtain ⟨hmov, hat⟩ := NativeCode.at_cons_iff.1 hat
  obtain ⟨hleave, hat⟩ := NativeCode.at_append_iff.1 hat
  refine Soon.tends (.dropWords hdrop hdropped h.spans hlive fun flags => ?_)
  let v₁ : View := { v with
    live := record.saved ++ (front ++ below'), dead := record.words.reverse ++ v.dead, flags }
  let v₂ := v₁.adopt (v₁.cpu.setReg .rdi v₁.top)
  have hview : v₁.perform (.mov .rdi .rsp) = some v₂ := rfl
  have hspans₁ : v₁.Spans stage.board :=
    ⟨h.spans.rbx, h.spans.r11, h.spans.r12, h.spans.r13, h.spans.r14, h.spans.size⟩
  have hspans₂ : v₂.Spans stage.board :=
    ⟨h.spans.rbx, h.spans.r11, h.spans.r12, h.spans.r13, h.spans.r14, h.spans.size⟩
  refine (Tends.instr hmov hview (guardAt_of_isHarmless hmov hspans₁ rfl) rfl
    (Tends.leaveCode hfit.fits hfit.board hfit.regions.linked hleave hspans₂ hlies rfl
      fun v₃ hkeeps hspans₃ hcells hx hy hrdi hsuffix => ?_).soon).soon_succ
  obtain ⟨above, habove⟩ := hsuffix
  have hlive₃ : v₃.live = above ++ front ++ below' := by rw [← habove, List.append_assoc]
  refine (Tends.setStackPointer (hat 0 _ rfl) hlive₃ (hkeeps.rbp.trans hrbp)
    (guardAt_of_isHarmless (hat 0 _ rfl) hspans₃ rfl) ?_).soon
  refine h.toActs.soon_returns hfit hgoes hargs (hat.slice 1 2) ?_ ?_ hrdi hbelow fun _ => ?_
  · exact ⟨hkeeps.rbp, hkeeps.rsi, hkeeps.r15, hkeeps.results⟩
  · exact ⟨hspans₃.rbx, hspans₃.r11, hspans₃.r12, hspans₃.r13, hspans₃.r14, hspans₃.size⟩
  · have hsame : record.call.saved =
        some ⟨v₃.board.toList.drop 4, v₃.reg .r11, v₃.reg .r12⟩ := by
      rw [hsaved, hcells, hx, hy]
    exact hsame

end Returns

end Stage
end Native
end Gobstones
