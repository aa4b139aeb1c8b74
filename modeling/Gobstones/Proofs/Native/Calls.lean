import Gobstones.Proofs.Native.Frames
/-!
# Calls in native code

This module follows the code around calls: the opening of a frame, the return, and the
code with which a caller takes over the results.  A callee leaves its results behind in
memory below the stack, where no word is changed until the caller pushes them.

Main definitions:

- {lit}`View.Returned`: results lie right below the address in {lit}`rdi`.

Main results:

- Theorem {lit}`leads_prologue`: a frame is opened.
- Theorems {lit}`leads_returnCode` and {lit}`leads_returnLeaveCode`: a routine returns.
- Theorem {lit}`leads_takeResults`: the caller pushes the results.
-/

namespace Gobstones
namespace Native

variable {code : NativeCode} {v v' : View} {n m : Nat} {Q : View → Nat → Prop}
variable {above below words values : List Word} {rbp : Word} {instrs : List Instr}

/-! ## Memory below the stack -/

/-- A word that was left behind is read at its address. -/
theorem View.read?_dead {front rest : List Word} {w : Word} (h : v.dead = front ++ w :: rest) :
    v.read? (stackAddress (v.live.length + front.length)) = some w := by
  have hindex := Processor.stackIndex?_neg (v.live.length + front.length)
  simp only [View.read?, stackAddress, hindex, Option.bind_some]
  rw [View.mem, List.getElem?_append_right (by simp), List.length_reverse,
    Nat.add_sub_cancel_left, h, List.getElem?_append_right (Nat.le_refl _), Nat.sub_self]
  rfl

/-- Values lie right below the address in {lit}`rdi`, in memory that the stack has left. -/
def View.Returned (v : View) (values : List Word) : Prop :=
  ∃ gap rest, v.dead = gap ++ values ++ rest ∧
    v.regs.rdi = .stack (-(8 * (v.live.length + gap.length : Nat)))

/-- The stack has been shortened since the values were left behind. -/
theorem View.returned_of_mem (left words : List Word)
    (hmem : v.mem = (left ++ v.live).reverse ++ words) (hvalues : values <+: words)
    (hrdi : v.regs.rdi = .stack (-(8 * (left ++ v.live).length))) : v.Returned values := by
  obtain ⟨rest, rfl⟩ := hvalues
  refine ⟨left.reverse, rest, ?_, ?_⟩
  · rw [View.mem, List.reverse_append, List.append_assoc] at hmem
    rw [List.append_cancel_left hmem, List.append_assoc]
  · rw [hrdi, List.length_append, List.length_reverse, Nat.add_comm]

/-- Nothing changes when no words are dropped. -/
theorem View.drop_nil (hlive : v.live = [] ++ below) :
    { v with live := below, dead := List.reverse [] ++ v.dead, flags := v.flags } = v := by
  rw [← List.nil_append below, ← hlive]
  rfl

/-- Words are dropped. -/
theorem leads_dropWords {drop : List Instr} (hdrop : dropWords above.length = .ok drop)
    (hat : code.At n drop) (hlive : v.live = above ++ below)
    (hrest : ∀ flags, code.Leads
      { v with live := below, dead := above.reverse ++ v.dead, flags } (n + drop.length) Q) :
    code.Leads v n Q := by
  unfold dropWords at hdrop
  split at hdrop
  · next hzero =>
    obtain rfl := List.eq_nil_of_length_eq_zero hzero
    obtain rfl := Except.ok.inj hdrop
    have hleads := hrest v.flags
    rw [View.drop_nil hlive] at hleads
    exact hleads
  · obtain ⟨disp, hdisp, rfl⟩ := exists_of_map_eq_ok hdrop
    exact .release (hat 0 _ rfl) hlive (wordOffset_eq_ok hdisp).1 (hrest none)

/-! ## Opening a frame -/

theorem performAll_replicate_push (count : Nat) {w : Word} (hrax : v.regs.rax = w) :
    ∃ v', v.performAll (List.replicate count (.push .rax)) = some v' ∧ v'.regs = v.regs ∧
      v.Agrees v' ∧ v'.live = List.replicate count w ++ v.live := by
  induction count generalizing v with
  | zero => exact ⟨v, rfl, rfl, .refl v, rfl⟩
  | succ count ih =>
    obtain ⟨v', hview, hregs, hagrees, hlive⟩ := ih (v := v.push w) hrax
    refine ⟨v', ?_, hregs, ⟨⟨hagrees.rbp, hagrees.rsi, hagrees.r15, hagrees.results⟩, hagrees.rbx,
      hagrees.r11, hagrees.r12, hagrees.r13, hagrees.r14, hagrees.board⟩, ?_⟩
    · have hpush : v.perform (.push .rax) = some (v.push w) := by
        rw [← hrax]
        rfl
      rw [List.replicate_succ, View.performAll, hpush, Option.bind_some, hview]
    · rw [hlive, List.replicate_succ', List.append_assoc]
      rfl

/-- A frame is opened behind the label of a routine.  No variable has a value in it. -/
theorem leads_prologue {start : Label} {locals : Nat} (hat : code.At n (prologue start locals))
    (hrest : ∀ v', View.Agrees (v.setReg .rbp (.stack (-(8 * (v.live.length + 1 : Nat))))) v' →
      v'.live = List.replicate locals (.int sentinel) ++ v.regs.rbp :: v.live →
        code.Leads v' (n + (prologue start locals).length) Q) : code.Leads v (n + 1) Q := by
  rcases v with ⟨⟨rax, rcx, rdx, rbx, rsp, rbp, rsi, rdi, r8, r9, r10, r11, r12, r13, r14, r15⟩,
    flags, live, dead, cells, results⟩
  by_cases hlocals : locals = 0
  · subst hlocals
    refine .block (hat.slice 1 2) rfl (hrest _ ?_ rfl)
    exact ⟨⟨rfl, rfl, rfl, rfl⟩, rfl, rfl, rfl, rfl, rfl, rfl⟩
  · have hcode : prologue start locals = [.bind start, .push .rbp, .mov .rbp .rsp,
        .movImm .rax sentinel] ++ List.replicate locals (.push .rax) := by
      simp [prologue, hlocals]
    rw [hcode] at hat hrest
    obtain ⟨hopen, hpushes⟩ := NativeCode.at_append_iff.1 hat
    refine .block (hopen.slice 1 3) rfl ?_
    obtain ⟨v', hview, -, hagrees, hlive⟩ := performAll_replicate_push locals rfl
    refine .block hpushes hview ?_
    have hsame : n + ([Instr.bind start, .push .rbp, .mov .rbp .rsp, .movImm .rax sentinel] ++
        List.replicate locals (Instr.push .rax)).length =
          n + 4 + (List.replicate locals (Instr.push .rax)).length := by
      simp
      omega
    rw [hsame] at hrest
    refine hrest v' (.trans ?_ hagrees) hlive
    exact ⟨⟨rfl, rfl, rfl, rfl⟩, rfl, rfl, rfl, rfl, rfl, rfl⟩

/-! ## Returning -/

/-- A frame is left. -/
theorem leads_epilogue (above : List Word) (hat : code.At n epilogue)
    (hlive : v.live = above ++ rbp :: .code m :: below)
    (hrbp : v.regs.rbp = .stack (-(8 * (below.length + 2 : Nat))))
    (hrest : ∀ v', View.Agrees (v.setReg .rbp rbp) v' → v'.live = below → v'.mem = v.mem →
      v'.regs.rdi = v.regs.rdi → code.Leads v' m Q) : code.Leads v n Q := by
  rcases v with ⟨⟨rax, rcx, rdx, rbx, rsp, base, rsi, rdi, r8, r9, r10, r11, r12, r13, r14, r15⟩,
    flags, live, dead, cells, results⟩
  dsimp only at hlive hrbp
  subst hlive hrbp
  refine .setStackPointer (hat 0 _ rfl) rfl rfl (.block (hat.slice 1 1) rfl
    (.ret (hat 2 _ rfl) rfl (hrest _ ?_ rfl ?_ rfl)))
  · exact ⟨⟨rfl, rfl, rfl, rfl⟩, rfl, rfl, rfl, rfl, rfl, rfl⟩
  · simp [View.mem, View.setReg]

/-- A routine drops its words and returns, and its values are left behind. -/
theorem leads_returnCode {frame : List Word} (hcode : ReturnCode words.length instrs)
    (hat : code.At n instrs) (hlive : v.live = words ++ (frame ++ rbp :: .code m :: below))
    (hrbp : v.regs.rbp = .stack (-(8 * (below.length + 2 : Nat))))
    (hrest : ∀ v', View.Agrees (v.setReg .rbp rbp) v' → v'.live = below →
      v'.Returned words.reverse → code.Leads v' m Q) : code.Leads v n Q := by
  obtain ⟨drop, hdrop, rfl⟩ := hcode
  obtain ⟨hdropped, hat⟩ := NativeCode.at_append_iff.1 hat
  obtain ⟨hmov, hepilogue⟩ := NativeCode.at_cons_iff.1 hat
  refine leads_dropWords hdrop hdropped hlive fun flags => ?_
  refine .instr hmov rfl ?_
  refine leads_epilogue frame hepilogue rfl hrbp fun v' hagrees hlive' hmem hrdi => ?_
  refine hrest v' (.trans ?_ hagrees) hlive' ?_
  · exact ⟨⟨rfl, rfl, rfl, rfl⟩, rfl, rfl, rfl, rfl, rfl, rfl⟩
  · have hleft : frame ++ [rbp, .code m] ++ below = frame ++ rbp :: .code m :: below := by simp
    refine View.returned_of_mem (frame ++ [rbp, .code m]) (words.reverse ++ v.dead)
      ?_ (List.prefix_append _ _) ?_
    · rw [hmem, hlive', hleft]
      rfl
    · rw [hrdi, hlive', hleft]
      rfl

/-- A routine drops its words, restores the board, and returns. -/
theorem leads_returnLeaveCode {board saved : Board} {frame : List Word} (hlinked : code.Linked)
    (hboard : board.WellFormed) (hfits : board.nativeLength < 2 ^ 63)
    (hwidth : saved.width = board.width) (hheight : saved.height = board.height)
    (hcells : saved.cells.size = board.cells.size) (hcode : LeaveCode words.length instrs)
    (hat : code.At n instrs) (hv : v.Carries board)
    (hlive : v.live = words ++ (snapshot saved ++ (frame ++ rbp :: .code m :: below)))
    (hrbp : v.regs.rbp = .stack (-(8 * (below.length + 2 : Nat))))
    (hrest : ∀ v', View.Keeps (v.setReg .rbp rbp) v' → v'.Carries saved → v'.live = below →
      v'.Returned words.reverse → code.Leads v' m Q) : code.Leads v n Q := by
  obtain ⟨drop, top, done, hdrop, rfl⟩ := hcode
  rw [List.append_assoc, List.cons_append] at hat
  obtain ⟨hdropped, hat⟩ := NativeCode.at_append_iff.1 hat
  obtain ⟨hmov, hat⟩ := NativeCode.at_cons_iff.1 hat
  obtain ⟨hleave, hepilogue⟩ := NativeCode.at_append_iff.1 hat
  refine leads_dropWords hdrop hdropped hlive fun flags => ?_
  refine .instr hmov rfl ?_
  refine leads_leaveCode hlinked hboard hfits hwidth hheight hcells hleave
    ⟨hv.rbx, hv.r11, hv.r12, hv.r13, hv.r14, hv.cells⟩ rfl ?_
  intro v₁ hkeeps hcarries hrdi hmem hsuffix
  obtain ⟨left, hleft⟩ := hsuffix
  refine leads_epilogue (left ++ frame) hepilogue (by rw [← hleft, List.append_assoc])
    (hkeeps.rbp.trans hrbp) fun v' hagrees hlive' hmem' hrdi' => ?_
  refine hrest v' ?_ (hagrees.carries ?_) hlive' ?_
  · exact ⟨hagrees.rbp, hagrees.rsi.trans hkeeps.rsi, hagrees.r15.trans hkeeps.r15,
      hagrees.results.trans hkeeps.results⟩
  · exact ⟨hcarries.rbx, hcarries.r11, hcarries.r12, hcarries.r13, hcarries.r14, hcarries.cells⟩
  · have hsame : snapshot saved ++ frame ++ [rbp, .code m] ++ below =
        snapshot saved ++ (frame ++ rbp :: .code m :: below) := by simp
    refine View.returned_of_mem (snapshot saved ++ frame ++ [rbp, .code m])
      (words.reverse ++ v.dead) ?_ (List.prefix_append _ _) ?_
    · rw [hmem', hmem, hlive', hsame]
      rfl
    · rw [hrdi', hrdi, hlive', hsame]
      rfl

/-! ## Results -/

/-- The address of a returned value. -/
theorem address?_returnedValue {i base : Nat} {mem : Memory} (hmem : returnedValue i = .ok mem)
    (hrdi : v.regs.rdi = .stack (-(8 * base : Nat))) :
    v.cpu.address? mem = some (stackAddress (base + i)) := by
  obtain ⟨disp, hdisp, rfl⟩ := exists_of_map_eq_ok hmem
  have hbytes := (wordOffset_eq_ok (wordOffset_min hdisp)).2
  have hreg : v.cpu.reg .rdi = .stack (-(8 * base : Nat)) := hrdi
  rw [Processor.address?, hreg, Word.add, hbytes, stackAddress]
  congr 2
  push_cast
  omega

/-- The caller pushes the results from some place on.  Pushing a result shortens the memory in
front of the next one as much as it lengthens the stack. -/
theorem leads_pushResultsFrom {base i : Nat} {gap rest : List Word}
    (hresults : (List.range' i values.length).mapM (fun i => (returnedValue i).map Instr.pushMem) =
      .ok instrs) (hat : code.At n instrs) (hrdi : v.regs.rdi = .stack (-(8 * base : Nat)))
    (hdead : v.dead = gap ++ values ++ rest) (hlength : v.live.length + gap.length = base + i)
    (hrest : ∀ v', v.Agrees v' → v'.live = values.reverse ++ v.live →
      code.Leads v' (n + instrs.length) Q) : code.Leads v n Q := by
  induction values generalizing v n i gap instrs with
  | nil =>
    obtain rfl := Except.ok.inj hresults
    exact hrest v (.refl v) rfl
  | cons w values ih =>
    rw [List.length_cons, List.range'_succ, List.mapM_cons] at hresults
    obtain ⟨first, hfirst, hresults⟩ := exists_of_bind_eq_ok hresults
    obtain ⟨others, hothers, hresults⟩ := exists_of_bind_eq_ok hresults
    obtain rfl := Except.ok.inj hresults
    obtain ⟨mem, hmem, rfl⟩ := exists_of_map_eq_ok hfirst
    obtain ⟨hinstr, hat⟩ := NativeCode.at_cons_iff.1 hat
    have hread : v.read? (stackAddress (base + i)) = some w := by
      rw [← hlength]
      exact View.read?_dead (by rw [hdead, List.append_assoc, List.cons_append])
    have hview : v.perform (.pushMem mem) = some (v.push w) := by
      simp only [View.perform, Instr.setsStackPointer, address?_returnedValue hmem hrdi, hread,
        bind, Option.bind]
      rfl
    refine .instr hinstr hview ?_
    have hpushed : ∃ gap', (v.push w).dead = gap' ++ values ++ rest ∧ gap'.length = gap.length := by
      cases gap with
      | nil => exact ⟨[], by rw [View.push, hdead]; rfl, rfl⟩
      | cons g gap => exact ⟨gap ++ [w], by rw [View.push, hdead]; simp, by simp⟩
    obtain ⟨gap', hdead', hlength'⟩ := hpushed
    refine ih hothers hat hrdi hdead' ?_ fun v' hagrees hlive => ?_
    · change v.live.length + 1 + gap'.length = base + (i + 1)
      omega
    · have hend : n + (Instr.pushMem mem :: others).length = n + 1 + others.length := by
        rw [List.length_cons]
        omega
      rw [← hend]
      refine hrest v' ⟨⟨hagrees.rbp, hagrees.rsi, hagrees.r15, hagrees.results⟩, hagrees.rbx,
        hagrees.r11, hagrees.r12, hagrees.r13, hagrees.r14, hagrees.board⟩ ?_
      rw [hlive, List.reverse_cons, List.append_assoc]
      rfl

/-- The caller drops the arguments and pushes the results. -/
theorem leads_takeResults {args : List Word} {drop results : List Instr}
    (hdrop : dropWords args.length = .ok drop)
    (hresults : RoutineCompiler.pushResults values.length = .ok results)
    (hat : code.At n (drop ++ results)) (hlive : v.live = args ++ below)
    (hreturned : v.Returned values)
    (hrest : ∀ v', v.Agrees v' → v'.live = values.reverse ++ below →
      code.Leads v' (n + (drop ++ results).length) Q) : code.Leads v n Q := by
  obtain ⟨hdropped, hpushed⟩ := NativeCode.at_append_iff.1 hat
  unfold RoutineCompiler.pushResults at hresults
  split at hresults
  · cases hresults
  · obtain ⟨gap, rest, hdead, hrdi⟩ := hreturned
    refine leads_dropWords hdrop hdropped hlive fun flags => ?_
    rw [List.range_eq_range'] at hresults
    have hdropped : args.reverse ++ v.dead = args.reverse ++ gap ++ values ++ rest := by
      simp [hdead]
    refine leads_pushResultsFrom hresults hpushed hrdi hdropped ?_ fun v' hagrees hlive' => ?_
    · rw [hlive]
      simp
      omega
    · have hend : n + (drop ++ results).length = n + drop.length + results.length := by
        rw [List.length_append, Nat.add_assoc]
      rw [← hend]
      exact hrest v' ⟨⟨hagrees.rbp, hagrees.rsi, hagrees.r15, hagrees.results⟩, hagrees.rbx,
        hagrees.r11, hagrees.r12, hagrees.r13, hagrees.r14, hagrees.board⟩ hlive'

end Native
end Gobstones
