import Gobstones.Proofs.Native.Entry
import Gobstones.Proofs.Native.Templates
/-!
# Ways back to the host on any words

This module follows the code outside the routines when nothing is known of the words that
it copies.  What it copies into the result buffer does not matter to the host, which finds
its own words on the stack, and either the report of a failure or a board.

Main definitions:

- {lit}`View.Recovers`: what the way back to the host relies on is still there.

Main results:

- Theorem {lit}`Stage.Soon.outside`: code outside the routines with a known effect.
- Theorem {lit}`Stage.faults_of_hosts`: the stubs of messages.
- Theorem {lit}`Stage.Soon.exit`: the end of the entry stub.
-/

namespace Gobstones
namespace Native

variable {p next : Processor} {instr : Instr}

/-- Without open calls, only a call is noted. -/
theorem noteCalls_nil (hcall : ∀ label, instr ≠ .call label) : noteCalls p next instr [] = [] := by
  cases instr <;> first | rfl | exact (hcall _ rfl).elim

/-- What has been recomputed may be what is filled in. -/
theorem View.Recomputes.fills {v v' : View} (h : v.Recomputes v') : v.Fills v' where
  live := h.live
  dead := h.dead
  board := h.agrees.board
  rbx := h.agrees.rbx
  rsi := h.agrees.rsi
  rdi := h.rdi
  r11 := h.agrees.r11
  r12 := h.agrees.r12
  r15 := h.agrees.r15

/-- Whether an instruction computes something or stores it in the result buffer. -/
def Instr.Fills (instr : Instr) : Prop :=
  instr.isQuiet = true ∨ ∃ disp, instr = .store ⟨.r15, disp⟩ .rax

theorem fills_of_storeWords {i : Nat} {words : List Int64} :
    ∀ instr ∈ storeWords i words, instr.Fills := by
  induction words generalizing i with
  | nil => simp [storeWords]
  | cons word words ih =>
    intro instr hinstr
    rcases List.mem_cons.1 hinstr with rfl | hinstr
    · exact .inl rfl
    · rcases List.mem_cons.1 hinstr with rfl | hinstr
      · exact .inr ⟨_, rfl⟩
      · exact ih instr hinstr

theorem fills_of_copyResults {results : Nat} {copies : List Instr}
    (h : copyResults results = .ok copies) : ∀ instr ∈ copies, instr.Fills := by
  obtain ⟨pieces, hpieces, hcopies⟩ := exists_of_bind_eq_ok h
  clear h
  obtain rfl := Except.ok.inj hcopies
  clear hcopies
  generalize List.range results = indices at hpieces
  induction indices generalizing pieces with
  | nil =>
    obtain rfl := Except.ok.inj hpieces
    simp
  | cons i indices ih =>
    rw [List.mapM_cons] at hpieces
    obtain ⟨piece, hpiece, hpieces⟩ := exists_of_bind_eq_ok hpieces
    obtain ⟨others, hothers, hpieces⟩ := exists_of_bind_eq_ok hpieces
    obtain rfl := Except.ok.inj hpieces
    obtain ⟨source, -, hpiece⟩ := exists_of_bind_eq_ok hpiece
    obtain ⟨disp, -, hpiece⟩ := exists_of_bind_eq_ok hpiece
    obtain rfl := Except.ok.inj hpiece
    intro instr hinstr
    rw [List.flatten_cons] at hinstr
    rcases List.mem_append.1 hinstr with hinstr | hinstr
    · rcases List.mem_cons.1 hinstr with rfl | hinstr
      · exact .inl rfl
      · exact .inr ⟨disp, List.mem_singleton.1 hinstr⟩
    · exact ih others hothers instr hinstr

/-- A view shows the place of the result buffer, and the words of the host where the entry stub
has saved them. -/
structure View.Recovers (v : View) (code : NativeCode) (host : Host) : Prop where
  r15 : v.regs.r15 = .results 0
  rsi : v.regs.rsi = .stack (-56)
  words : hostWords host code <:+ v.live

theorem View.Recovers.of_fills {v v' : View} {code : NativeCode} {host : Host}
    (h : v.Recovers code host) (hfills : v.Fills v') : v'.Recovers code host :=
  ⟨hfills.r15.trans h.r15, hfills.rsi.trans h.rsi, hfills.live ▸ h.words⟩

/-- The words of the host are found where the entry stub has saved them. -/
theorem View.Recovers.of_shows {v : View} {code : NativeCode} {host : Host}
    (h : v.Recovers code host) (hp : p.Shows v) : code.Recovers host p where
  results := (hp.reg .r15).trans h.r15
  checkpoint := (hp.reg .rsi).trans h.rsi
  words := Setting.read64_hostWords hp h.words

/-- Writing to the result buffer changes nothing else. -/
theorem Processor.write64_results {offset : Int} {w : Word}
    (h : p.write64 (.results offset) w = some next) :
    next = { p with results := next.results } := by
  cases w with
  | int a =>
    obtain ⟨i, -, h⟩ := Option.bind_eq_some_iff.1 h
    split at h
    · obtain rfl := Option.some.inj h
      rfl
    · cases h
  | _ => cases h

namespace Stage

variable {stage : Stage} {k n m : Nat} {calls : List OpenCall} {v v' : View}
variable {instrs : List Instr} {rest : List Word}

/-! ## Outside the routines -/

/-- Code outside the routines with a known effect. -/
theorem Soon.outside (hat : stage.code.At n instrs) (hview : v.performAll instrs = some v')
    (hout : n + instrs.length ≤ stage.first ∨ stage.last ≤ n)
    (hcalls : ∀ label, .call label ∉ instrs) (hinner : ∀ instr ∈ instrs, instr.isHostly = false)
    (hrest : ∀ calls', (calls = [] → calls' = []) →
      stage.Soon k calls' v' (n + instrs.length)) : stage.Soon k calls v n := by
  induction instrs generalizing calls v n with
  | nil =>
    obtain rfl := Option.some.inj hview
    exact hrest calls id
  | cons instr instrs ih =>
    obtain ⟨hinstr, hat⟩ := NativeCode.at_cons_iff.1 hat
    obtain ⟨v₁, hv₁, hview⟩ := Option.bind_eq_some_iff.1 hview
    rw [List.length_cons] at hout hrest
    have hguard : stage.GuardAt calls v n := guardAt_outside hinstr (by omega) fun hhostly => by
      rw [hinner instr List.mem_cons_self] at hhostly
      cases hhostly
    refine (tends_of_perform hinstr hguard fun p hp hposition => ?_).soon
    have hgo : (p.goTo (n + 1)).Shows v := ⟨hp.regs, hp.flags, hp.board, hp.results, hp.words⟩
    obtain ⟨p', hperform, hp', hposition'⟩ := hgo.perform hv₁
    refine ⟨p', v₁, hperform, hp', ?_⟩
    rw [show p'.position = n + 1 from hposition']
    refine ih hat hview (by omega) (fun label hmem => hcalls label (List.mem_cons_of_mem _ hmem))
      (fun other hmem => hinner other (List.mem_cons_of_mem _ hmem)) fun calls' hnil => ?_
    rw [Nat.add_assoc, Nat.add_comm 1]
    refine hrest calls' fun hcalls' => hnil ?_
    subst hcalls'
    exact noteCalls_nil fun label hlabel => hcalls label (hlabel ▸ List.mem_cons_self)

/-- The host has been returned to. -/
theorem Tends.ended (hlast : stage.last ≤ stage.code.instrs.size)
    (h : v.regs.rax = .int sentinel ∨ ∃ board,
      stage.board.updateFromBytes (v.board.toList.flatMap wordBytes) = .ok board) :
    stage.Tends k calls v stage.code.instrs.size := by
  refine tends_of_next
    (fun p hp hposition => ⟨fun _ hlt => ?_, fun _ => ?_, fun instr hinstr => ?_⟩)
    fun p _ hposition s' hnext => ?_
  · have hlt : p.position < stage.last := hlt
    omega
  · simp only [hp.reg, hp.board]
    exact h
  · have hlt : p.position < stage.code.instrs.size := (Array.getElem?_eq_some_iff.1 hinstr).1
    omega
  · obtain ⟨instr, q, hinstr, -⟩ := hnext
    have hlt : p.position < stage.code.instrs.size := (Array.getElem?_eq_some_iff.1 hinstr).1
    omega

/-- The words of the host are restored, and the host goes on. -/
theorem Soon.host (hlast : stage.last ≤ stage.code.instrs.size)
    (hat : stage.code.At n (restoreHostRegisters ++ [.ret]))
    (hout : n + (restoreHostRegisters ++ [Instr.ret]).length ≤ stage.first ∨ stage.last ≤ n)
    (hlive : v.live = hostWords stage.host stage.code)
    (h : v.regs.rax = .int sentinel ∨ ∃ board,
      stage.board.updateFromBytes (v.board.toList.flatMap wordBytes) = .ok board) :
    stage.Soon k calls v n := by
  obtain ⟨v₁, v', hview, hpop, hrax, hboard, -⟩ := Setting.exists_restoreHost hlive
  obtain ⟨hat, hret⟩ := NativeCode.at_append_iff.1 hat
  rw [List.length_append] at hout
  refine .outside hat hview (by omega) (by simp [restoreHostRegisters]) (by decide) fun calls' _ => ?_
  refine (Tends.ret (hret 0 _ rfl) hpop (guardAt_outside (hret 0 _ rfl) ?_
    fun hhostly => absurd hhostly Bool.false_ne_true) ?_).soon
  · rw [List.length_singleton] at hout
    omega
  · exact (Tends.ended hlast (by rw [hrax, hboard]; exact h)).soon

/-! ## The result buffer -/

/-- What is in {lit}`rax` is stored in the result buffer, if there is room. -/
theorem Tends.storeResult {disp : Int32}
    (hinstr : stage.code.instrs[n]? = some (.store ⟨.r15, disp⟩ .rax))
    (hrecovers : v.Recovers stage.code stage.host) (hout : n < stage.first ∨ stage.last ≤ n)
    (hrest : ∀ v', v.Fills v' → stage.Soon k calls v' (n + 1)) : stage.Tends k calls v n := by
  refine tends_of_next (guardAt_outside hinstr hout fun _ _ hp => hrecovers.of_shows hp)
    fun p hp hposition s' hnext => ?_
  obtain ⟨other, q, hother, hq, hstep, hcalls⟩ := hnext
  subst hposition
  obtain rfl := Option.some.inj (hinstr.symm.trans hother)
  have hblurs : q = { p with regs := q.regs } ∧ ∀ r, r.isScratch = false → q.reg r = p.reg r := by
    rcases hq with rfl | ⟨-, hblurs⟩
    · exact ⟨rfl, fun _ _ => rfl⟩
    · refine ⟨hblurs.rest, fun r hr => (hblurs.regs r).resolve_right ?_⟩
      rintro ⟨-, hscratch, -⟩
      rw [hr] at hscratch
      cases hscratch
  obtain ⟨hq, hregs⟩ := hblurs
  have hposition : q.position = p.position := by rw [hq]
  obtain ⟨other, hother', hperform⟩ := NativeCode.exists_instr_of_step hstep
  rw [hposition] at hother' hperform
  obtain rfl := Option.some.inj (hinstr.symm.trans hother')
  obtain ⟨address, haddress, hperform⟩ := Option.bind_eq_some_iff.1 hperform
  have hr15' : q.reg .r15 = .results 0 := (hregs .r15 rfl).trans ((hp.reg .r15).trans hrecovers.r15)
  have haddress : (q.reg .r15).add (.int disp.toInt64) = some address := haddress
  rw [hr15'] at haddress
  obtain rfl := Option.some.inj haddress
  have hcpu := Processor.write64_results hperform
  have hreg (r : Register) (hr : r.isScratch = false) : s'.cpu.reg r = v.reg r := by
    rw [hcpu]
    exact (hregs r hr).trans (hp.reg r)
  have hshows : s'.cpu.Shows (v.adopt s'.cpu) := by
    have hadopt := hp.adopt (hreg .rsp rfl)
    refine ⟨hadopt.regs, rfl, rfl, rfl, fun a w hw => ?_⟩
    have hword : s'.cpu.word a = p.word a := by
      rw [hcpu, hq]
      rfl
    exact hword.trans (hp.words a w hw)
  refine ⟨_, hshows, ?_⟩
  have hnote : s'.calls = calls := hcalls.trans (noteCalls_of_isUnnoted rfl)
  have hnext : s'.cpu.position = p.position + 1 := by
    rw [hcpu]
    rfl
  rw [hnote, hnext]
  refine hrest _ ⟨rfl, rfl, ?_, hreg .rbx rfl, hreg .rsi rfl, hreg .rdi rfl, hreg .r11 rfl,
    hreg .r12 rfl, hreg .r15 rfl⟩
  change s'.cpu.board = v.board
  rw [hcpu, hq]
  exact hp.board

/-- Code that fills in the result buffer. -/
theorem Soon.fill (hat : stage.code.At n instrs) (hinstrs : ∀ instr ∈ instrs, instr.Fills)
    (hrecovers : v.Recovers stage.code stage.host)
    (hout : n + instrs.length ≤ stage.first ∨ stage.last ≤ n)
    (hrest : ∀ v', v.Fills v' → stage.Soon k calls v' (n + instrs.length)) :
    stage.Soon k calls v n := by
  induction instrs generalizing v n with
  | nil => exact hrest v (.refl v)
  | cons instr instrs ih =>
    obtain ⟨hinstr, hat⟩ := NativeCode.at_cons_iff.1 hat
    rw [List.length_cons] at hout hrest
    have hnext (v₁ : View) (hv₁ : v.Fills v₁) : stage.Soon k calls v₁ (n + 1) := by
      refine ih hat (fun other hother => hinstrs other (List.mem_cons_of_mem _ hother))
        (hrecovers.of_fills hv₁) (by omega) fun v' hv' => ?_
      rw [Nat.add_assoc, Nat.add_comm 1]
      exact hrest v' (hv₁.trans hv')
    rcases hinstrs instr List.mem_cons_self with hquiet | ⟨disp, rfl⟩
    · exact (Tends.quiet hinstr hquiet (guardAt_outside hinstr (by omega)
        fun _ _ hp => hrecovers.of_shows hp) fun v₁ hv₁ => hnext v₁ hv₁.fills).soon
    · exact (Tends.storeResult hinstr hrecovers (by omega) hnext).soon

/-! ## Ways back -/

section Ways

variable (hregions : Regions stage.code stage.program stage.entry stage.routines stage.stubs
  stage.first stage.last)
include hregions

/-- The stubs of messages lead back to the host. -/
theorem faults_of_hosts (hhosts : stage.Hosts v)
    (hsuffix : hostWords stage.host stage.code <:+ rest) : stage.Faults k calls v rest := by
  intro v' message label m hstub hplace hkeeps hrest
  obtain ⟨n, hout, hat⟩ := hregions.stub _ hstub
  have hcode : faultStub message label = .bind label :: (storeWords 0 (messageWords message) ++
      .movImm .rax sentinel :: .mov .rsp .rsi :: (restoreHostRegisters ++ [.ret])) := by
    simp [faultStub]
  rw [hcode] at hat
  obtain ⟨hbind, hat⟩ := NativeCode.at_cons_iff.1 hat
  obtain rfl := hregions.linked.bind_of_place hplace hbind
  obtain ⟨hstore, hat⟩ := NativeCode.at_append_iff.1 hat
  obtain ⟨hsentinel, hat⟩ := NativeCode.at_cons_iff.1 hat
  obtain ⟨hrelease, hhost⟩ := NativeCode.at_cons_iff.1 hat
  have hhosts' := hhosts.of_keeps hkeeps
  have hsuffix := hsuffix.trans hrest
  have hrecovers : v'.Recovers stage.code stage.host := ⟨hhosts'.r15, hhosts'.rsi, hsuffix⟩
  obtain ⟨above, habove⟩ := hsuffix
  refine .fill hstore fills_of_storeWords hrecovers (by omega) fun v₁ hfills => ?_
  have hlive : v₁.live = above ++ hostWords stage.host stage.code := hfills.live.trans habove.symm
  have hrecovers₁ := hrecovers.of_fills hfills
  refine (Tends.instr hsentinel rfl (guardAt_outside hsentinel (by omega)
    fun hhostly => absurd hhostly Bool.false_ne_true) rfl ?_).soon
  have hloaded : (v₁.adopt (v₁.cpu.setReg .rax (.int sentinel))).Recovers stage.code stage.host :=
    ⟨hrecovers₁.r15, hrecovers₁.rsi, hrecovers₁.words⟩
  refine Tends.soon (.setStackPointer hrelease hlive hloaded.rsi
    (guardAt_outside hrelease (by omega) fun _ _ hp => hloaded.of_shows hp) ?_)
  exact .host hregions.size hhost (by omega) rfl (.inl rfl)

/-- The end of the entry stub leads back to the host. -/
theorem Soon.exit (hboard : stage.board.WellFormed) (hspans : v.Spans stage.board)
    (hhosts : stage.Hosts v) (hlive : v.live = hostWords stage.host stage.code) :
    stage.Soon k calls v entryPlace := by
  obtain ⟨label, copies, -, hcopies, hat, hlength⟩ := hregions.start
  obtain ⟨hat, hstores, hhost⟩ := Setting.at_entryStub hat
  have hfirst : entryPlace + copies.length + 3 + (restoreHostRegisters ++ [Instr.ret]).length =
      stage.first := by
    rw [← hlength, entryStub]
    simp [entryPlace, saveHostRegisters, restoreHostRegisters]
    omega
  have hrecovers : v.Recovers stage.code stage.host :=
    ⟨hhosts.r15, hhosts.rsi, hlive ▸ List.suffix_refl _⟩
  refine .fill hat (fills_of_copyResults hcopies) hrecovers (by omega) fun v₁ hfills => ?_
  obtain ⟨x, hx, h11⟩ := hspans.r11
  obtain ⟨y, hy, h12⟩ := hspans.r12
  have hsize : v₁.board.toList.length = 4 + 4 * (stage.board.width.toNat * stage.board.height.toNat) := by
    rw [Array.length_toList, hfills.board, hspans.size]
  obtain ⟨a, b, c, d, counters, hcounters⟩ : ∃ a b c d counters,
      v₁.board.toList = [a, b, c, d] ++ counters := by
    generalize v₁.board.toList = words at hsize
    rcases words with _ | ⟨a, _ | ⟨b, _ | ⟨c, _ | ⟨d, counters⟩⟩⟩⟩
    iterate 4 exact absurd hsize (by simp only [List.length_nil, List.length_cons]; omega)
    exact ⟨a, b, c, d, counters, rfl⟩
  obtain ⟨v₂, hview, hlive₂, -, -, hboard₂⟩ := Setting.exists_storeHead
    (hfills.rbx.trans hspans.rbx) (hfills.r11.trans h11) (hfills.r12.trans h12) hcounters
  refine .outside hstores hview (.inl (by rw [← hfirst]; simp)) (by simp) (by decide)
    fun calls' _ => ?_
  refine .host hregions.size hhost (.inl (Nat.le_of_eq hfirst))
    (hlive₂.trans (hfills.live.trans hlive)) (.inr ?_)
  have hlength : counters.length = 4 * stage.board.cells.size := by
    rw [hboard.size_cells, Board.area]
    rw [hcounters, List.length_append] at hsize
    exact Nat.add_left_cancel hsize
  rw [hboard₂]
  exact ⟨_, Board.updateFromBytes_words hlength hx hy a b⟩

end Ways

end Stage
end Native
end Gobstones
