import Gobstones.Proofs.Native.Layout
import Gobstones.Proofs.Native.Simulation
/-!
# Entry to and exit from native code

This module follows the code between the host and the routines.  The entry stub sets up
the registers and calls the entrypoint; behind the call it copies the results into the
result buffer and stores the head.  The stub of a message copies the message instead and
leaves everything at once.

Main definitions:

- {lit}`NativeCode.hostView`: the view in which the host calls native code.
- {lit}`View.Fills`: only the result buffer has changed.
- {lit}`NativeCode.relabel`: what the host finds in the place of returned variables.
- {lit}`Setting.Ends`: native code has returned to the host with a result.

Main results:

- Theorem {lit}`exists_run_of_leads`: code that comes back to the host has a result.
- Theorem {lit}`leads_entry`: the entry stub calls the entrypoint.
- Theorem {lit}`exists_run_faultStub`: a stub stores its message and returns to the host.
- Theorems {lit}`Finishing.leads_exit` and {lit}`Failing.leads_stub`: the two ways back.
-/

namespace Gobstones
namespace Native

variable {code : NativeCode} {v v' v'' : View} {n : Nat} {Q : View → Nat → Prop} {host : Host}
variable {board : Board} {result : Except NativeError (Bindings × Board)}

/-! ## The host -/

/-- The view in which a host calls native code. -/
def NativeCode.hostView (code : NativeCode) (host : Host) (board : Board) : View where
  regs := (host.regs.set .rdi (.board 0)).set .rsi (.results 0)
  flags := none
  live := [.code code.instrs.size]
  dead := []
  board := board.toWords.toArray
  results := Array.replicate code.bufferWords 0

theorem shows_start (code : NativeCode) (host : Host) (board : Board) :
    (code.start host board).Shows (code.hostView host board) where
  regs := rfl
  flags := rfl
  board := rfl
  results := rfl
  words a w hw := by
    cases a with
    | zero => exact Option.some.inj hw
    | succ a => simp [View.mem, NativeCode.hostView] at hw

/-- At the end of the code a run is finished, whatever is left of its fuel. -/
theorem run_finished {p : Processor} (hposition : p.position = code.instrs.size) (more : Nat) :
    p.run (more + 1) code.instrs code.place = .finished p := by
  have hout : code.instrs[p.position]? = none := by
    rw [hposition]
    simp
  rw [Processor.run, Processor.step, hout]

/-- Code that comes back to the host finishes with a result, whatever is left of its fuel. -/
theorem exists_finished_of_leads {p : Processor} (h : code.Leads v n fun v n =>
      n = code.instrs.size ∧ ∀ p : Processor, p.Shows v → code.outcome board p = result)
    (hp : p.Shows v) (hposition : p.position = n) :
    ∃ enough p', (∀ more, p.run (enough + more) code.instrs code.place = .finished p') ∧
      code.outcome board p' = result := by
  obtain ⟨k, p', v', n', hrun, hp', hposition', hend, hresult⟩ := h p hp hposition
  refine ⟨k + 1, p', fun more => ?_, hresult p' hp'⟩
  rw [Nat.add_assoc, Nat.add_comm 1]
  exact (Processor.run_add hrun).trans (run_finished (hposition'.trans hend) more)

/-- Code that comes back to the host has a result, whatever is left of its fuel. -/
theorem exists_run_of_leads (h : code.Leads (code.hostView host board) 0 fun v n =>
      n = code.instrs.size ∧ ∀ p : Processor, p.Shows v → code.outcome board p = result) :
    ∃ enough, ∀ fuel, enough ≤ fuel → code.runFor host fuel board = some result := by
  obtain ⟨enough, p, hfinished, hresult⟩ :=
    exists_finished_of_leads h (shows_start code host board) rfl
  refine ⟨enough, fun fuel hfuel => ?_⟩
  obtain ⟨more, rfl⟩ := Nat.exists_eq_add_of_le hfuel
  have hall : (code.start host board).run (enough + more) code.instrs
      (fun label => code.places[label]?.join) = .finished p := hfinished more
  simp only [NativeCode.runFor, hall]
  exact congrArg some hresult

/-! ## The result buffer -/

/-- Only the result buffer and registers for intermediate values have changed. -/
structure View.Fills (v v' : View) : Prop where
  live : v'.live = v.live
  dead : v'.dead = v.dead
  board : v'.board = v.board
  rbx : v'.regs.rbx = v.regs.rbx
  rsi : v'.regs.rsi = v.regs.rsi
  rdi : v'.regs.rdi = v.regs.rdi
  r11 : v'.regs.r11 = v.regs.r11
  r12 : v'.regs.r12 = v.regs.r12
  r15 : v'.regs.r15 = v.regs.r15

theorem View.Fills.refl (v : View) : v.Fills v :=
  ⟨rfl, rfl, rfl, rfl, rfl, rfl, rfl, rfl, rfl⟩

theorem View.Fills.trans (h : v.Fills v') (h' : v'.Fills v'') : v.Fills v'' :=
  ⟨h'.live.trans h.live, h'.dead.trans h.dead, h'.board.trans h.board, h'.rbx.trans h.rbx,
    h'.rsi.trans h.rsi, h'.rdi.trans h.rdi, h'.r11.trans h.r11, h'.r12.trans h.r12,
    h'.r15.trans h.r15⟩

theorem View.Fills.read? (h : v.Fills v') (below : Nat) :
    v'.read? (stackAddress below) = v.read? (stackAddress below) := by
  simp only [View.read?, stackAddress, View.mem, h.live, h.dead]

/-- The word in {lit}`rax` is stored in the result buffer. -/
theorem perform_storeResult {p : Processor} {place : Label → Option Nat} {disp : Int32}
    {word : Int64} {i : Nat} (hdisp : disp.toInt64.toInt = 8 * i) (hr15 : p.reg .r15 = .results 0)
    (hrax : p.reg .rax = .int word) (hlt : i < p.results.size) :
    p.perform place (.store ⟨.r15, disp⟩ .rax) =
      some { p with results := p.results.setIfInBounds i word } := by
  have haddress : p.address? ⟨.r15, disp⟩ = some (.results (8 * i : Nat)) := by
    rw [Processor.address?, hr15, Word.add, hdisp, Int.zero_add]
    rfl
  have hindex := View.unitIndex?_mul (k := 8) (by omega) i
  simp only [Processor.perform, haddress, hrax, Processor.write64, hindex, bind, Option.bind]
  exact if_pos hlt

/-- The word in {lit}`rax` is stored behind the first words of the result buffer. -/
theorem leads_storeResult {disp : Int32} {first rest : List Int64} {old word : Int64}
    (hinstr : code.instrs[n]? = some (.store ⟨.r15, disp⟩ .rax))
    (hdisp : disp.toInt64.toInt = 8 * first.length) (hr15 : v.regs.r15 = .results 0)
    (hrax : v.regs.rax = .int word) (hresults : v.results.toList = first ++ old :: rest)
    (hrest : ∀ v', v.Fills v' → v'.results.toList = first ++ word :: rest →
      code.Leads v' (n + 1) Q) : code.Leads v n Q := by
  have hlt : first.length < v.results.size := by
    rw [← Array.length_toList, hresults]
    simp
  refine .step hinstr fun p hp hposition => ?_
  refine ⟨_, { v with results := v.results.setIfInBounds first.length word },
    perform_storeResult hdisp ((hp.reg .r15).trans hr15) ((hp.reg .rax).trans hrax)
      (hp.results ▸ hlt), ⟨hp.regs, hp.flags, hp.board, ?_, hp.words⟩,
    hposition ▸ hrest _ ⟨rfl, rfl, rfl, rfl, rfl, rfl, rfl, rfl, rfl⟩ ?_⟩
  · rw [hp.results]
  · change (v.results.setIfInBounds first.length word).toList = _
    rw [Array.toList_setIfInBounds, hresults]
    simp

/-- The displacement of a memory operand. -/
theorem toInt_memAt (base : Register) {disp : Int} (hlow : -2 ^ 31 ≤ disp) (hhigh : disp < 2 ^ 31) :
    (memAt base disp).disp.toInt64.toInt = disp := by
  rw [memAt, Int32.toInt_toInt64, Int32.toInt_ofInt_of_le hlow hhigh]

/-- Words are stored one after the other, whatever was there before. -/
theorem exists_run_storeWords {p : Processor} (first : List Int64) {words old rest : List Int64}
    (hat : code.At p.position (storeWords first.length words)) (hr15 : p.reg .r15 = .results 0)
    (hresults : p.results.toList = first ++ old ++ rest) (hlength : old.length = words.length)
    (hfits : first.length + words.length < 2 ^ 28) :
    ∃ k w, p.run k code.instrs code.place = .running
      { p with
        regs := p.regs.set .rax w
        results := (first ++ words ++ rest).toArray
        position := p.position + (storeWords first.length words).length } := by
  induction words generalizing p first old with
  | nil =>
    obtain rfl := List.eq_nil_of_length_eq_zero hlength
    refine ⟨0, p.regs.rax, ?_⟩
    rw [← hresults]
    rfl
  | cons word words ih =>
    obtain ⟨last, old, rfl⟩ := List.exists_cons_of_length_eq_add_one hlength
    rw [List.length_cons] at hfits
    obtain ⟨hmov, hat⟩ := NativeCode.at_cons_iff.1 hat
    obtain ⟨hstore, hat⟩ := NativeCode.at_cons_iff.1 hat
    have hsize : first.length < p.results.size := by
      rw [← Array.length_toList, hresults]
      simp
    let loaded : Processor := (p.goTo (p.position + 1)).setReg .rax (.int word)
    let stored : Processor :=
      { loaded with
        position := p.position + 1 + 1
        results := p.results.setIfInBounds first.length word }
    have hload : p.step code.instrs code.place = .running loaded := by
      simp only [Processor.step, hmov]
      rfl
    have hwrite : loaded.step code.instrs code.place = .running stored := by
      have hposition : loaded.position = p.position + 1 := rfl
      have hperform : (loaded.goTo (p.position + 1 + 1)).perform code.place
          (.store (memAt .r15 (8 * first.length)) .rax) = some stored :=
        perform_storeResult (toInt_memAt .r15 (by omega) (by omega)) hr15 rfl hsize
      simp only [Processor.step, hposition, hstore, hperform]
    have hnext : stored.results.toList = first ++ [word] ++ old ++ rest := by
      change (p.results.setIfInBounds first.length word).toList = _
      rw [Array.toList_setIfInBounds, hresults]
      simp
    have hcount : (first ++ [word]).length = first.length + 1 := by simp
    rw [← hcount] at hat
    obtain ⟨k, w, hrun⟩ := ih (first ++ [word]) (p := stored) hat hr15 hnext
      (Nat.succ.inj hlength) (by omega)
    refine ⟨k + 1 + 1, w, ?_⟩
    simp only [Processor.run, hload, hwrite, hrun]
    congr 2
    · simp
    · rw [storeWords, List.length_cons, List.length_cons, hcount]
      change p.position + 1 + 1 + _ = _
      omega

/-- Returned values are read at their addresses. -/
theorem View.read?_returned {gap values rest : List Word} (hdead : v.dead = gap ++ values ++ rest)
    {i : Nat} {w : Word} (hw : values[i]? = some w) :
    v.read? (stackAddress (v.live.length + gap.length + i)) = some w := by
  obtain ⟨hlt, -⟩ := List.getElem?_eq_some_iff.1 hw
  have hindex := Processor.stackIndex?_neg (v.live.length + gap.length + i)
  simp only [View.read?, stackAddress, hindex, Option.bind_some]
  rw [View.mem, hdead, Nat.add_assoc, List.getElem?_append_right (by simp), List.length_reverse,
    Nat.add_sub_cancel_left, List.append_assoc, List.getElem?_append_right (by simp),
    Nat.add_sub_cancel_left, List.getElem?_append_left hlt, hw]

/-- Returned values are copied one after the other, from some place on. -/
theorem leads_copyFrom {base : Nat} (first : List Int64) {words rest : List Int64}
    {pieces : List (List Instr)}
    (hpieces : (List.range' first.length words.length).mapM (fun i => do
      let source ← returnedValue i
      let disp ← wordOffset i
      return [Instr.load .rax source, .store ⟨.r15, disp⟩ .rax]) = .ok pieces)
    (hat : code.At n pieces.flatten) (hr15 : v.regs.r15 = .results 0)
    (hrdi : v.regs.rdi = .stack (-(8 * base : Nat)))
    (hread : ∀ i word, words[i]? = some word →
      v.read? (stackAddress (base + (first.length + i))) = some (.int word))
    (hresults : v.results.toList = first ++ List.replicate words.length 0 ++ rest)
    (hrest : ∀ v', v.Fills v' → v'.results.toList = first ++ words ++ rest →
      code.Leads v' (n + pieces.flatten.length) Q) : code.Leads v n Q := by
  induction words generalizing v n first pieces with
  | nil =>
    obtain rfl := Except.ok.inj hpieces
    exact hrest v (.refl v) hresults
  | cons word words ih =>
    rw [List.length_cons, List.range'_succ, List.mapM_cons] at hpieces
    obtain ⟨piece, hpiece, hpieces⟩ := exists_of_bind_eq_ok hpieces
    obtain ⟨others, hothers, hpieces⟩ := exists_of_bind_eq_ok hpieces
    obtain rfl := Except.ok.inj hpieces
    obtain ⟨source, hsource, hpiece⟩ := exists_of_bind_eq_ok hpiece
    obtain ⟨disp, hdisp, hpiece⟩ := exists_of_bind_eq_ok hpiece
    obtain rfl := Except.ok.inj hpiece
    rw [List.flatten_cons] at hat hrest
    obtain ⟨hcopy, hat⟩ := NativeCode.at_append_iff.1 hat
    have hload : v.perform (.load .rax source) = some (v.setReg .rax (.int word)) :=
      View.perform_load (by decide) (address?_returnedValue hsource hrdi) (hread 0 word rfl)
    have hold : v.results.toList = first ++ 0 :: (List.replicate words.length 0 ++ rest) := by
      simpa [List.replicate_succ] using hresults
    have hloaded : v.Fills (v.setReg .rax (.int word)) :=
      ⟨rfl, rfl, rfl, rfl, rfl, rfl, rfl, rfl, rfl⟩
    have hlength : (first ++ [word]).length = first.length + 1 := by simp
    refine .instr (hcopy 0 _ rfl) hload (leads_storeResult (hcopy 1 _ rfl)
      (wordOffset_eq_ok hdisp).1 hr15 rfl hold fun v₁ hfills hresults₁ => ?_)
    have hfills := hloaded.trans hfills
    refine ih (first ++ [word]) (hlength ▸ hothers) hat
      (hfills.r15.trans hr15) (hfills.rdi.trans hrdi) (fun i other hother => ?_)
      (by simpa using hresults₁) fun v' hfills' hresults' => ?_
    · rw [hfills.read?, hlength, Nat.add_assoc, Nat.add_comm 1]
      exact hread (i + 1) other hother
    · rw [List.length_append, ← Nat.add_assoc] at hrest
      exact hrest v' (hfills.trans hfills') (by simpa using hresults')

/-! ## Entry -/

/-- What the host finds in the place of returned variables: their words, read with the names and
types that it expects. -/
def NativeCode.relabel (code : NativeCode) (bindings : Bindings) : Except NativeError Bindings :=
  readResults code.results (bindings.filterMap fun binding => binding.2.toWord?)

namespace Setting

variable {setting : Setting}

/-- The instructions of the entry stub up to the call of the entrypoint. -/
def opening : List Instr :=
  saveHostRegisters ++
    [.mov .r15 .rsi, .mov .rsi .rsp, .load32 .r13 (memAt .rdi 0), .load32 .r14 (memAt .rdi 4),
      .load32 .r11 (memAt .rdi 8), .load32 .r12 (memAt .rdi 12), .lea .rbx (memAt .rdi 16)]

/-- The registers of the host are saved, and those of the board are set up. -/
theorem exists_opened (setting : Setting) :
    ∃ v, (setting.code.hostView setting.host setting.board).performAll opening = some v ∧
      v.live = hostWords setting.host setting.code ∧ v.regs.rbp = .stack (-16) ∧
        v.Carries setting.board ∧ setting.Hosts v := by
  rcases setting with ⟨program, entry, board, code, routines, stubs,
    ⟨⟨rax, rcx, rdx, rbx, rsp, rbp, rsi, rdi, r8, r9, r10, r11, r12, r13, r14, r15⟩, stale⟩⟩
  let setting : Setting := ⟨program, entry, board, code, routines, stubs,
    ⟨⟨rax, rcx, rdx, rbx, rsp, rbp, rsi, rdi, r8, r9, r10, r11, r12, r13, r14, r15⟩, stale⟩⟩
  let v : View :=
    { regs := { setting.host.regs with
        rbx := .board 16, rsp := .stack (-56), rbp := .stack (-16), rsi := .stack (-56)
        rdi := .board 0
        r11 := .nat setting.board.headX.toNat, r12 := .nat setting.board.headY.toNat
        r13 := .nat setting.board.width.toNat, r14 := .nat setting.board.height.toNat
        r15 := .results 0 }
      flags := none
      live := hostWords setting.host setting.code
      dead := []
      board := setting.board.toWords.toArray
      results := Array.replicate setting.code.bufferWords 0 }
  refine ⟨v, ?_, rfl, rfl, ⟨rfl, rfl, rfl, rfl, rfl, _, rfl, rfl⟩, ⟨rfl, rfl, rfl⟩⟩
  iterate 9 refine (View.performAll_cons rfl _).trans ?_
  refine (View.performAll_cons (View.perform_load32 (i := 0) (by decide) rfl rfl) _).trans ?_
  refine (View.performAll_cons (View.perform_load32 (i := 1) (by decide) rfl rfl) _).trans ?_
  refine (View.performAll_cons (View.perform_load32 (i := 2) (by decide) rfl rfl) _).trans ?_
  refine (View.performAll_cons (View.perform_load32 (i := 3) (by decide) rfl rfl) _).trans ?_
  rfl

/-- The entry stub calls the entrypoint. -/
theorem leads_entry (hprepared : setting.Prepared) {called : Machine}
    (hcalled : (Machine.new setting.program setting.board none).callEntrypoint = some called) :
    setting.code.Leads (setting.code.hostView setting.host setting.board) 0
      (setting.Shows called) := by
  obtain ⟨label, copies, hlabel, -, hat⟩ := hprepared.assembled.start
  have hparams := hprepared.orderly.params
  have hnext : called.frames = [.new setting.program setting.entry
        (Locals.ofArguments setting.entry.params [])] ∧
      called.stack = [] ∧ called.board = setting.board ∧ called.stepLimit = none := by
    simp only [Machine.callEntrypoint, Machine.new, hprepared.entrypoint, Option.map_some] at hcalled
    obtain rfl := Option.some.inj hcalled
    rw [hparams]
    exact ⟨rfl, rfl, rfl, rfl⟩
  have harity : setting.entry.arity = ([] : List Value).length := congrArg List.length hparams
  obtain ⟨v, hview, hlive, hrbp, hcarries, hhosts⟩ := exists_opened setting
  refine .block (hat.slice 0 14) hview ?_
  refine leads_open hprepared (Program.owns_entrypoint hprepared.entrypoint) hlabel (hat 14 _ rfl)
    harity .nil hlive ?_ ⟨hprepared.sound, rfl, rfl⟩ hcarries hhosts hnext
  rw [hrbp]
  exact .host

/-! ## Exit -/

/-- Native code has returned to the host, which finds a result. -/
structure Ends (setting : Setting) (result : Except NativeError (Bindings × Board)) (v : View)
    (n : Nat) : Prop where
  place : n = setting.code.instrs.size
  outcome : ∀ p : Processor, p.Shows v → setting.code.outcome setting.board p = result

/-- The results are read from the front of the result buffer. -/
theorem readResults_append {results : List (String × ValueType)} {words : List Int64}
    (hlength : words.length = results.length) (rest : List Int64) :
    NativeCode.readResults results (words ++ rest) = NativeCode.readResults results words := by
  induction results generalizing words with
  | nil =>
    obtain rfl := List.eq_nil_of_length_eq_zero hlength
    simp only [NativeCode.readResults]
  | cons first results ih =>
    cases words with
    | nil => simp at hlength
    | cons word words =>
      simp only [List.cons_append, NativeCode.readResults, ih (Nat.succ.inj hlength)]

/-- The code of the entry stub behind the call of the entrypoint. -/
theorem at_entryStub {label : Label} {copies : List Instr}
    (hat : code.At 0 (entryStub label copies)) :
    code.At entryPlace copies ∧
      code.At (entryPlace + copies.length) [.store32 (memAt .rbx (-8)) .r11,
        .store32 (memAt .rbx (-4)) .r12, .alu .xor .rax .rax] ∧
      code.At (entryPlace + copies.length + 3) (restoreHostRegisters ++ [.ret]) := by
  rw [entryStub, List.append_assoc _ restoreHostRegisters] at hat
  obtain ⟨hat, hhost⟩ := NativeCode.at_append_iff.1 hat
  obtain ⟨hat, hstores⟩ := NativeCode.at_append_iff.1 hat
  obtain ⟨-, hcopies⟩ := NativeCode.at_append_iff.1 hat
  rw [List.length_append, Nat.zero_add] at hstores hhost
  rw [List.length_append] at hhost
  exact ⟨hcopies, hstores, hhost⟩

/-- The words of the host are restored, and the place to return to is left. -/
theorem exists_restoreHost (hlive : v.live = hostWords host code) :
    ∃ v₁ v', v.performAll restoreHostRegisters = some v₁ ∧
      v₁.pop? = some (.code code.instrs.size, v') ∧ v'.regs.rax = v.regs.rax ∧
        v'.board = v.board ∧ v'.results = v.results := by
  rcases v with ⟨⟨rax, rcx, rdx, rbx, rsp, rbp, rsi, rdi, r8, r9, r10, r11, r12, r13, r14, r15⟩,
    flags, live, dead, cells, results⟩
  dsimp only at hlive
  subst hlive
  exact ⟨_, _, rfl, rfl, rfl, rfl, rfl⟩

/-- The words of the host are restored, and the host goes on. -/
theorem leads_host {code : NativeCode} {Q : View → Nat → Prop} {n : Nat} {v : View}
    (hat : code.At n (restoreHostRegisters ++ [.ret])) (hlive : v.live = hostWords host code)
    (hrest : ∀ v', v'.regs.rax = v.regs.rax → v'.board = v.board → v'.results = v.results →
      Q v' code.instrs.size) : code.Leads v n Q := by
  obtain ⟨v₁, v', hview, hpop, hrax, hboard, hresults⟩ := exists_restoreHost hlive
  exact .block (hat.slice 0 6) hview (.ret (hat 6 _ rfl) hpop (.done (hrest v' hrax hboard hresults)))

/-- The address of a word in front of the cells. -/
theorem address?_header (hrbx : v.regs.rbx = .board 16) {disp : Int} (hlow : -2 ^ 31 ≤ disp)
    (hhigh : disp < 2 ^ 31) {i : Nat} (hi : 16 + disp = (4 * i : Nat)) :
    v.cpu.address? (memAt .rbx disp) = some (.board (4 * i : Nat)) := by
  have hreg : v.cpu.reg .rbx = .board 16 := hrbx
  have hdisp := toInt_memAt .rbx hlow hhigh
  rw [memAt] at hdisp
  rw [Processor.address?, memAt, hreg, Word.add, hdisp, hi]

/-- The head is stored in front of the cells, and everything went well. -/
theorem exists_storeHead {x y a b c d : UInt32} {cells : List UInt32}
    (hrbx : v.regs.rbx = .board 16)
    (hr11 : v.regs.r11 = .nat x.toNat) (hr12 : v.regs.r12 = .nat y.toNat)
    (hboard : v.board.toList = [a, b, c, d] ++ cells) :
    ∃ v', v.performAll [.store32 (memAt .rbx (-8)) .r11, .store32 (memAt .rbx (-4)) .r12,
        .alu .xor .rax .rax] = some v' ∧ v'.live = v.live ∧ v'.regs.rax = .int 0 ∧
      v'.results = v.results ∧ v'.board.toList = [a, b, x, y] ++ cells := by
  have hsize : v.board.size = cells.length + 4 := by
    rw [← Array.length_toList, hboard]
    simp
  refine ⟨_, Option.bind_eq_some_iff.2 ⟨_, View.perform_store32 (i := 2)
    (address?_header hrbx (by decide) (by decide) rfl) (by omega) hr11,
      Option.bind_eq_some_iff.2 ⟨_, View.perform_store32 (i := 3)
        (address?_header hrbx (by decide) (by decide) rfl) ?_ hr12, rfl⟩⟩, rfl, rfl, rfl, ?_⟩
  · change 3 < (v.board.setIfInBounds 2 _).size
    rw [Array.size_setIfInBounds]
    omega
  · change ((v.board.setIfInBounds 2 (Int64.ofNat x.toNat).toUInt64.toUInt32).setIfInBounds 3
      (Int64.ofNat y.toNat).toUInt64.toUInt32).toList = _
    rw [Array.toList_setIfInBounds, Array.toList_setIfInBounds, hboard, toUInt32_ofNat,
      toUInt32_ofNat, UInt32.ofNat_toNat, UInt32.ofNat_toNat]
    rfl

/-- The words of variables are determined by their values. -/
theorem filterMap_toWord {bindings : Bindings} {words : List Int64}
    (h : List.Forall₂ (fun binding word => binding.2.toWord? = some word) bindings words) :
    bindings.filterMap (fun binding => binding.2.toWord?) = words := by
  induction h with
  | nil => rfl
  | cons hword _ ih => simp only [List.filterMap_cons, hword, ih]

/-- Variables are read back from their words with their names and types. -/
theorem readResults_signature {bindings : Bindings} {words : List Int64}
    (h : List.Forall₂ (fun binding word => binding.2.toWord? = some word) bindings words) :
    NativeCode.readResults bindings.signature words = .ok bindings := by
  induction h with
  | nil => rfl
  | @cons binding word bindings words hword _ ih =>
    change NativeCode.readResults
      ((binding.1, binding.2.type) :: Bindings.signature bindings) (word :: words) = _
    rw [NativeCode.readResults, Value.ofWord?_of_toWord hword, ih]
    rfl

/-- The host finds variables as they are if it expects them by their names and types. -/
theorem Finishing.relabel_eq {bindings : Bindings} {board : Board}
    (h : setting.Finishing bindings board v n)
    (hresults : setting.code.results = bindings.signature) :
    setting.code.relabel bindings = .ok bindings := by
  obtain ⟨words, -, -, hwords⟩ := h.results
  rw [NativeCode.relabel, hresults, filterMap_toWord hwords, readResults_signature hwords]

/-- If all returns of variables of the entrypoint name the same variables, the host expects those
that are returned. -/
theorem Finishing.results_eq (hprepared : setting.Prepared) {bindings : Bindings} {board : Board}
    (h : setting.Finishing bindings board v n)
    (hsame : ∀ n names, .returnVars n names ∈ setting.entry.code →
      ∀ n' names', .returnVars n' names' ∈ setting.entry.code → names' = names) :
    setting.code.results = bindings.signature := by
  rcases h.returned with rfl | ⟨count, names, hmem, hnames⟩
  · obtain ⟨words, -, hlength, hwords⟩ := h.results
    cases hwords
    exact List.eq_nil_of_length_eq_zero hlength.symm
  · rcases returnedNames_eq setting.entry with ⟨-, hnever⟩ | ⟨other, hother⟩
    · exact (hnever _ _ hmem).elim
    · have hresults := hprepared.assembled.results
      rw [hsame _ _ hmem _ _ hother, hnames] at hresults
      exact (Except.ok.inj hresults).symm

/-- Behind the call of the entrypoint the results are copied and the head is stored. -/
theorem Finishing.leads_exit (hprepared : setting.Prepared) {bindings : Bindings} {board : Board}
    (h : setting.Finishing bindings board v n) :
    setting.code.Leads v n (setting.Ends ((setting.code.relabel bindings).map fun returned =>
      (returned, setting.board.takeOver board))) := by
  obtain ⟨label, copies, -, hcopies, hat⟩ := hprepared.assembled.start
  obtain ⟨hat, hstores, hhost⟩ := at_entryStub hat
  obtain ⟨pieces, hpieces, hcopies⟩ := exists_of_bind_eq_ok hcopies
  obtain rfl := Except.ok.inj hcopies
  obtain ⟨words, ⟨gap, rest, hdead, hrdi⟩, hlength, hvalues⟩ := h.results
  obtain ⟨header, hheader, hcells⟩ := h.carries.cells
  obtain rfl := h.place
  rw [List.range_eq_range', ← hlength] at hpieces
  have hroom : words.length ≤ setting.code.bufferWords := by
    rw [hlength]
    exact Nat.le_max_left _ _
  have hempty : v.results.toList = [] ++ List.replicate words.length 0 ++
      List.replicate (setting.code.bufferWords - words.length) 0 := by
    rw [h.hosts.results, Array.toList_replicate, List.nil_append, List.replicate_append_replicate,
      Nat.add_sub_cancel' hroom]
  have hread (i : Nat) (word : Int64) (hword : words[i]? = some word) :
      v.read? (stackAddress (v.live.length + gap.length + (0 + i))) = some (.int word) := by
    rw [Nat.zero_add]
    exact View.read?_returned hdead (by rw [List.getElem?_map, hword]; rfl)
  refine leads_copyFrom [] hpieces hat h.hosts.r15 hrdi hread hempty
    fun v₁ hfills hresults => ?_
  match header, hheader with
  | [a, b, c, d], _ =>
    obtain ⟨v₂, hview, hlive, hrax, hresults₂, hboard⟩ := exists_storeHead
      (hfills.rbx.trans h.carries.rbx) (hfills.r11.trans h.carries.r11)
      (hfills.r12.trans h.carries.r12) (hfills.board ▸ hcells)
    refine .block hstores hview ?_
    refine leads_host hhost (hlive.trans (hfills.live.trans h.live))
      fun v' hrax' hboard' hresults' => ?_
    refine ⟨rfl, fun p hp => ?_⟩
    have hp₀ : p.reg .rax = .int 0 := by
      rw [hp.reg]
      exact hrax'.trans hrax
    have hcells : board.cells.size = setting.board.cells.size :=
      h.board.size hprepared.sound.toWellFormed
    have hx : board.headX < setting.board.width := h.board.width ▸ h.board.headX_lt
    have hy : board.headY < setting.board.height := h.board.height ▸ h.board.headY_lt
    have hupdate := Board.updateFromBytes_of_words hcells hx hy a b
    have hwords : p.board.toList = a :: b :: board.headX :: board.headY ::
        board.cells.toList.flatMap Cell.counters := by
      rw [hp.board, hboard', hboard]
      rfl
    have hbuffer : p.results.toList = words ++
        List.replicate (setting.code.bufferWords - words.length) 0 := by
      rw [hp.results, hresults', hresults₂, hresults, List.nil_append]
    have hsentinel : (Word.int 0 = .int sentinel) = False := by
      simp [sentinel]
    simp only [NativeCode.outcome, hp₀, hsentinel, if_false, hwords, hupdate, hbuffer,
      readResults_append hlength, NativeCode.relabel, filterMap_toWord hvalues]
    cases NativeCode.readResults setting.code.results words <;> rfl

/-- The words of the host are read from the bottom of the stack. -/
theorem read64_hostWords {p : Processor} (hp : p.Shows v) (h : hostWords host code <:+ v.live)
    (i : Nat) (w : Word) (hw : (hostWords host code)[i]? = some w) :
    p.read64 (.stack (8 * i - 56)) = some w := by
  obtain ⟨above, habove⟩ := h
  have hlt : i < 7 := (List.getElem?_eq_some_iff.1 hw).1
  have haddress : (8 * i - 56 : Int) = -(8 * (6 - i + 1 : Nat)) := by omega
  refine hp.read64 ?_
  rw [haddress, View.read?, Processor.stackIndex?_neg, Option.bind_some, View.mem, ← habove,
    List.reverse_append, List.append_assoc,
    List.getElem?_append_left
      (by rw [List.length_reverse]; exact Nat.lt_succ_of_le (Nat.sub_le 6 i)),
    List.getElem?_reverse (Nat.lt_succ_of_le (Nat.sub_le 6 i))]
  rw [show (hostWords host code).length - 1 - (6 - i) = i from
    Nat.sub_sub_self (Nat.le_of_lt_succ hlt)]
  exact hw

/-- The stack pointer is back at the words of the host. -/
theorem shows_hostWords {p : Processor} (hrsp : p.reg .rsp = .stack (-56))
    (hwords : ∀ (i : Nat) (w : Word), (hostWords host code)[i]? = some w →
      p.read64 (.stack (8 * i - 56)) = some w) :
    p.Shows ⟨p.regs, p.flags, hostWords host code, [], p.board, p.results⟩ := by
  refine ⟨?_, rfl, rfl, rfl, fun a w hw => ?_⟩
  · have htop : p.regs.set .rsp (p.reg .rsp) = p.regs := rfl
    rw [← htop, hrsp]
    rfl
  · rw [View.mem, List.append_nil] at hw
    have hlt : a < 7 := by simpa [hostWords] using (List.getElem?_eq_some_iff.1 hw).1
    rw [List.getElem?_reverse hlt] at hw
    have hread := hwords _ w hw
    have haddress : (8 * (6 - a : Nat) - 56 : Int) = -(8 * (a + 1 : Nat)) := by omega
    have hread : p.read64 (.stack (8 * (6 - a : Nat) - 56)) = some w := hread
    rw [haddress, Processor.read64, Processor.stackIndex?_neg] at hread
    exact Option.some.inj hread

/-- The stub of a message copies the message over the front of the result buffer and leaves
everything at once. -/
theorem exists_run_faultStub {p : Processor} {message : String} {label : Label} {m : Nat}
    (hat : code.At m (faultStub message label)) (hposition : p.position = m + 1)
    (hr15 : p.reg .r15 = .results 0) (hrsi : p.reg .rsi = .stack (-56))
    (hwords : ∀ (i : Nat) (w : Word), (hostWords host code)[i]? = some w →
      p.read64 (.stack (8 * i - 56)) = some w)
    (hroom : messageCapacity ≤ 8 * p.results.size) :
    ∃ k p' v', p.run k code.instrs code.place = .running p' ∧ p'.Shows v' ∧
      p'.position = code.instrs.size ∧ v'.regs.rax = .int sentinel ∧
        v'.results.toList =
          messageWords message ++ p.results.toList.drop (messageWords message).length := by
  have hcode : faultStub message label = .bind label :: (storeWords 0 (messageWords message) ++
      .movImm .rax sentinel :: .mov .rsp .rsi :: (restoreHostRegisters ++ [.ret])) := by
    simp [faultStub]
  rw [hcode] at hat
  obtain ⟨-, hat⟩ := NativeCode.at_cons_iff.1 hat
  rw [← hposition] at hat
  obtain ⟨hstore, hat⟩ := NativeCode.at_append_iff.1 hat
  obtain ⟨hsentinel, hat⟩ := NativeCode.at_cons_iff.1 hat
  obtain ⟨hrelease, hhost⟩ := NativeCode.at_cons_iff.1 hat
  have hfits := length_messageWords_le message
  have hcapacity : messageCapacity = 512 := rfl
  have hsplit : p.results.toList = [] ++ p.results.toList.take (messageWords message).length ++
      p.results.toList.drop (messageWords message).length := by
    rw [List.nil_append, List.take_append_drop]
  have hsize : p.results.toList.length = p.results.size := Array.length_toList
  have hlength : (p.results.toList.take (messageWords message).length).length =
      (messageWords message).length :=
    List.length_take_of_le (by omega)
  obtain ⟨k, w, hstored⟩ := exists_run_storeWords [] hstore hr15 hsplit hlength
    (by rw [List.length_nil]; omega)
  let m' := p.position + (storeWords 0 (messageWords message)).length
  let stored : Processor :=
    { p with
      regs := p.regs.set .rax w
      results := (messageWords message ++
        p.results.toList.drop (messageWords message).length).toArray
      position := m' }
  let loaded : Processor := (stored.goTo (m' + 1)).setReg .rax (.int sentinel)
  let released : Processor := (loaded.goTo (m' + 1 + 1)).setReg .rsp (.stack (-56))
  have hload : stored.step code.instrs code.place = .running loaded := by
    have hinstr : code.instrs[stored.position]? = some (.movImm .rax sentinel) := hsentinel
    simp only [Processor.step, hinstr]
    rfl
  have hreset : loaded.step code.instrs code.place = .running released := by
    have hinstr : code.instrs[loaded.position]? = some (.mov .rsp .rsi) := hrelease
    have hsrc : (loaded.goTo (loaded.position + 1)).reg .rsi = .stack (-56) := hrsi
    simp only [Processor.step, hinstr, Processor.perform, hsrc]
    rfl
  have hreleased : stored.run 2 code.instrs code.place = .running released := by
    simp only [Processor.run, hload, hreset]
  have hleads := leads_host (v := ⟨released.regs, p.flags, hostWords host code, [], p.board,
    stored.results⟩) (Q := fun v n => n = code.instrs.size ∧ v.regs.rax = .int sentinel ∧
      v.results = stored.results) hhost rfl fun v' hrax _ hresults => ⟨rfl, hrax, hresults⟩
  obtain ⟨l, p', v', _, hrun, hp', hposition', rfl, hrax, hresults⟩ :=
    hleads released (shows_hostWords rfl hwords) rfl
  refine ⟨k + (2 + l), p', v', ?_, hp', hposition', hrax, by rw [hresults]⟩
  rw [Processor.run_add hstored]
  exact (Processor.run_add hreleased).trans hrun

/-- The stub of a message copies the message and leaves everything at once. -/
theorem leads_faultStub (hlinked : setting.code.Linked) {message : String} {label : Label} {m : Nat}
    (hat : setting.code.At m (faultStub message label)) (hplace : setting.code.place label = some n)
    (hhosts : setting.Hosts v) (hsuffix : hostWords host setting.code <:+ v.live) :
    setting.code.Leads v n (setting.Ends (.error (.fault (shownMessage message)))) := by
  have hbind : setting.code.instrs[m]? = some (.bind label) := hat 0 _ rfl
  obtain rfl := hlinked.bind_of_place hplace hbind
  intro p hp hposition
  have hroom : messageCapacity ≤ 8 * p.results.size := by
    rw [hp.results, hhosts.results, Array.size_replicate, NativeCode.bufferWords]
    have hcapacity : messageCapacity = 512 := rfl
    omega
  obtain ⟨k, p', v', hrun, hp', hend, hrax, hresults⟩ := exists_run_faultStub hat hposition
    ((hp.reg .r15).trans hhosts.r15) ((hp.reg .rsi).trans hhosts.rsi)
    (read64_hostWords hp hsuffix) hroom
  refine ⟨k, p', v', _, hrun, hp', hend, rfl, fun q hq => ?_⟩
  have hrax : q.reg .rax = .int sentinel := (hq.reg .rax).trans hrax
  simp only [NativeCode.outcome, hrax, if_true, hq.results, hresults, messageOf_messageWords]
  rfl

/-- A failure comes back to the host through its stub. -/
theorem Failing.leads_stub (hprepared : setting.Prepared) {message : String}
    (h : setting.Failing message v n) :
    setting.code.Leads v n (setting.Ends (.error (.fault (shownMessage message)))) := by
  obtain ⟨label, hstub, hplace⟩ := h.stub
  obtain ⟨m, hat⟩ := hprepared.assembled.stub _ hstub
  exact leads_faultStub hprepared.assembled.linked hat hplace h.hosts h.live

end Setting

end Native
end Gobstones
