import Gobstones.Proofs.Native.Exits
import Gobstones.Proofs.Native.Saving
/-!
# Activation records on any words

This module says what the native stack looks like while routines run, when nothing is known
of the words that a program computes with.  What an activation needs to go on and to return
is kept out of the reach of the program: the words of its frame that belong to the call, the
board that its transaction has saved, and a word for every variable of its routine.

Main definitions:

- {lit}`Program.ShapesBuiltins`: builtins have the shapes of those that they are named after.
- {lit}`Stage.Fit`: what native code relies on.
- {lit}`Record`: an activation with its words on the stack.
- {lit}`Stage.Awaits`: the callers of an activation, up to the host.
- {lit}`Stage.Runs`: the innermost activation is about to go on with an instruction.

Main results:

- Theorem {lit}`Stage.Awaits.activates`: the callers have led to the activation.
- Theorem {lit}`Stage.Acts.ownWord`: a variable lies in the words of its own activation.
- Theorem {lit}`Stage.Acts.guardAt_variable`: variables are accessed where they lie.
- Theorem {lit}`Record.Lies.setVariable`: writing a variable leaves the rest alone.
-/

namespace Gobstones

/-! ## Requirements -/

/-- The builtins of all modules take as many arguments as the standard ones of their names, and
they are of the same kind. -/
def Program.ShapesBuiltins (program : Program) : Prop :=
  ∀ home, program.Reaches home → ∀ builtin ∈ home.builtins.entries,
    ∀ standard ∈ BuiltinTable.standard.entries, standard.name = builtin.name →
      standard.arity = builtin.arity ∧ standard.kind = builtin.kind

/-- The standard builtins have their own shapes. -/
theorem Program.ShapesBuiltins.of_standard {program : Program}
    (h : ∀ home, program.Reaches home → home.builtins = BuiltinTable.standard) :
    program.ShapesBuiltins := by
  have hshapes : ∀ builtin ∈ BuiltinTable.standard.entries,
      ∀ standard ∈ BuiltinTable.standard.entries, standard.name = builtin.name →
        standard.arity = builtin.arity ∧ standard.kind = builtin.kind := by
    decide +kernel
  intro home hhome
  rw [h home hhome]
  exact hshapes

namespace Native

/-- What native code relies on. -/
structure Stage.Fit (stage : Stage) : Prop where
  regions : Regions stage.code stage.program stage.entry stage.routines stage.stubs
    stage.first stage.last
  names : stage.program.NamesModules
  builtins : stage.program.ShapesBuiltins
  params : stage.entry.params = []
  board : stage.board.WellFormed
  fits : stage.board.nativeLength < 2 ^ 63

/-! ## Code of routines -/

namespace RoutineCompiler

/-- The code of instructions of a routine lies at a position, inside the code of the routine. -/
def Continues (rc : RoutineCompiler) (stage : Stage) (start stop n : Nat)
    (instructions : List Instruction) : Prop :=
  ∃ body, rc.Translates stage.stubs instructions body ∧ stage.code.At n body ∧
    start ≤ n ∧ n + body.length ≤ stop

/-- The code of a routine lies between two positions. -/
structure Placed (rc : RoutineCompiler) (stage : Stage) (start stop : Nat) : Prop where
  routines : rc.routines = stage.routines
  layout : rc.layout = FrameLayout.ofRoutine rc.routine
  generates : ∃ before after,
    stage.code.Generates stage.routines rc.program rc.routine before after ∧
    before.instrs.size = start ∧ after.instrs.size = stop
  code : ∃ label, stage.code.At start (prologue label rc.layout.locals) ∧
    rc.Continues stage start stop (start + (prologue label rc.layout.locals).length)
      rc.routine.code.toList

variable {rc : RoutineCompiler} {stage : Stage} {start stop n : Nat}

/-- The code of the next instruction, which is not the end of a transaction. -/
theorem Continues.split {routine : Routine} {ip : Nat} {instruction : Instruction}
    (h : rc.Continues stage start stop n (routine.code.toList.drop ip))
    (hinstruction : routine.code[ip]? = some instruction) (hleave : instruction ≠ .leave) :
    ∃ first, rc.InstructionCode stage.stubs instruction first ∧ stage.code.At n first ∧
      start ≤ n ∧ n + first.length ≤ stop ∧
        rc.Continues stage start stop (n + first.length) (routine.code.toList.drop (ip + 1)) := by
  obtain ⟨body, htranslates, hat, hstart, hstop⟩ := h
  obtain ⟨first, rest, rfl, hfirst, hrest⟩ := htranslates.split hinstruction hleave
  obtain ⟨hat, hat'⟩ := NativeCode.at_append_iff.1 hat
  rw [List.length_append] at hstop
  exact ⟨first, hfirst, hat, hstart, by omega, rest, hrest, hat', by omega, by omega⟩

/-- The code of the end of a transaction and of the return after it. -/
theorem Continues.split_leave {routine : Routine} {ip k : Nat}
    (h : rc.Continues stage start stop n (routine.code.toList.drop ip))
    (hleave : routine.code[ip]? = some .leave) (hret : routine.code[ip + 1]? = some (.ret k)) :
    ∃ first, LeaveCode k first ∧ stage.code.At n first := by
  obtain ⟨body, htranslates, hat, -⟩ := h
  obtain ⟨first, rest, rfl, hfirst⟩ := htranslates.split_leave hleave hret
  exact ⟨first, hfirst, (NativeCode.at_append_iff.1 hat).1⟩

/-- A native jump leads where the jump of the machine leads. -/
theorem Placed.target (h : rc.Placed stage start stop) (hlinked : stage.code.Linked)
    {ip target : Nat} {name : String} {label : Label}
    (htarget : rc.routine.target? ip = some target)
    (hname : rc.routine.code[ip]?.bind Instruction.jumpLabel? = some name)
    (hlabel : rc.labels.lookup name = some label) {i : Nat} {instr : Instr}
    (hinstr : stage.code.instrs[i]? = some instr) (hto : instr.target? = some label) :
    ∃ m, stage.code.place label = some m ∧
      rc.Continues stage start stop m (rc.routine.code.toList.drop target) := by
  obtain ⟨other, -, body, htranslates, hat, hstart, hstop⟩ := h.code
  obtain ⟨front, rest, rfl, hrest⟩ := htranslates.target htarget hname hlabel
  obtain ⟨-, hat⟩ := NativeCode.at_append_iff.1 hat
  obtain ⟨hbind, hat⟩ := NativeCode.at_cons_iff.1 hat
  rw [List.length_append, List.length_cons] at hstop
  exact ⟨_, hlinked.place_eq hinstr hto hbind, rest, hrest, hat, by omega, by omega⟩

end RoutineCompiler

namespace Stage

variable {stage : Stage} {home : Program} {routine : Routine}

theorem Fit.bracketed (h : stage.Fit) (howns : stage.program.Owns home routine) :
    routine.Bracketed :=
  howns.bracketed h.names h.regions.layout

theorem Fit.depthsFit (h : stage.Fit) (howns : stage.program.Owns home routine) :
    home.DepthsFit routine (home.depthAt? routine) :=
  howns.depthsFit h.names h.regions.layout

/-- The code of every routine behind the program is placed somewhere, behind its label. -/
theorem Fit.exists_placed (h : stage.Fit) (howns : stage.program.Owns home routine) :
    ∃ (rc : RoutineCompiler) (start stop : Nat), rc.program = home ∧ rc.routine = routine ∧
      rc.Placed stage start stop ∧
        ∀ label, stage.routines.lookup (home.moduleName, routine.name) = some label →
          stage.code.instrs[start]? = some (.bind label) := by
  have hmem := Program.mem_modules h.names howns.reaches
  obtain ⟨before, after, hgenerates, -, -, hstubs⟩ := h.regions.routine home hmem routine howns.mem
  obtain ⟨instrs, hemits, hcode⟩ := emits_emitRoutine hgenerates.emits
  obtain ⟨labels, body, last, rfl, htranslates⟩ := hcode _ hstubs
  have hat := NativeCode.at_of_emits hemits hgenerates.kept
  have hsize := congrArg List.length hemits.instrs
  simp only [List.length_append, Array.length_toList] at hsize
  rw [List.append_assoc] at hat
  obtain ⟨hopen, hat⟩ := NativeCode.at_append_iff.1 hat
  obtain ⟨hbody, -⟩ := NativeCode.at_append_iff.1 hat
  refine ⟨_, before.instrs.size, after.instrs.size, rfl, rfl, ⟨rfl, rfl, ⟨before, after, hgenerates,
    rfl, rfl⟩, _, hopen, body, htranslates, hbody, Nat.le_add_right _ _, ?_⟩, fun label =>
      hgenerates.start⟩
  rw [hsize, ← Nat.add_assoc, ← Nat.add_assoc]
  exact Nat.le_add_right _ _

end Stage

/-! ## Records -/

/-- A transaction that is open has saved a board. -/
def OpenCall.Saves (call : OpenCall) (board : Board) (inside : Bool) (words : List Word) : Prop :=
  if inside then ∃ saved, call.saved = some saved ∧ saved.Lies board words
  else call.saved = none ∧ words = []

theorem OpenCall.Saves.length {call : OpenCall} {board : Board} {inside : Bool}
    {words : List Word} (h : call.Saves board inside words) :
    8 * words.length = call.saved.elim 0 SavedBoard.bytes := by
  cases inside with
  | false => rw [h.1, h.2]; rfl
  | true =>
    obtain ⟨saved, hsaved, hlies⟩ := h
    rw [hsaved]
    exact hlies.length

/-- An activation with its words on the stack: its operands, the board that its transaction has
saved, and its frame, with what lies below. -/
structure Record where
  rc : RoutineCompiler
  start : Nat
  stop : Nat
  call : OpenCall
  ip : Nat
  words : List Word
  saved : List Word
  frame : List Word
  below : List Word
  rbp : Word
  ret : Nat

/-- The words of an activation that the program does not compute with are what they should be.
A local variable that has not been assigned has no value. -/
structure Record.Lies (record : Record) (stage : Stage) : Prop where
  owns : stage.program.Owns record.rc.program record.rc.routine
  placed : record.rc.Placed stage record.start record.stop
  site : ∃ label, stage.code.instrs[record.call.site]? = some (.call label) ∧
    stage.code.place label = some (record.start + 1)
  link : record.call.link = -(8 * (record.below.length + record.rc.layout.params + 1 : Nat))
  staying : record.call.leaving = false
  saves : record.call.Saves stage.board (record.rc.routine.inTransaction record.ip) record.saved
  length : record.frame.length = record.rc.layout.locals + 2 + record.rc.layout.params
  caller : record.frame[record.rc.layout.locals]? = some record.rbp
  ret : record.frame[record.rc.layout.locals + 1]? = some (.code record.ret)
  unassigned : ∀ i < record.rc.layout.locals, ∀ disp : Int32,
    disp.toInt64.toInt = 8 * ((i : Int) - record.rc.layout.locals) →
      disp ∉ record.call.assigned → record.frame[i]? = some (.int sentinel)

variable {stage : Stage} {record : Record} {callers : List OpenCall} {v v' : View} {n m : Nat}
variable {home : Program} {routine : Routine} {below : List Word} {rbp : Word} {ret : Nat}

/-- A word is popped into a variable, or the value of a variable is forgotten. -/
theorem Record.Lies.setVariable (h : record.Lies stage) {i : Nat} {disp : Int32} {w : Word}
    {assigned : List Int32} (hdisp : disp.toInt64.toInt = 8 * ((i : Int) - record.rc.layout.locals))
    (hi : i ≠ record.rc.layout.locals ∧ i ≠ record.rc.layout.locals + 1)
    (hassigned : ∀ other, other ∉ assigned → other = disp ∧ w = .int sentinel ∨
      other ≠ disp ∧ other ∉ record.call.assigned) :
    ({ record with
      frame := record.frame.set i w
      call := { record.call with assigned } } : Record).Lies stage where
  owns := h.owns
  placed := h.placed
  site := h.site
  link := h.link
  staying := h.staying
  saves := h.saves
  length := (List.length_set ..).trans h.length
  caller := (List.getElem?_set_ne hi.1).trans h.caller
  ret := (List.getElem?_set_ne hi.2).trans h.ret
  unassigned j hj other hother hmem := by
    have hj : j < record.rc.layout.locals := hj
    have hother : other.toInt64.toInt = 8 * ((j : Int) - record.rc.layout.locals) := hother
    rcases hassigned other hmem with ⟨rfl, rfl⟩ | ⟨hne, hmem⟩
    · obtain rfl : i = j := by omega
      have hlength := h.length
      exact List.getElem?_set_self (by omega)
    · refine (List.getElem?_set_ne ?_).trans (h.unassigned j hj other hother hmem)
      rintro rfl
      rw [Int32.toInt_toInt64] at hdisp hother
      exact hne (Int32.toInt_inj.1 (hother.trans hdisp.symm))

namespace Stage

/-! ## Callers -/

/-- The callers of an activation, innermost first, with all the words below its arguments.  The
entrypoint is called by the host. -/
inductive Awaits (stage : Stage) : Program → Routine → List OpenCall → List Word → Word → Nat →
    Prop where
  | host :
    Awaits stage stage.program stage.entry [] (hostWords stage.host stage.code) (.stack (-16))
      entryPlace
  | call {record : Record} {callers : List OpenCall} {home : Program} {callee : Routine}
    {name : String} {n : Nat} {drop pushes : List Instr} (hlies : record.Lies stage)
    (hcall : record.rc.routine.code[record.ip]? = some (.call name callee.arity))
    (hcallee : record.rc.program.callee? name = some (home, callee))
    (hdepth : record.rc.program.depthAt? record.rc.routine record.ip =
      some (callee.arity + record.words.length))
    (hdrop : dropWords callee.arity = .ok drop)
    (hpushes : RoutineCompiler.pushResults callee.resultCount = .ok pushes)
    (hat : stage.code.At n (drop ++ pushes))
    (hcode : record.rc.Continues stage record.start record.stop (n + (drop ++ pushes).length)
      (record.rc.routine.code.toList.drop (record.ip + 1)))
    (h : Awaits stage record.rc.program record.rc.routine callers record.below record.rbp
      record.ret) :
    Awaits stage home callee (record.call :: callers)
      (record.words ++ record.saved ++ record.frame ++ record.below)
      (framePointer record.rc.layout record.below) n

/-- The words of the host lie below all others. -/
theorem Awaits.suffix (h : stage.Awaits home routine callers below rbp ret) :
    hostWords stage.host stage.code <:+ below := by
  induction h with
  | host => exact List.suffix_refl _
  | call _ _ _ _ _ _ _ _ _ ih => exact ih.trans (List.suffix_append _ _)

/-- The callers have led to an activation that has its arguments on top of their words. -/
theorem Awaits.activates (hfit : stage.Fit)
    (h : stage.Awaits home routine callers below rbp ret) {call : OpenCall}
    (hlink : call.link = -(8 * (below.length + routine.arity + 1 : Nat))) :
    stage.program.Activates stage.entry home routine call callers := by
  induction h generalizing call with
  | host =>
    refine .host ?_
    rw [hlink, Routine.arity, hfit.params]
    rfl
  | @call record callers home callee name n drop pushes hlies hcall hcallee _ _ _ _ _ _ ih =>
    have hparams : record.rc.layout.params = record.rc.routine.arity := by
      rw [hlies.placed.layout, FrameLayout.params_ofRoutine]
      rfl
    refine .call (ih ?_) (Array.mem_of_getElem? hcall) hcallee ?_
    · rw [← hparams]
      exact hlies.link
    · have hsaved := hlies.saves.length
      have hlength := hlies.length
      rw [hlink, OpenCall.base, hlies.link, ← hlies.placed.layout, ← hsaved]
      simp only [List.length_append]
      push_cast
      omega

/-! ## The innermost activation -/

/-- The words of the innermost activation and of its callers are on the stack. -/
structure Acts (stage : Stage) (record : Record) (callers : List OpenCall) (v : View) : Prop where
  lies : record.Lies stage
  awaits :
    stage.Awaits record.rc.program record.rc.routine callers record.below record.rbp record.ret
  live : v.live = record.words ++ record.saved ++ record.frame ++ record.below
  rbp : v.regs.rbp = framePointer record.rc.layout record.below
  spans : v.Spans stage.board
  hosts : stage.Hosts v

/-- The innermost activation is about to go on with an instruction, at the depth that was found
for it. -/
structure Runs (stage : Stage) (record : Record) (callers : List OpenCall) (v : View) (n : Nat) :
    Prop extends Acts stage record callers v where
  depth : record.rc.program.depthAt? record.rc.routine record.ip = some record.words.length
  code : record.rc.Continues stage record.start record.stop n
    (record.rc.routine.code.toList.drop record.ip)

theorem Acts.framed (h : stage.Acts record callers v) :
    v.Framed record.rc.layout (record.words ++ record.saved) record.frame record.below :=
  ⟨h.live, h.rbp, h.lies.length⟩

theorem Acts.separates (h : stage.Acts record callers v) : record.rc.layout.Separates := by
  rw [h.lies.placed.layout]
  exact FrameLayout.separates_ofRoutine _

/-- Operands change, and the rest stays. -/
theorem Acts.of_keeps (h : stage.Acts record callers v) (hkeeps : v.Keeps v')
    (hspans : v'.Spans stage.board) {words : List Word}
    (hlive : v'.live = words ++ record.saved ++ record.frame ++ record.below) :
    stage.Acts { record with words } callers v' where
  lies := ⟨h.lies.owns, h.lies.placed, h.lies.site, h.lies.link, h.lies.staying, h.lies.saves,
    h.lies.length, h.lies.caller, h.lies.ret, h.lies.unassigned⟩
  awaits := h.awaits
  live := hlive
  rbp := hkeeps.rbp.trans h.rbp
  spans := hspans
  hosts := h.hosts.of_keeps hkeeps

/-- The stubs of messages lead back to the host. -/
theorem Acts.faults {k : Nat} {calls : List OpenCall} (hfit : stage.Fit)
    (h : stage.Acts record callers v) {rest : List Word} (hrest : record.below <:+ rest) :
    stage.Faults k calls v rest :=
  faults_of_hosts hfit.regions h.hosts (h.awaits.suffix.trans hrest)

/-! ## Variables -/

/-- A variable of the innermost activation lies in the words of its frame. -/
theorem Acts.ownWord (hfit : stage.Fit) (h : stage.Acts record callers v) {p : Processor}
    (hp : p.Shows v) (hstart : record.start ≤ p.position) (hstop : p.position < record.stop)
    {name : String} {mem : Memory} (hmem : record.rc.layout.memory name = .ok mem) :
    ∃ offset, stage.code.OwnWord stage.program stage.entry stage.routines
      ⟨p, record.call :: callers⟩ record.call record.rc.routine name offset ∧
        v.cpu.address? mem = some (.stack offset) := by
  obtain ⟨slot, hslot, hmemory⟩ := slot_of_memory hmem
  have hfits := h.separates.fitsIn hslot
  have haddress := address?_slot h.framed hfits hmemory
  obtain ⟨before, after, hgenerates, hbefore, hafter⟩ := h.lies.placed.generates
  obtain ⟨label, hcall, hplace⟩ := h.lies.site
  have hlayout := h.lies.placed.layout
  have hparams : record.rc.layout.params = record.rc.routine.arity := by
    rw [hlayout, FrameLayout.params_ofRoutine]
    rfl
  have hlink := h.lies.link
  refine ⟨_, ⟨⟨_, callers, before, after, label, rfl, h.awaits.activates hfit ?_, hgenerates,
    hbefore ▸ hstart, hafter ▸ hstop, hcall, hbefore ▸ hplace⟩, ?_, slot, hlayout ▸ hslot, ?_⟩,
      haddress⟩
  · rw [← hparams]
    exact hlink
  · rw [hp.reg]
    refine h.rbp.trans (congrArg Word.stack ?_)
    rw [hlink]
    push_cast
    omega
  · rw [← hlayout, ← hparams, hlink, h.lies.length]
    cases slot with
    | own k =>
      have hfits : 0 < k ∧ k ≤ record.rc.layout.locals := hfits
      refine .inl ⟨k, rfl, hfits.1, hfits.2, ?_⟩
      rw [Slot.index]
      omega
    | param k =>
      have hfits : 0 < k ∧ k ≤ record.rc.layout.params := hfits
      refine .inr ⟨k, rfl, hfits.1, hfits.2, ?_⟩
      rw [Slot.index]
      omega

/-- Variables are accessed where they lie. -/
theorem Acts.guardAt_variable (hfit : stage.Fit) (h : stage.Acts record callers v)
    (hstart : record.start ≤ n) (hstop : n < record.stop) {instr : Instr} {name : String}
    {mem : Memory} (hmem : record.rc.layout.memory name = .ok mem)
    (hinstr : stage.code.instrs[n]? = some instr) (haccess : instr.access? = some (mem, 8))
    (hfaults : ∀ p : Processor, p.Shows v → p.position = n → ∀ dst, instr = .load dst mem →
      mem.disp < 0 → mem.disp ∉ record.call.assigned → stage.code.FaultsOn stage.board p name) :
    stage.GuardAt (record.call :: callers) v n := by
  refine guardAt_of_heads hinstr (fun p hp _ => h.spans.heads hp) (fun mem' size offset hmem' hboard => ?_)
    (fun p hp hposition => ?_) ?_
  · obtain ⟨rfl, rfl⟩ := Prod.mk.inj (Option.some.inj (haccess.symm.trans hmem'))
    obtain ⟨slot, hslot, hmemory⟩ := slot_of_memory hmem
    rw [address?_slot h.framed (h.separates.fitsIn hslot) hmemory] at hboard
    cases hboard
  · subst hposition
    obtain ⟨offset, hown, haddress⟩ := h.ownWord hfit hp hstart hstop hmem
    rw [← hp.address?] at haddress
    refine ⟨?_, ?_, ⟨fun other mem' size hother hmem' _ => ?_, ?_⟩⟩
    · rintro divisor rfl
      cases haccess
    · rintro rfl
      cases haccess
    · obtain rfl := Option.some.inj (hinstr.symm.trans hother)
      obtain ⟨rfl, rfl⟩ := Prod.mk.inj (Option.some.inj (haccess.symm.trans hmem'))
      exact ⟨_, _, name, offset, hown, haddress⟩
    · intro dst mem' call callers' hother _ hcalls hneg hunassigned
      obtain rfl := Option.some.inj (hinstr.symm.trans hother)
      obtain ⟨rfl, -⟩ := Prod.mk.inj (Option.some.inj haccess)
      obtain ⟨rfl, -⟩ := List.cons.inj hcalls
      exact ⟨_, name, offset, hown, haddress, hfaults p hp rfl dst rfl hneg hunassigned⟩
  · obtain ⟨slot, hslot, hmemory⟩ := slot_of_memory hmem
    have hrbp := (toInt_slot (h.separates.fitsIn hslot) hmemory).1
    unfold Instr.isHostly
    split
    · obtain ⟨rfl, -⟩ := Prod.mk.inj (Option.some.inj haccess)
      cases hrbp
    · cases haccess
    · rfl

/-- Reading a local variable that has not been assigned ends the run with a report. -/
theorem Acts.faultsOn (hfit : stage.Fit) (h : stage.Acts record callers v) {name : String}
    {instrs : List Instr} (hcode : ReadCode record.rc.layout stage.stubs name instrs)
    (hat : stage.code.At n instrs) {mem : Memory}
    (hmem : record.rc.layout.memory name = .ok mem) (hneg : mem.disp < 0)
    (hunassigned : mem.disp ∉ record.call.assigned) {p : Processor} (hp : p.Shows v)
    (hposition : p.position = n) : stage.code.FaultsOn stage.board p name := by
  obtain ⟨slot, hslot, hmemory⟩ := slot_of_memory hmem
  have hdisp := (toInt_slot (h.separates.fitsIn hslot) hmemory).2
  have hword := h.lies.unassigned (slot.index record.rc.layout.locals) ?_ mem.disp hdisp hunassigned
  · obtain ⟨-, hsentinel⟩ := leads_readWord h.framed h.separates hfit.regions.linked hcode hat
      fun other hother => Option.some.inj (hslot.symm.trans hother) ▸ hword
    obtain ⟨label, m, hstub, hplace, hleads⟩ := hsentinel rfl
    obtain ⟨i, -, hstubcode⟩ := hfit.regions.stub _ hstub
    have hall := hleads (stage.Ends _) fun v' hagrees hlive => Setting.leads_faultStub
      hfit.regions.linked hstubcode hplace (h.hosts.of_keeps hagrees.toKeeps)
        (hlive ▸ h.live ▸ h.awaits.suffix.trans (List.suffix_append _ _))
    obtain ⟨enough, p', hfinished, hresult⟩ := exists_finished_of_leads
      (hall.mono fun v' n' hends => ⟨hends.place, hends.outcome⟩) hp hposition
    exact ⟨enough, p', hfinished 0, hresult⟩
  · rw [Int32.lt_iff_toInt_lt] at hneg
    rw [Int32.toInt_toInt64] at hdisp
    have hzero : (0 : Int32).toInt = 0 := rfl
    omega

end Stage
end Native
end Gobstones
