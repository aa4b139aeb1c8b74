import Gobstones.Proofs.Native.Calls
import Gobstones.Proofs.Native.Regions
/-!
# Places of variables

This module says where the variables of a routine lie.  Parameters have the words in which a
caller that pushes arguments from left to right leaves them, the other variables have numbers
from one on in the order of their first uses, and no two variables share a word with each other
or with the frame pointer of the caller and the place to return to.

Main definitions:

- {lit}`FrameLayout.Places`: what places the variables of a routine have.
- {lit}`FrameLayout.Opens`: the words of a new frame lie where variables are looked for.

Main results:

- Theorem {lit}`opensFrames_of_prologue`: what a call finds in its frame.
- Theorem {lit}`FrameLayout.slots_apart`: variables have places of their own.
-/

namespace Gobstones
namespace Native
namespace FrameLayout

/-! ## Places -/

/-- The variables of a routine have places of their own in its frame: parameters above the place to
return to, the first one on top, and the other variables below the frame pointer of the caller. -/
structure Places (layout : FrameLayout) (routine : Routine) : Prop where
  slot : ∀ name, (layout.slot? name).isSome ↔
    name ∈ routine.params ∨ ∃ instruction ∈ routine.code, instruction.Uses name
  locals : layout.locals = routine.locals.length
  number : ∀ k name, layout.slot? name = some (.own (k + 1)) ↔ routine.locals[k]? = some name
  param : ∀ (i : Nat) name, routine.params[i]? = some name → ∀ mem, layout.memory name = .ok mem ↔
    mem.base = .rbp ∧ mem.disp.toInt = 8 * (routine.params.length - i + 1)
  own : ∀ (k : Nat) name, routine.locals[k]? = some name → ∀ mem, layout.memory name = .ok mem ↔
    mem.base = .rbp ∧ mem.disp.toInt = -(8 * (k + 1)) ∧ k + 1 < frameLimit
  apart : ∀ name other, name ≠ other → ∀ mem mem', layout.memory name = .ok mem →
    layout.memory other = .ok mem' → 8 ≤ (mem.disp.toInt - mem'.disp.toInt).natAbs
  outside : ∀ name mem, layout.memory name = .ok mem →
    mem.base = .rbp ∧ (mem.disp.toInt ≤ -8 ∨ 16 ≤ mem.disp.toInt)

theorem places_ofRoutine {routine : Routine} (hparams : routine.params.Nodup) :
    (ofRoutine routine).Places routine where
  slot _ := isSome_slot?_ofRoutine
  locals := (numbers_ofRoutine routine).locals
  number _ _ := slot?_own
  param i name h mem := by
    obtain ⟨hlt, -⟩ := List.getElem?_eq_some_iff.1 h
    rw [memory_eq_ok_iff (slot?_param hparams h), Slot.offset]
    constructor
    · rintro ⟨hbase, hdisp, -⟩
      exact ⟨hbase, by omega⟩
    · rintro ⟨hbase, hdisp⟩
      exact ⟨hbase, by omega, by omega⟩
  own k name h mem := by
    rw [memory_eq_ok_iff (slot?_own.2 h), Slot.offset]
    constructor
    · rintro ⟨hbase, hdisp, hfits⟩
      exact ⟨hbase, by omega, by omega⟩
    · rintro ⟨hbase, hdisp, hfits⟩
      exact ⟨hbase, by omega, by omega⟩
  apart name other hne mem mem' hmem hmem' := by
    have hseparates := separates_ofRoutine routine
    obtain ⟨slot, hslot, -, hdisp⟩ := hseparates.disp_eq hmem
    obtain ⟨slot', hslot', -, hdisp'⟩ := hseparates.disp_eq hmem'
    have hindex := hseparates.index_ne hslot hslot' hne
    omega
  outside name mem hmem := by
    have hseparates := separates_ofRoutine routine
    obtain ⟨slot, hslot, hbase, hdisp⟩ := hseparates.disp_eq hmem
    have hindex := Slot.index_ne (hseparates.fitsIn hslot)
    refine ⟨hbase, ?_⟩
    omega

end FrameLayout

/-! ## Frames of calls -/

namespace Processor

/-- The word at a memory operand. -/
def word? (p : Processor) (mem : Memory) : Option Word := do
  p.read64 (← p.address? mem)

variable {p : Processor} {v : View}

theorem Shows.word? (h : p.Shows v) {mem : Memory} {address w : Word}
    (haddress : v.cpu.address? mem = some address) (hread : v.read? address = some w) :
    p.word? mem = some w := by
  rw [Processor.word?, h.address?, haddress]
  exact h.read64 hread

/-- A processor whose stack pointer is the address of a word of the stack shows its stack. -/
theorem exists_shows {depth : Nat} (hrsp : p.reg .rsp = .stack (-(8 * depth))) :
    ∃ v, p.Shows v ∧ v.live.length = depth ∧ v.regs = p.regs := by
  let words := (List.range depth).map p.word
  let v : View := ⟨p.regs, p.flags, words.reverse, [], p.board, p.results⟩
  have hlength : v.live.length = depth := by simp [v, words]
  refine ⟨v, ⟨?_, rfl, rfl, rfl, fun a w hw => ?_⟩, hlength, rfl⟩
  · rw [View.top, hlength, ← hrsp]
    rfl
  · have hmem : v.mem = words := by simp [View.mem, v]
    rw [hmem, List.getElem?_map] at hw
    obtain ⟨i, hi, rfl⟩ := Option.map_eq_some_iff.1 hw
    obtain ⟨-, rfl⟩ := List.getElem?_eq_some_iff.1 hi
    rw [List.getElem_range]

/-- Pushing words from left to right leaves the last one on top. -/
theorem Shows.foldlM_pushWord (h : p.Shows v) (words : List Word) :
    ∃ p' v', words.foldlM Processor.pushWord p = some p' ∧ p'.Shows v' ∧ p'.position = p.position ∧
      v'.live = words.reverse ++ v.live ∧ v'.regs = v.regs := by
  induction words generalizing p v with
  | nil => exact ⟨p, v, rfl, h, rfl, rfl, rfl⟩
  | cons w words ih =>
    obtain ⟨p₁, hpush, h₁, hposition₁⟩ := h.pushWord w
    obtain ⟨p', v', hrest, h', hposition, hlive, hregs⟩ := ih h₁
    refine ⟨p', v', ?_, h', hposition.trans hposition₁, ?_, hregs⟩
    · rw [List.foldlM_cons, hpush]
      exact hrest
    · rw [hlive, List.reverse_cons, List.append_assoc]
      rfl

end Processor

/-- In the frame of a routine that has been called with arguments the parameters have the
arguments, the other variables are the sentinel of variables without a value, and the frame pointer
of the caller and the place to return to lie between them.  The stack ends with the last of the
variables. -/
structure FrameLayout.Opens (layout : FrameLayout) (routine : Routine) (args : List Word)
    (caller callee : Processor) : Prop where
  param : ∀ (i : Nat) name mem, routine.params[i]? = some name → layout.memory name = .ok mem →
    callee.word? mem = args[i]?
  own : ∀ name mem, name ∈ routine.locals → layout.memory name = .ok mem →
    callee.word? mem = some (.int sentinel)
  saved : callee.word? ⟨.rbp, 0⟩ = some (caller.reg .rbp)
  ret : callee.word? ⟨.rbp, 8⟩ = some (.code (caller.position + 1))
  top : ∃ base, callee.reg .rbp = .stack base ∧ callee.reg .rsp = .stack (base - 8 * layout.locals)

variable {code : NativeCode} {routine : Routine} {label : Label} {start : Nat} {p q : Processor}
variable {v : View} {args below : List Word}

/-- Variables are looked for in the frame of their routine. -/
theorem FrameLayout.opens_of_shows (hparams : routine.params.Nodup)
    (hargs : args.length = routine.params.length) (hq : q.Shows v)
    (hlive : v.live = List.replicate (ofRoutine routine).locals (.int sentinel) ++
      p.reg .rbp :: .code (p.position + 1) :: (args.reverse ++ below))
    (hrbp : v.regs.rbp = .stack (-(8 * (below.length + routine.params.length + 2 : Nat)))) :
    (ofRoutine routine).Opens routine args p q := by
  have hseparates := separates_ofRoutine routine
  have hframed : v.Framed (ofRoutine routine) [] (List.replicate (ofRoutine routine).locals
      (.int sentinel) ++ p.reg .rbp :: .code (p.position + 1) :: args.reverse) below := by
    refine ⟨?_, ?_, ?_⟩
    · rw [hlive]
      simp
    · rw [hrbp, params_ofRoutine]
    · simp [params_ofRoutine, hargs]
      omega
  have hbase : v.cpu.reg .rbp = .stack (-(8 * (below.length + routine.params.length + 2 : Nat))) :=
    hrbp
  refine ⟨?param, ?own, ?saved, ?ret, ?top⟩
  case param =>
    intro i name mem hname hmem
    obtain ⟨slot, address, hslot, haddress, hread, -⟩ := hframed.exists_slot hseparates hmem
    obtain rfl := Option.some.inj ((slot?_param hparams hname).symm.trans hslot)
    obtain ⟨hlt, -⟩ := List.getElem?_eq_some_iff.1 hname
    -- The slots count back from the last parameter, and the last argument is the latest word.
    have hargument : args.reverse[routine.params.length - i - 1]? = args[i]? := by
      rw [List.getElem?_reverse (by omega)]
      congr 1
      omega
    rw [getElem?_frame_param (by omega), hargument] at hread
    have hi : i < args.length := hargs ▸ hlt
    rw [hq.word? haddress (hread _ (List.getElem?_eq_getElem hi)), List.getElem?_eq_getElem hi]
  case own =>
    intro name mem hname hmem
    obtain ⟨slot, address, hslot, haddress, hread, -⟩ := hframed.exists_slot hseparates hmem
    obtain ⟨k, hk⟩ := List.getElem?_of_mem hname
    obtain rfl := Option.some.inj ((slot?_own.2 hk).symm.trans hslot)
    exact hq.word? haddress (hread _ (getElem?_frame_own (hseparates.fitsIn hslot) _))
  case saved =>
    refine hq.word? ?_ (View.read?_live hlive)
    rw [Processor.address?, hbase, Word.add, stackAddress]
    simp
    omega
  case ret =>
    have hbehind : v.live = List.replicate (ofRoutine routine).locals (.int sentinel) ++
        [p.reg .rbp] ++ .code (p.position + 1) :: (args.reverse ++ below) := by
      simp [hlive]
    refine hq.word? ?_ (View.read?_live hbehind)
    rw [Processor.address?, hbase, Word.add, stackAddress]
    have h8 : (8 : Int32).toInt64.toInt = 8 := rfl
    rw [h8, List.length_append, List.length_reverse, hargs]
    congr 2
    omega
  case top =>
    refine ⟨_, (hq.reg .rbp).trans hbase, ?_⟩
    rw [hq.reg, View.reg, Processor.reg, View.cpu, Registers.get_set_self, View.top, hlive]
    congr 1
    simp
    omega

/-- Calls that lead behind a position open the frame of a routine: the caller pushes the arguments
from left to right, and what it calls finds them where it looks for its parameters. -/
def NativeCode.OpensFrames (code : NativeCode) (routine : Routine) (start : Nat) : Prop :=
  ∀ (p : Processor) (label : Label) (depth : Nat) (args : List Word),
    code.instrs[p.position]? = some (.call label) → code.place label = some (start + 1) →
    p.reg .rsp = .stack (-(8 * depth)) → args.length = routine.params.length →
    ∃ pushed k q, args.foldlM Processor.pushWord p = some pushed ∧
      pushed.run k code.instrs code.place = .running q ∧
      q.position = start + (prologue label (FrameLayout.ofRoutine routine).locals).length ∧
      (FrameLayout.ofRoutine routine).Opens routine args p q

theorem opensFrames_of_prologue (hparams : routine.params.Nodup)
    (hat : code.At start (prologue label (FrameLayout.ofRoutine routine).locals)) :
    code.OpensFrames routine start := by
  intro p target depth args hcall hplace hrsp hargs
  obtain ⟨v, hv, -, hregs⟩ := Processor.exists_shows hrsp
  obtain ⟨pushed, v₁, hpushed, hv₁, hposition, hlive, hregs₁⟩ := hv.foldlM_pushWord args
  have hframe : code.Leads v₁ p.position fun v' n' =>
      n' = start + (prologue label (FrameLayout.ofRoutine routine).locals).length ∧
      v'.live = List.replicate (FrameLayout.ofRoutine routine).locals (.int sentinel) ++
        p.reg .rbp :: .code (p.position + 1) :: (args.reverse ++ v.live) ∧
      v'.regs.rbp = .stack (-(8 * (v.live.length + routine.params.length + 2 : Nat))) := by
    refine .call hcall hplace (leads_prologue hat fun v' hagrees hlive' => .done ⟨rfl, ?_, ?_⟩)
    · have hrbp : v₁.regs.rbp = p.reg .rbp := by
        rw [hregs₁, hregs]
        rfl
      rw [hlive', View.push, hrbp, hlive]
    · rw [hagrees.rbp, View.push, hlive, View.setReg]
      simp [Registers.set, hargs]
      omega
  obtain ⟨k, q, v', n', hrun, hq, rfl, hend, hlive', hrbp⟩ := hframe pushed hv₁ hposition
  exact ⟨pushed, k, q, hpushed, hrun, hend,
    FrameLayout.opens_of_shows hparams hargs hq hlive' hrbp⟩

/-- The code of a routine begins with the opening of its frame. -/
theorem NativeCode.Generates.prologue {routines : RoutineLabels} {home : Program}
    {before after : Emitter} (h : code.Generates routines home routine before after) :
    ∃ label, code.At before.instrs.size
      (prologue label (FrameLayout.ofRoutine routine).locals) := by
  obtain ⟨instrs, hemits, hcode⟩ := emits_emitRoutine h.emits
  obtain ⟨_, _, _, rfl, -⟩ := hcode _ (fun _ hmem => hmem)
  have hat := NativeCode.at_of_emits hemits h.kept
  rw [List.append_assoc, NativeCode.at_append_iff] at hat
  exact ⟨_, hat.1⟩

/-! ## Main result -/

/-- No two variables of a routine share a word, and none has the word of the frame pointer of the
caller or of the place to return to.  This is so in all native code: a call of the routine finds the
arguments at the places of its parameters, and for each other variable there is a word. -/
theorem FrameLayout.slots_apart (routine : Routine) (hparams : routine.params.Nodup) :
    (ofRoutine routine).Places routine ∧
      ∀ program code, compile program = .ok code → ∃ routines, ∀ home ∈ program.modules,
        routine ∈ home.routines → ∃ before after,
          code.Generates routines home routine before after ∧
            code.OpensFrames routine before.instrs.size := by
  refine ⟨places_ofRoutine hparams, fun program code hcompile => ?_⟩
  obtain ⟨_, routines, _, _, _, hregions⟩ := regions_of_compile hcompile
  refine ⟨routines, fun home hhome hmem => ?_⟩
  obtain ⟨before, after, hgenerates, -⟩ := hregions.routine home hhome routine hmem
  obtain ⟨label, hat⟩ := hgenerates.prologue
  exact ⟨before, after, hgenerates, opensFrames_of_prologue hparams hat⟩

end Native

/-! ## A procedure with two parameters -/

namespace Storing

/-- Keep the second argument and then the first one. -/
def store : Routine where
  kind := .procedure
  name := "store"
  params := ["a", "b"]
  code := #[.pushFrom "b", .popTo "x", .pushFrom "a", .popTo "y", .ret 0]
  targets := Array.replicate 5 none
  resolved := rfl

/-- Call the procedure. -/
def main : Routine where
  kind := .entrypoint
  name := "program"
  params := []
  code := #[.pushConst (.int 3), .pushConst (.int 4), .call "store" 2, .returnVars 0 []]
  targets := Array.replicate 4 none
  resolved := rfl

/-- The program of both. -/
def program : Program where
  moduleName := "main"
  routines := [main, store]
  builtins := BuiltinTable.standard
  links := []
  distinct := by decide

/-- A processor with an empty stack that is to call the procedure. -/
def caller : Native.Processor where
  regs := (Native.Registers.replicate (.int 0)).set .rsp (.stack 0)
  flags := none
  stack := #[]
  stale _ := .int 0
  board := #[]
  results := #[]
  position := 30

end Storing

namespace Native

/-- The arguments are found at their places, and so are the variables that have no value. -/
theorem FrameLayout.slots_apart_store :
    ∃ code, compile Storing.program = .ok code ∧ ∃ pushed k q,
      [Word.int 3, .int 4].foldlM Processor.pushWord Storing.caller = some pushed ∧
        pushed.run k code.instrs code.place = .running q ∧ q.position = 43 ∧
        q.word? ⟨.rbp, 24⟩ = some (.int 3) ∧ q.word? ⟨.rbp, 16⟩ = some (.int 4) ∧
        q.word? ⟨.rbp, -8⟩ = some (.int sentinel) ∧
        q.word? ⟨.rbp, -16⟩ = some (.int sentinel) := by
  obtain ⟨hplaces, hcalls⟩ := FrameLayout.slots_apart Storing.store (by decide)
  have hcode : (compile Storing.program).toOption.any (fun code => decide (
      (∀ i < code.instrs.size, code.instrs[i + 4]? = some (.push .rax) →
        code.instrs[i + 5]? = some (.push .rax) → i = 37) ∧
      code.instrs[30]? = some (.call 1) ∧ code.place 1 = some 38)) = true := by
    decide +kernel
  obtain ⟨code, hcompile, hunique, hcall, hplace⟩ := exists_of_compile hcode
  obtain ⟨routines, hroutines⟩ := hcalls Storing.program code hcompile
  obtain ⟨before, after, hgenerates, hopens⟩ :=
    hroutines Storing.program (Program.mem_modules (.of_links rfl) .refl)
      (by simp [Storing.program])
  have hstart : before.instrs.size = 37 := by
    obtain ⟨label, hat⟩ := hgenerates.prologue
    have hpush : code.instrs[before.instrs.size + 4]? = some (.push .rax) := hat 4 _ rfl
    obtain ⟨hlt, -⟩ := Array.getElem?_eq_some_iff.1 hpush
    exact hunique _ (by omega) hpush (hat 5 _ rfl)
  rw [hstart] at hopens
  obtain ⟨pushed, k, q, hpushed, hrun, hend, hopened⟩ :=
    hopens Storing.caller 1 0 [.int 3, .int 4] hcall hplace rfl rfl
  refine ⟨code, hcompile, pushed, k, q, hpushed, hrun, hend, ?_, ?_, ?_, ?_⟩
  · exact hopened.param 0 "a" _ rfl ((hplaces.param 0 "a" rfl _).2 ⟨rfl, rfl⟩)
  · exact hopened.param 1 "b" _ rfl ((hplaces.param 1 "b" rfl _).2 ⟨rfl, rfl⟩)
  · exact hopened.own "x" _ (by decide) ((hplaces.own 0 "x" rfl _).2 ⟨rfl, rfl, by decide⟩)
  · exact hopened.own "y" _ (by decide) ((hplaces.own 1 "y" rfl _).2 ⟨rfl, rfl, by decide⟩)

end Native
end Gobstones
