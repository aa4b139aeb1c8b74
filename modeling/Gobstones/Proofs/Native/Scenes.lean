import Gobstones.Proofs.Check.Depths
import Gobstones.Proofs.Machine.Rollback
import Gobstones.Proofs.Machine.Safety
import Gobstones.Proofs.Native.Assembly
import Gobstones.Proofs.Native.Calls
/-!
# Machines and native code

This module relates the states of the stack machine to the views of native code.  The
operand stack that all activations share is cut into pieces, one for every activation,
and so are the transactions of the board: the native stack holds for each activation
its operands, the board that its transaction has saved, and its frame.

Main definitions:

- {lit}`Program.Conventional`: what native code relies on without checking it.
- {lit}`Program.Orderly`: the same, where routines return variables to each other.
- {lit}`Setting`: a program with its native code, the board of its run and the host.
- {lit}`Scene`: an activation with its callers on both stacks.
- {lit}`Setting.Simulates`: a view of native code shows the state of a machine.

Main results:

- Theorem {lit}`Laid.target`: native jumps lead where the jumps of the machine lead.
- Theorem {lit}`Waits.after`: changes of the board do not matter to waiting callers.
-/

namespace Gobstones

/-! ## Conventions -/

/-- What native code relies on without checking it: which builtins there are, that modules have
names of their own, and how routines return. -/
structure Program.Conventional (program : Program) (entry : Routine) : Prop where
  builtins : ∀ home, program.Reaches home → home.builtins = BuiltinTable.standard
  names : program.NamesModules
  returns : ∀ home routine, program.Owns home routine → routine.kind ≠ .function →
    ∀ n, .ret n ∈ routine.code → n = 0
  vars : ∀ home routine, program.Owns home routine → ∀ n names, .returnVars n names ∈ routine.code →
    home = program ∧ routine = entry ∧ names.length = n
  sameVars : ∀ n names, .returnVars n names ∈ entry.code →
    ∀ n' names', .returnVars n' names' ∈ entry.code → names' = names
  uncalled : ∀ n names, .returnVars n names ∈ entry.code →
    ∀ home routine, program.Owns home routine → ∀ name argc, .call name argc ∈ routine.code →
      home.callee? name ≠ some (program, entry)
  params : entry.params = []

/-- What native code relies on without checking it where routines may return variables to each
other: called builtins are standard ones, modules have names of their own, only functions return
values from the stack, and the entrypoint returns equally many variables everywhere. -/
structure Program.Orderly (program : Program) (entry : Routine) : Prop where
  builtins : ∀ home routine, program.Owns home routine → ∀ name argc, .call name argc ∈ routine.code →
    ∀ builtin, home.resolve? name = some (.builtin builtin) →
      builtin ∈ BuiltinTable.standard.entries
  names : program.NamesModules
  returns : ∀ home routine, program.Owns home routine → routine.kind ≠ .function →
    ∀ n, .ret n ∈ routine.code → n = 0
  counts : ∀ n names, .returnVars n names ∈ entry.code →
    names.length = n ∧ ∀ n' names', .returnVars n' names' ∈ entry.code → n' = n
  params : entry.params = []

/-- In a module with the standard builtins no name stands for another builtin. -/
theorem Program.mem_standard_of_resolve {home : Program}
    (hstandard : home.builtins = BuiltinTable.standard) {name : String} {builtin : Builtin}
    (hresolve : home.resolve? name = some (.builtin builtin)) :
    builtin ∈ BuiltinTable.standard.entries := by
  rw [← hstandard]
  exact Program.mem_of_resolve?_builtin hresolve

/-- Standard builtins and returns of the same variables are more than enough. -/
theorem Program.Conventional.orderly {program : Program} {entry : Routine}
    (h : program.Conventional entry) (hentry : program.entrypoint? = some entry) :
    program.Orderly entry where
  builtins home _ howns _ _ _ _ hresolve :=
    Program.mem_standard_of_resolve (h.builtins home howns.reaches) hresolve
  names := h.names
  returns := h.returns
  counts n names hmem := by
    have howns := Program.owns_entrypoint hentry
    obtain ⟨-, -, hlength⟩ := h.vars program entry howns n names hmem
    refine ⟨hlength, fun n' names' hmem' => ?_⟩
    obtain ⟨-, -, hlength'⟩ := h.vars program entry howns n' names' hmem'
    rw [← hlength, ← hlength', h.sameVars n names hmem n' names' hmem']
  params := h.params

/-! ## Routines without problems -/

section Layout

variable {program home : Program} {routine : Routine}

theorem Program.Owns.bracketed (h : program.Owns home routine) (hnames : program.NamesModules)
    (hlayout : ∀ home ∈ program.modules, home.layoutProblems = []) : routine.Bracketed :=
  .of_mem (List.append_eq_nil_iff.1 (hlayout home (Program.mem_modules hnames h.reaches))).1 h.mem

theorem Program.Owns.depthsFit (h : program.Owns home routine) (hnames : program.NamesModules)
    (hlayout : ∀ home ∈ program.modules, home.layoutProblems = []) :
    home.DepthsFit routine (home.depthAt? routine) :=
  .of_mem (List.append_eq_nil_iff.1 (hlayout home (Program.mem_modules hnames h.reaches))).2 h.mem

/-- Where a depth is recorded, it is right for the instruction there. -/
theorem Program.DepthsFit.fits {depth? : Nat → Option Nat} (h : home.DepthsFit routine depth?)
    {ip depth : Nat} {instruction : Instruction} (hdepth : depth? ip = some depth)
    (hinstruction : routine.code[ip]? = some instruction) :
    home.DepthFits routine (fun q d => depth? q = some d) ip depth instruction := by
  obtain ⟨other, hother, hfits⟩ := h.closed ip depth hdepth
  obtain rfl : instruction = other := Option.some.inj (hinstruction.symm.trans hother)
  exact hfits

end Layout

/-! ## Boards of one run -/

namespace Board

/-- A sound board with the grid of another one. -/
structure Resembles (board start : Board) : Prop extends Sound board where
  width : board.width = start.width
  height : board.height = start.height

variable {board next start : Board}

theorem Resembles.size (h : board.Resembles start) (hstart : start.WellFormed) :
    board.cells.size = start.cells.size := by
  rw [h.size_cells, hstart.size_cells, h.width, h.height]

theorem Resembles.nativeLength (h : board.Resembles start) (hstart : start.WellFormed) :
    board.nativeLength = start.nativeLength := by
  rw [Board.nativeLength, Board.nativeLength, h.size hstart]

theorem Resembles.after (h : board.Resembles start) {request : Request}
    (hrequest : request.IsRecorded) : (board.after request).Resembles start := by
  obtain ⟨hwidth, hheight⟩ := size_after h.toWellFormed hrequest
  exact ⟨h.toSound.after request, hwidth.trans h.width, hheight.trans h.height⟩

theorem Resembles.pushState (h : board.Resembles start) : board.pushState.Resembles start :=
  ⟨h.toSound.pushState, h.width, h.height⟩

theorem Resembles.popState (h : board.Resembles start) (hpop : board.popState = .ok next) :
    next.Resembles start := by
  obtain ⟨hwidth, hheight⟩ := size_popState hpop
  exact ⟨h.toSound.popState hpop, hwidth.trans h.width, hheight.trans h.height⟩

end Board

namespace Native

/-! ## Settings -/

/-- A program with its native code and the board that it is started on. -/
structure Setting where
  program : Program
  entry : Routine
  board : Board
  code : NativeCode
  routines : RoutineLabels
  stubs : List (String × Label)
  host : Host

/-- The native code belongs to the program, and what it relies on is the case. -/
structure Setting.Valid (setting : Setting) : Prop where
  entrypoint : setting.program.entrypoint? = some setting.entry
  conventional : setting.program.Conventional setting.entry
  assembled : Assembled setting.code setting.program setting.entry setting.routines setting.stubs
  sound : setting.board.Sound
  fits : setting.board.nativeLength < 2 ^ 63

/-- The native code belongs to the program, whose routines may return variables to each other. -/
structure Setting.Prepared (setting : Setting) : Prop where
  entrypoint : setting.program.entrypoint? = some setting.entry
  orderly : setting.program.Orderly setting.entry
  assembled : Assembled setting.code setting.program setting.entry setting.routines setting.stubs
  sound : setting.board.Sound
  fits : setting.board.nativeLength < 2 ^ 63

theorem Setting.Valid.prepared {setting : Setting} (h : setting.Valid) : setting.Prepared :=
  ⟨h.entrypoint, h.conventional.orderly h.entrypoint, h.assembled, h.sound, h.fits⟩

namespace RoutineCompiler

/-- The code of instructions of a routine lies at a position. -/
def Remains (rc : RoutineCompiler) (setting : Setting) (n : Nat) (instructions : List Instruction) :
    Prop :=
  ∃ body, rc.Translates setting.stubs instructions body ∧ setting.code.At n body

/-- The code of a routine lies at the label of the routine. -/
structure Laid (rc : RoutineCompiler) (setting : Setting) : Prop where
  routines : rc.routines = setting.routines
  layout : rc.layout = FrameLayout.ofRoutine rc.routine
  code : ∃ n, setting.code.At n (prologue
      ((setting.routines.lookup (rc.program.moduleName, rc.routine.name)).getD 0)
      rc.layout.locals) ∧
    rc.Remains setting (n + (prologue ((setting.routines.lookup
      (rc.program.moduleName, rc.routine.name)).getD 0) rc.layout.locals).length)
      rc.routine.code.toList

variable {rc : RoutineCompiler} {setting : Setting} {n : Nat}

/-- The code of the next instruction, which is not the end of a transaction. -/
theorem Remains.split {routine : Routine} {ip : Nat} {instruction : Instruction}
    (h : rc.Remains setting n (routine.code.toList.drop ip))
    (hinstruction : routine.code[ip]? = some instruction) (hleave : instruction ≠ .leave) :
    ∃ first, rc.InstructionCode setting.stubs instruction first ∧ setting.code.At n first ∧
      rc.Remains setting (n + first.length) (routine.code.toList.drop (ip + 1)) := by
  obtain ⟨body, htranslates, hat⟩ := h
  obtain ⟨first, rest, rfl, hfirst, hrest⟩ := htranslates.split hinstruction hleave
  obtain ⟨hat, hat'⟩ := NativeCode.at_append_iff.1 hat
  exact ⟨first, hfirst, hat, rest, hrest, hat'⟩

/-- The code of the end of a transaction and of the return after it. -/
theorem Remains.split_leave {routine : Routine} {ip k : Nat}
    (h : rc.Remains setting n (routine.code.toList.drop ip))
    (hleave : routine.code[ip]? = some .leave) (hret : routine.code[ip + 1]? = some (.ret k)) :
    ∃ first, LeaveCode k first ∧ setting.code.At n first := by
  obtain ⟨body, htranslates, hat⟩ := h
  obtain ⟨first, rest, rfl, hfirst⟩ := htranslates.split_leave hleave hret
  exact ⟨first, hfirst, (NativeCode.at_append_iff.1 hat).1⟩

/-- The code behind the destination of a jump. -/
theorem Translates.target {stubs : List (String × Label)} {body : List Instr} {ip target : Nat}
    {name : String} {label : Label} (h : rc.Translates stubs rc.routine.code.toList body)
    (htarget : rc.routine.target? ip = some target)
    (hname : rc.routine.code[ip]?.bind Instruction.jumpLabel? = some name)
    (hlabel : rc.labels.lookup name = some label) :
    ∃ front rest, body = front ++ .bind label :: rest ∧
      rc.Translates stubs (rc.routine.code.toList.drop target) rest := by
  obtain ⟨other, hother, hpos, hplace⟩ := Routine.target?_eq_some_iff.1 htarget
  obtain rfl : name = other := Option.some.inj (hname.symm.trans hother)
  obtain ⟨label', front, rest, hlabel', rfl, hrest⟩ :=
    h.label (i := target - 1) (by simpa using hplace)
  obtain rfl : label = label' := Option.some.inj (hlabel.symm.trans hlabel')
  rw [Nat.sub_add_cancel hpos] at hrest
  exact ⟨front, rest, rfl, hrest⟩

/-- A native jump leads where the jump of the machine leads. -/
theorem Laid.target (h : rc.Laid setting) (hlinked : setting.code.Linked) {ip target : Nat}
    {name : String} (htarget : rc.routine.target? ip = some target)
    (hname : rc.routine.code[ip]?.bind Instruction.jumpLabel? = some name) {label : Label}
    (hlabel : rc.labels.lookup name = some label) {i : Nat} {instr : Instr}
    (hinstr : setting.code.instrs[i]? = some instr) (hto : instr.target? = some label) :
    ∃ m, setting.code.place label = some m ∧
      rc.Remains setting m (rc.routine.code.toList.drop target) := by
  obtain ⟨n, -, body, htranslates, hat⟩ := h.code
  obtain ⟨front, rest, rfl, hrest⟩ := htranslates.target htarget hname hlabel
  obtain ⟨-, hat⟩ := NativeCode.at_append_iff.1 hat
  obtain ⟨hbind, hat⟩ := NativeCode.at_cons_iff.1 hat
  exact ⟨_, hlinked.place_eq hinstr hto hbind, rest, hrest, hat⟩

end RoutineCompiler

namespace Setting

variable {setting : Setting} {home : Program} {routine : Routine}

/-- Every routine behind the program is compiled. -/
theorem Prepared.exists_laid (h : setting.Prepared) (howns : setting.program.Owns home routine) :
    ∃ rc : RoutineCompiler, rc.program = home ∧ rc.routine = routine ∧ rc.Laid setting := by
  have hmem := Program.mem_modules h.orderly.names howns.reaches
  obtain ⟨n, instrs, hat, labels, body, last, rfl, htranslates⟩ :=
    h.assembled.routine home hmem routine howns.mem
  rw [List.append_assoc] at hat
  obtain ⟨hopen, hat⟩ := NativeCode.at_append_iff.1 hat
  obtain ⟨hbody, -⟩ := NativeCode.at_append_iff.1 hat
  exact ⟨_, rfl, rfl, rfl, rfl, n, hopen, body, htranslates, hbody⟩

theorem Prepared.bracketed (h : setting.Prepared) (howns : setting.program.Owns home routine) :
    routine.Bracketed :=
  howns.bracketed h.orderly.names h.assembled.layout

theorem Prepared.depthsFit (h : setting.Prepared) (howns : setting.program.Owns home routine) :
    home.DepthsFit routine (home.depthAt? routine) :=
  howns.depthsFit h.orderly.names h.assembled.layout

/-- Where a depth is recorded, it is right for the instruction there. -/
theorem Prepared.depthFits (h : setting.Prepared) (howns : setting.program.Owns home routine)
    {ip depth : Nat} {instruction : Instruction} (hdepth : home.depthAt? routine ip = some depth)
    (hinstruction : routine.code[ip]? = some instruction) :
    home.DepthFits routine (fun q d => home.depthAt? routine q = some d) ip depth instruction :=
  (h.depthsFit howns).fits hdepth hinstruction

end Setting

/-! ## Transactions and frames -/

/-- The words of the board that an open transaction has saved.  {lit}`under` is the board that
the callers will find. -/
def Saves (inside : Bool) (board under : Board) (saved : List Word) : Prop :=
  if inside then board.popState = .ok under ∧ saved = snapshot under
  else under = board ∧ saved = []

/-- Changes of the board do not matter to a transaction, and outside they go on to the
callers. -/
theorem Saves.after {inside : Bool} {board under : Board} {saved : List Word}
    (h : Saves inside board under saved) (hboard : board.WellFormed) {request : Board.Request}
    (hrequest : request.IsRecorded) :
    (inside = true ∧ Saves inside (board.after request) under saved) ∨
      under = board ∧ Saves inside (board.after request) (board.after request) saved := by
  cases inside with
  | false => exact .inr ⟨h.1, rfl, h.2⟩
  | true =>
    refine .inl ⟨rfl, ?_, h.2⟩
    rw [Board.popState_after hboard hrequest]
    exact h.1

/-- The words in which the entry stub has saved the registers that belong to the host, and the
place to return to it. -/
def hostWords (host : Host) (code : NativeCode) : List Word :=
  [host.regs.r15, host.regs.r14, host.regs.r13, host.regs.r12, host.regs.rbx, host.regs.rbp,
    .code code.instrs.size]

/-- The number of instructions up to the call of the entrypoint. -/
def entryPlace : Nat :=
  15

/-- The frame pointer of a frame above some words. -/
def framePointer (layout : FrameLayout) (below : List Word) : Word :=
  .stack (-(8 * (below.length + layout.params + 2 : Nat)))

/-- The code with which a caller goes on after a call. -/
def RoutineCompiler.Resumes (rc : RoutineCompiler) (setting : Setting) (n argc results : Nat)
    (instructions : List Instruction) : Prop :=
  ∃ drop pushes, dropWords argc = .ok drop ∧ pushResults results = .ok pushes ∧
    setting.code.At n (drop ++ pushes) ∧
    rc.Remains setting (n + (drop ++ pushes).length) instructions

namespace Setting

/-- An activation has a frame, in which the pointer to the frame of the caller and the place to
return to are kept. -/
structure InFrame (setting : Setting) (activation : Activation) (rc : RoutineCompiler)
    (frame : List Word) (rbp : Word) (ret : Nat) : Prop where
  owns : setting.program.Owns activation.program activation.routine
  program : rc.program = activation.program
  routine : rc.routine = activation.routine
  laid : rc.Laid setting
  holds : rc.layout.Holds activation.locals frame
  length : frame.length = rc.layout.locals + 2 + rc.layout.params
  caller : frame[rc.layout.locals]? = some rbp
  ret : frame[rc.layout.locals + 1]? = some (.code ret)

/-- The callers of a routine, innermost first, with their operands below the arguments of their
calls and with the words of all of them.  The entrypoint is called by the host. -/
inductive Waits (setting : Setting) : Routine → List Activation → List Value → Board →
    List Word → Word → Nat → Prop where
  | host {board : Board} :
    Waits setting setting.entry [] [] board (hostWords setting.host setting.code) (.stack (-16))
      entryPlace
  | call {callee : Routine} {home : Program} {caller : Activation} {callers : List Activation}
    {rc : RoutineCompiler} {name : String} {argc : Nat} {ops lower : List Value}
    {board under : Board} {words saved frame below : List Word} {rbp : Word} {n ret : Nat}
    (hcall : caller.instruction? = some (.call name argc))
    (hcallee : caller.program.callee? name = some (home, callee))
    (harity : callee.arity = argc)
    (hdepth : caller.program.depthAt? caller.routine caller.ip = some (argc + ops.length))
    (hwords : InWords ops words)
    (hframe : setting.InFrame caller rc frame rbp ret)
    (hsaves : Saves caller.inTransaction board under saved)
    (hcode : rc.Resumes setting n argc callee.resultCount
      (caller.routine.code.toList.drop (caller.ip + 1)))
    (h : Waits setting caller.routine callers lower under below rbp ret) :
    Waits setting callee (caller :: callers) (ops ++ lower) board
      (words ++ saved ++ frame ++ below) (framePointer rc.layout below) n

variable {setting : Setting} {routine : Routine} {callers : List Activation} {lower : List Value}
variable {board : Board} {below : List Word} {rbp : Word} {ret : Nat}

/-- Changes of the board do not matter to waiting callers. -/
theorem Waits.after (h : setting.Waits routine callers lower board below rbp ret)
    (hboard : board.WellFormed) {request : Board.Request} (hrequest : request.IsRecorded) :
    setting.Waits routine callers lower (board.after request) below rbp ret := by
  induction h with
  | host => exact .host
  | call hcall hcallee harity hdepth hwords hframe hsaves hcode h ih =>
    rcases hsaves.after hboard hrequest with ⟨-, hsaves⟩ | ⟨rfl, hsaves⟩
    · exact .call hcall hcallee harity hdepth hwords hframe hsaves hcode h
    · exact .call hcall hcallee harity hdepth hwords hframe hsaves hcode (ih hboard)

/-- The words of the host lie below all others. -/
theorem Waits.suffix (h : setting.Waits routine callers lower board below rbp ret) :
    hostWords setting.host setting.code <:+ below := by
  induction h with
  | host => exact List.suffix_refl _
  | call _ _ _ _ _ _ _ _ _ ih => exact ih.trans (List.suffix_append _ _)

/-- The registers in which the host finds its stack and its results, which are still empty. -/
structure Hosts (setting : Setting) (v : View) : Prop where
  rsi : v.regs.rsi = .stack (-56)
  r15 : v.regs.r15 = .results 0
  results : v.results = Array.replicate setting.code.bufferWords 0

theorem Hosts.of_keeps {v v' : View} (h : setting.Hosts v) (hkeeps : v.Keeps v') :
    setting.Hosts v' :=
  ⟨hkeeps.rsi.trans h.rsi, hkeeps.r15.trans h.r15, hkeeps.results.trans h.results⟩

end Setting

/-! ## Scenes -/

/-- The innermost activation and its callers on both stacks. -/
structure Scene where
  top : Activation
  callers : List Activation
  rc : RoutineCompiler
  ops : List Value
  lower : List Value
  under : Board
  words : List Word
  saved : List Word
  frame : List Word
  below : List Word
  rbp : Word
  ret : Nat

namespace Setting

/-- A view of native code shows the state of a machine. -/
structure Simulates (setting : Setting) (scene : Scene) (machine : Machine) (v : View) (n : Nat) :
    Prop where
  frames : machine.frames = scene.top :: scene.callers
  stack : machine.stack = scene.ops ++ scene.lower
  words : InWords scene.ops scene.words
  depth : scene.top.program.depthAt? scene.top.routine scene.top.ip = some scene.ops.length
  frame : setting.InFrame scene.top scene.rc scene.frame scene.rbp scene.ret
  saves : Saves scene.top.inTransaction machine.board scene.under scene.saved
  waits : setting.Waits scene.top.routine scene.callers scene.lower scene.under scene.below
    scene.rbp scene.ret
  board : machine.board.Resembles setting.board
  limit : machine.stepLimit = none
  code : scene.rc.Remains setting n (scene.top.routine.code.toList.drop scene.top.ip)
  live : v.live = scene.words ++ scene.saved ++ scene.frame ++ scene.below
  rbp : v.regs.rbp = framePointer scene.rc.layout scene.below
  carries : v.Carries machine.board
  hosts : setting.Hosts v

/-- Native code shows the state of a machine.  The end of a transaction and the return after it
are one piece of code, so between them it still shows the state before. -/
def Shows (setting : Setting) (machine : Machine) (v : View) (n : Nat) : Prop :=
  (∃ scene, setting.Simulates scene machine v n) ∨
    ∃ before scene, setting.Simulates scene before v n ∧
      scene.top.instruction? = some .leave ∧ before.step = (machine, .running)

variable {setting : Setting} {scene : Scene} {machine next : Machine} {v v' : View} {n n' : Nat}
variable {instruction : Instruction}

/-- The frame of the innermost activation on the native stack. -/
theorem Simulates.framed (h : setting.Simulates scene machine v n) :
    v.Framed scene.rc.layout (scene.words ++ scene.saved) scene.frame scene.below :=
  ⟨h.live, h.rbp, h.frame.length⟩

theorem Simulates.separates (h : setting.Simulates scene machine v n) :
    scene.rc.layout.Separates := by
  rw [h.frame.laid.layout]
  exact FrameLayout.separates_ofRoutine _

/-- The machine goes on in the innermost activation, without opening or closing a
transaction. -/
theorem Simulates.stay (hprepared : setting.Prepared) (h : setting.Simulates scene machine v n)
    (hinstruction : scene.top.instruction? = some instruction) (henter : instruction ≠ .enter)
    (hleave : instruction ≠ .leave) (here : Activation)
    (hprogram : here.program = scene.top.program)
    (hroutine : here.routine = scene.top.routine)
    (hip : here.ip ∈ scene.top.program.successors scene.top.routine scene.top.ip instruction)
    {ops : List Value} {words frame : List Word} {request : Board.Request}
    (hops : ops.length = scene.top.program.depthAfter instruction scene.ops.length)
    (hwords : InWords ops words) (hholds : scene.rc.layout.Holds here.locals frame)
    (hlinks : frame.length = scene.frame.length ∧
      frame[scene.rc.layout.locals]? = scene.frame[scene.rc.layout.locals]? ∧
      frame[scene.rc.layout.locals + 1]? = scene.frame[scene.rc.layout.locals + 1]?)
    (hrequest : request.IsRecorded)
    (hnext : next.frames = here :: scene.callers ∧ next.stack = ops ++ scene.lower ∧
      next.board = machine.board.after request ∧ next.stepLimit = machine.stepLimit)
    (hcode : scene.rc.Remains setting n' (scene.top.routine.code.toList.drop here.ip))
    (hlive : v'.live = words ++ scene.saved ++ frame ++ scene.below) (hkeeps : v.Keeps v')
    (hcarries : v'.Carries (machine.board.after request)) : setting.Shows next v' n' := by
  obtain ⟨hframes, hstack, hboard, hlimit⟩ := hnext
  have hbracketed := hprepared.bracketed h.frame.owns
  have hinside := ((Activation.inTransaction_stay hbracketed hinstruction hroutine hip).2.2
    henter hleave).1
  have hdepth := (hprepared.depthFits h.frame.owns h.depth hinstruction).next here.ip hip
  have hsaves : ∃ under, Saves here.inTransaction next.board under scene.saved ∧
      setting.Waits scene.top.routine scene.callers scene.lower under scene.below scene.rbp
        scene.ret := by
    rw [hinside, hboard]
    rcases h.saves.after h.board.toWellFormed hrequest with ⟨-, hsaves⟩ | ⟨hunder, hsaves⟩
    · exact ⟨_, hsaves, h.waits⟩
    · refine ⟨_, hsaves, ?_⟩
      have hwaits := h.waits
      rw [hunder] at hwaits
      exact hwaits.after h.board.toWellFormed hrequest
  obtain ⟨under, hsaves, hwaits⟩ := hsaves
  refine .inl ⟨{ scene with top := here, ops, under, words, frame }, ?_⟩
  exact
    { frames := hframes
      stack := hstack
      words := hwords
      depth := by
        rw [hprogram, hroutine, hops]
        exact hdepth
      frame :=
        { owns := by
            rw [hprogram, hroutine]
            exact h.frame.owns
          program := h.frame.program.trans hprogram.symm
          routine := h.frame.routine.trans hroutine.symm
          laid := h.frame.laid
          holds := hholds
          length := hlinks.1.trans h.frame.length
          caller := hlinks.2.1.trans h.frame.caller
          ret := hlinks.2.2.trans h.frame.ret }
      saves := hsaves
      waits := by
        rw [hroutine]
        exact hwaits
      board := by
        rw [hboard]
        exact h.board.after hrequest
      limit := hlimit.trans h.limit
      code := by
        rw [hroutine]
        exact hcode
      live := hlive
      rbp := hkeeps.rbp.trans h.rbp
      carries := by
        rw [hboard]
        exact hcarries
      hosts := h.hosts.of_keeps hkeeps }

end Setting
end Native
end Gobstones
