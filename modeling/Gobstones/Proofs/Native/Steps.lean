import Gobstones.Proofs.Native.Fragments
import Gobstones.Proofs.Native.Scenes
/-!
# Instructions in native code

This module follows the instructions of the stack machine that stay in their activation.
Native code that shows a state of the machine comes to show the state after the
instruction, or to the stub of the message with which the instruction fails.

Main definitions:

- {lit}`Machine.Tame`: what native code relies on in a state of a run.
- {lit}`Machine.TameAnywhere`: the same, where any activation may return variables.
- {lit}`Setting.Arrives`: what native code comes to when the machine makes a step.

Main results:

- Theorem {lit}`Simulates.leads_popTo` and its likes: single instructions.
- Theorem {lit}`Simulates.leads_applyBuiltin`: calls of builtins.
-/

namespace Gobstones

/-! ## What native code relies on -/

/-- The typed names of the variables with which an instruction returns to the host. -/
def Instruction.returned? : Instruction → Option (List String)
  | .returnVars _ names => some names
  | _ => none

namespace Machine

/-- What native code relies on without checking it when an instruction is performed: operands
have the types that the instruction is made for, no variable holds the word that marks variables
without values, and a routine that returns variables to the host does not leave otherwise. -/
def Suits (machine : Machine) (top : Activation) (callers : List Activation) : Instruction → Prop
  | .pushFrom name => top.locals.get? name ≠ some (.int Int64.maxValue)
  | .jumpIfNotIn values _ =>
    ∀ operand, machine.stack.head? = some operand → ∀ value ∈ values, operand.type = value.type
  | .call name argc =>
    ∀ builtin args rest, top.program.resolve? name = some (.builtin builtin) →
      builtin.arity = argc → popArguments argc [] machine.stack = some (args, rest) →
        builtin.Admits args
  | .ret _ => callers = [] → ∀ n names, .returnVars n names ∉ top.routine.code
  | .returnVars _ names =>
    ∀ name ∈ names, ∀ value, top.locals.get? (Polyname.base name) = some value →
      value ≠ .int Int64.maxValue ∧
        (Polyname.type? name).bind ValueType.ofName? = some value.type
  | _ => True

instance (machine : Machine) (top : Activation) (callers : List Activation)
    (instruction : Instruction) : Decidable (machine.Suits top callers instruction) :=
  match instruction with
  | .pushFrom _ => inferInstanceAs (Decidable (_ ≠ _))
  | .jumpIfNotIn values _ =>
    inferInstanceAs (Decidable (∀ operand, _ = some operand → ∀ value ∈ values, _ = _))
  | .call name argc =>
    match htarget : top.program.resolve? name, hpopped : popArguments argc [] machine.stack with
    | some (.builtin builtin), some (args, rest) =>
      decidable_of_iff (builtin.arity = argc → builtin.Admits args) (by
        simp only [Suits, htarget, hpopped]
        refine ⟨fun h other popped kept hother harity hargs => ?_, fun h harity =>
          h _ _ _ rfl harity rfl⟩
        cases hother
        cases hargs
        exact h harity)
    | some (.builtin _), none => .isTrue (by simp [Suits, hpopped])
    | some (.own _), _ | some (.external _ _), _ | none, _ => .isTrue (by simp [Suits, htarget])
  | .ret _ =>
    decidable_of_iff (callers = [] → top.routine.code.all fun other => other.returned?.isNone) (by
      simp only [Suits, Array.all_eq_true_iff_forall_mem]
      refine ⟨fun h hnil n names hmem => ?_, fun h hnil instruction hmem => ?_⟩
      · cases h hnil _ hmem
      · cases instruction with
        | returnVars n names => exact (h hnil n names hmem).elim
        | _ => rfl)
  | .returnVars _ names =>
    inferInstanceAs (Decidable (∀ name ∈ names, ∀ value : Value, _ = some value →
      _ ≠ _ ∧ _ = some value.type))
  | .pushConst _ | .popTo _ | .delVar _ | .setImmutable _ | .unsetImmutable _ | .label _
  | .jump _ | .jumpIfFalse _ | .raise _ | .enter | .leave => .isTrue trivial

/-- What native code relies on is the case for the current instruction. -/
def Tame (machine : Machine) : Prop :=
  ∀ top callers instruction, machine.frames = top :: callers →
    top.instruction? = some instruction → machine.Suits top callers instruction

/-- What native code relies on when variables are returned to another activation, which finds
nothing: there are no operands and no transaction to close, and the variables, which native code
reads all the same, have values. -/
structure Discards (top : Activation) (names : List String) : Prop where
  kind : top.routine.kind ≠ .function
  depth : top.program.depthAt? top.routine top.ip = some 0
  values : ∀ name ∈ names, top.locals.get? (Polyname.base name) ≠ none ∧
    top.locals.get? (Polyname.base name) ≠ some (.int Int64.maxValue)

instance (top : Activation) (names : List String) : Decidable (Discards top names) :=
  decidable_of_iff (top.routine.kind ≠ .function ∧
      top.program.depthAt? top.routine top.ip = some 0 ∧
      ∀ name ∈ names, top.locals.get? (Polyname.base name) ≠ none ∧
        top.locals.get? (Polyname.base name) ≠ some (.int Int64.maxValue))
    ⟨fun h => ⟨h.1, h.2.1, h.2.2⟩, fun h => ⟨h.kind, h.depth, h.values⟩⟩

/-- What native code relies on without checking it when an instruction is performed, where any
activation may return variables. -/
structure SuitsAnywhere (machine : Machine) (top : Activation) (callers : List Activation)
    (instruction : Instruction) : Prop where
  suits : callers.isEmpty ∨ instruction.returned? = none → machine.Suits top callers instruction
  discards : ¬callers.isEmpty → ∀ names, instruction.returned? = some names → Discards top names

instance (machine : Machine) (top : Activation) (callers : List Activation)
    (instruction : Instruction) : Decidable (machine.SuitsAnywhere top callers instruction) :=
  decidable_of_iff ((callers.isEmpty ∨ instruction.returned? = none →
      machine.Suits top callers instruction) ∧
      (¬callers.isEmpty → ∀ names, instruction.returned? = some names → Discards top names))
    ⟨fun h => ⟨h.1, h.2⟩, fun h => ⟨h.suits, h.discards⟩⟩

/-- What native code relies on is the case for the current instruction, where any activation may
return variables. -/
def TameAnywhere (machine : Machine) : Prop :=
  ∀ top callers instruction, machine.frames = top :: callers →
    top.instruction? = some instruction → machine.SuitsAnywhere top callers instruction

/-- Returns of variables name as many variables as they say. -/
def Named (machine : Machine) : Prop :=
  ∀ top callers n names, machine.frames = top :: callers →
    top.instruction? = some (.returnVars n names) → names.length = n

/-- What holds for the current instruction can be decided where it can be for all instructions. -/
def decideCurrent (machine : Machine) (P : Activation → List Activation → Instruction → Prop)
    [∀ top callers instruction, Decidable (P top callers instruction)] :
    Decidable (∀ top callers instruction, machine.frames = top :: callers →
      top.instruction? = some instruction → P top callers instruction) :=
  match hframes : machine.frames with
  | [] => .isTrue (by simp)
  | top :: callers =>
    match hinstruction : top.instruction? with
    | none => .isTrue (by
      intro first others instruction hfirst
      obtain ⟨rfl, rfl⟩ := List.cons.inj hfirst
      simp [hinstruction])
    | some instruction =>
      decidable_of_iff (P top callers instruction) (by
        refine ⟨fun h first others other hfirst hother => ?_, fun h => h _ _ _ rfl hinstruction⟩
        obtain ⟨rfl, rfl⟩ := List.cons.inj hfirst
        obtain rfl := Option.some.inj (hinstruction.symm.trans hother)
        exact h)

instance (machine : Machine) : Decidable machine.Tame :=
  machine.decideCurrent machine.Suits

instance (machine : Machine) : Decidable machine.TameAnywhere :=
  machine.decideCurrent machine.SuitsAnywhere

end Machine

/-- The names of variables with the types of their values. -/
def Bindings.signature (bindings : Bindings) : List (String × ValueType) :=
  bindings.map fun binding => (binding.1, binding.2.type)

namespace Native

/-- A value other than the greatest integer is not held by the sentinel. -/
theorem ne_sentinel {value : Value} {k : Int64} (hw : value.InWord (.int k))
    (hvalue : value ≠ .int Int64.maxValue) : k ≠ sentinel := by
  rintro rfl
  cases value with
  | int i =>
    rw [Value.int_inWord] at hw
    obtain rfl := Word.int.inj hw
    exact hvalue rfl
  | bool b =>
    rw [Value.bool_inWord] at hw
    cases b <;> simp [sentinel] at hw
  | color c =>
    rw [Value.color_inWord] at hw
    cases c <;> simp [sentinel, Word.nat, Color.index] at hw
  | dir d =>
    rw [Value.dir_inWord] at hw
    cases d <;> simp [sentinel, Word.nat, Direction.index] at hw
  | tuple items => exact Value.not_tuple_inWord items _ hw

namespace Setting

/-! ## What native code comes to -/

/-- Native code goes on at the stub of a message. -/
structure Failing (setting : Setting) (message : String) (v : View) (n : Nat) : Prop where
  stub : ∃ label, (message, label) ∈ setting.stubs ∧ setting.code.place label = some n
  hosts : setting.Hosts v
  live : hostWords setting.host setting.code <:+ v.live

/-- Native code goes on behind the call of the entrypoint, whose results have been left behind.
They are those of one of its returns of variables. -/
structure Finishing (setting : Setting) (bindings : Bindings) (board : Board) (v : View) (n : Nat) :
    Prop where
  place : n = entryPlace
  hosts : setting.Hosts v
  live : v.live = hostWords setting.host setting.code
  carries : v.Carries board
  board : board.Resembles setting.board
  results : ∃ words : List Int64, v.Returned (words.map Word.int) ∧
    words.length = setting.code.results.length ∧
    List.Forall₂ (fun binding word => binding.2.toWord? = some word) bindings words
  returned : bindings = [] ∨ ∃ n names, .returnVars n names ∈ setting.entry.code ∧
    resultTypes names = .ok bindings.signature

/-- What native code comes to when the machine comes to a state with an outcome. -/
def Arrives (setting : Setting) (next : Machine × Outcome) (v : View) (n : Nat) : Prop :=
  match next with
  | (machine, .running) => setting.Shows machine v n
  | (machine, .finished bindings) => setting.Finishing bindings machine.board v n
  | (_, .failed fault) => setting.Failing fault.message v n

/-- The failures that native code does not report. -/
def Excludes : Outcome → Prop
  | .failed fault => fault.kind ≠ .typeMismatch ∧ fault.kind ≠ .immutableAssignment
  | _ => True

variable {setting : Setting} {scene : Scene} {machine next : Machine} {v v' : View} {n n' : Nat}
variable {instruction : Instruction}

namespace Simulates

/-- Only the counter of steps has changed. -/
theorem counted (h : setting.Simulates scene machine v n) (steps : Nat) :
    setting.Simulates scene { machine with steps } v n :=
  { h with }

/-- The words of the host lie below all others. -/
theorem suffix (h : setting.Simulates scene machine v n) :
    hostWords setting.host setting.code <:+ v.live := by
  rw [h.live]
  exact h.waits.suffix.trans (List.suffix_append _ _)

/-- The code of the current instruction, and the code behind it. -/
theorem split (h : setting.Simulates scene machine v n)
    (hinstruction : scene.top.instruction? = some instruction) (hleave : instruction ≠ .leave) :
    ∃ first, scene.rc.InstructionCode setting.stubs instruction first ∧
      setting.code.At n first ∧ scene.rc.Remains setting (n + first.length)
        (scene.top.routine.code.toList.drop (scene.top.ip + 1)) :=
  h.code.split hinstruction hleave

theorem depthFits (hprepared : setting.Prepared) (h : setting.Simulates scene machine v n)
    (hinstruction : scene.top.instruction? = some instruction) :
    scene.top.program.DepthFits scene.top.routine
      (fun q d => scene.top.program.depthAt? scene.top.routine q = some d) scene.top.ip
      scene.ops.length instruction :=
  hprepared.depthFits h.frame.owns h.depth hinstruction

/-- The operand on top of the stack. -/
theorem exists_operand (hprepared : setting.Prepared) (h : setting.Simulates scene machine v n)
    (hinstruction : scene.top.instruction? = some instruction)
    (hpops : (scene.top.program.effect instruction).1 = 1) :
    ∃ value ops w words, scene.ops = value :: ops ∧ scene.words = w :: words ∧ value.InWord w ∧
      InWords ops words ∧ machine.stack = value :: (ops ++ scene.lower) ∧
      v.live = w :: (words ++ scene.saved ++ scene.frame ++ scene.below) := by
  have hpos := (h.depthFits hprepared hinstruction).pops_le
  rw [hpops] at hpos
  have hwords := h.words
  have hstack := h.stack
  have hlive := h.live
  generalize hsceneOps : scene.ops = ops at hwords hpos hstack
  generalize hsceneWords : scene.words = words at hwords hlive
  cases hwords with
  | nil => cases hpos
  | @cons value w ops words hw hwords =>
    exact ⟨value, ops, w, words, rfl, rfl, hw, hwords, hstack, hlive⟩

/-- Code that goes to a stub. -/
theorem leads_fail (hprepared : setting.Prepared) (h : setting.Simulates scene machine v n)
    {cause : FaultCause} {first : List Instr} (hcode : FailCode setting.stubs cause first)
    (hat : setting.code.At n first) :
    setting.code.Leads v n (setting.Failing cause.message) := by
  rcases hcode with ⟨label, hstub, rfl⟩
  have hjmp : setting.code.instrs[n]? = some (.jmp label) := hat 0 _ rfl
  rcases hprepared.assembled.linked.exists_place hjmp rfl with ⟨j, -, hplace⟩
  exact .jmp hjmp hplace (.done ⟨⟨label, hstub, hplace⟩, h.hosts, h.suffix⟩)

/-- The machine goes on in the innermost activation, with other operands. -/
theorem move (hprepared : setting.Prepared) (h : setting.Simulates scene machine v n)
    (hinstruction : scene.top.instruction? = some instruction) (henter : instruction ≠ .enter)
    (hleave : instruction ≠ .leave) (here : Activation)
    (hsame : here.program = scene.top.program ∧ here.routine = scene.top.routine ∧
      here.locals = scene.top.locals)
    (hip : here.ip ∈ scene.top.program.successors scene.top.routine scene.top.ip instruction)
    {ops : List Value} {words : List Word}
    (hops : ops.length = scene.top.program.depthAfter instruction scene.ops.length)
    (hwords : InWords ops words)
    (hnext : next.frames = here :: scene.callers ∧ next.stack = ops ++ scene.lower ∧
      next.board = machine.board ∧ next.stepLimit = machine.stepLimit)
    (hcode : scene.rc.Remains setting n' (scene.top.routine.code.toList.drop here.ip))
    (hlive : v'.live = words ++ scene.saved ++ scene.frame ++ scene.below)
    (hagrees : v.Agrees v') : setting.Shows next v' n' := by
  obtain ⟨hprogram, hroutine, hlocals⟩ := hsame
  have hholds : scene.rc.layout.Holds here.locals scene.frame := hlocals ▸ h.frame.holds
  have hquery : (Board.Request.query .totalStones).IsRecorded := trivial
  exact h.stay hprepared hinstruction henter hleave here hprogram hroutine hip hops hwords hholds
    ⟨rfl, rfl, rfl⟩ hquery hnext hcode hlive hagrees.toKeeps (hagrees.carries h.carries)

/-! ## Operands -/

variable {value : Value} {name : String}

theorem leads_pushConst (hprepared : setting.Prepared) (h : setting.Simulates scene machine v n)
    (hinstruction : scene.top.instruction? = some (.pushConst value)) :
    setting.code.Leads v n
      (setting.Arrives (machine.perform scene.top scene.callers (.pushConst value))) := by
  rcases h.split hinstruction (by simp) with ⟨first, ⟨word, hword, -, rfl⟩, hat, hcode⟩
  have hw : value.InWord (.int word) := ⟨word, hword, rfl⟩
  refine leads_pushWord hat fun v' hagrees hlive => .done ?_
  refine h.move hprepared hinstruction (by simp) (by simp) scene.top.advance ⟨rfl, rfl, rfl⟩ ?_ ?_
    (.cons hw h.words) ⟨rfl, ?_, rfl, rfl⟩ hcode ?_ hagrees
  · simp [Program.successors, Program.alwaysFails, Activation.advance]
  · simp [Program.depthAfter, Program.effect]
  · rw [h.stack]
    rfl
  · rw [hlive, h.live]
    rfl

theorem leads_pushFrom (hprepared : setting.Prepared) (h : setting.Simulates scene machine v n)
    (hinstruction : scene.top.instruction? = some (.pushFrom name))
    (hsuits : scene.top.locals.get? name ≠ some (.int Int64.maxValue)) :
    setting.code.Leads v n
      (setting.Arrives (machine.perform scene.top scene.callers (.pushFrom name))) := by
  rcases h.split hinstruction (by simp) with ⟨first, hread, hat, hcode⟩
  rcases leads_readCode h.framed h.separates hprepared.assembled.linked hread hat h.frame.holds with
    ⟨k, hvalue, hfound, hmissed⟩
  cases hlocal : scene.top.locals.get? name with
  | none =>
    rw [hlocal] at hvalue
    rcases hmissed (Word.int.inj hvalue) with ⟨label, m, hstub, hplace, hleads⟩
    simp only [Machine.perform, hlocal]
    refine hleads _ fun v' hagrees hlive => .done ⟨⟨label, hstub, hplace⟩,
      h.hosts.of_keeps hagrees.toKeeps, ?_⟩
    rw [hlive]
    exact h.suffix
  | some value =>
    rw [hlocal] at hvalue hsuits
    have hk : k ≠ sentinel := ne_sentinel hvalue fun heq => hsuits (congrArg some heq)
    simp only [Machine.perform, hlocal]
    refine hfound hk _ fun v' hagrees hlive => .done ?_
    refine h.move hprepared hinstruction (by simp) (by simp) scene.top.advance ⟨rfl, rfl, rfl⟩ ?_ ?_
      (.cons hvalue h.words) ⟨rfl, ?_, rfl, rfl⟩ hcode ?_ hagrees
    · simp [Program.successors, Program.alwaysFails, Activation.advance]
    · simp [Program.depthAfter, Program.effect]
    · rw [h.stack]
      rfl
    · rw [hlive, h.live]
      rfl

/-! ## Variables -/

/-- A variable and the word of its slot change together. -/
theorem assign (hprepared : setting.Prepared) (h : setting.Simulates scene machine v n)
    (hinstruction : scene.top.instruction? = some instruction) (henter : instruction ≠ .enter)
    (hleave : instruction ≠ .leave)
    (hnext : scene.top.ip + 1 ∈ scene.top.program.successors scene.top.routine scene.top.ip
      instruction) {slot : Slot} (hslot : scene.rc.layout.slot? name = some slot) {w : Word}
    {locals : Locals} {ops : List Value} {words : List Word}
    (hholds : scene.rc.layout.Holds locals (scene.frame.set (slot.index scene.rc.layout.locals) w))
    (hops : ops.length = scene.top.program.depthAfter instruction scene.ops.length)
    (hwords : InWords ops words)
    (hframes : next.frames = { scene.top with locals }.advance :: scene.callers)
    (hstack : next.stack = ops ++ scene.lower) (hboard : next.board = machine.board)
    (hlimit : next.stepLimit = machine.stepLimit)
    (hcode : scene.rc.Remains setting n' (scene.top.routine.code.toList.drop (scene.top.ip + 1)))
    (hlive : v'.live = words ++ scene.saved ++
      scene.frame.set (slot.index scene.rc.layout.locals) w ++ scene.below)
    (hagrees : v.Agrees v') : setting.Shows next v' n' := by
  have hquery : (Board.Request.query .totalStones).IsRecorded := trivial
  obtain ⟨hcaller, hret, -⟩ := Slot.index_ne (h.separates.fitsIn hslot)
  exact h.stay hprepared hinstruction henter hleave { scene.top with locals }.advance rfl rfl hnext
    hops hwords hholds
    ⟨List.length_set, List.getElem?_set_ne hcaller, List.getElem?_set_ne hret⟩ hquery
    ⟨hframes, hstack, hboard, hlimit⟩ hcode hlive hagrees.toKeeps (hagrees.carries h.carries)

theorem leads_popTo (hprepared : setting.Prepared) (h : setting.Simulates scene machine v n)
    (hinstruction : scene.top.instruction? = some (.popTo name))
    (hexcludes : Excludes (machine.perform scene.top scene.callers (.popTo name)).2) :
    setting.code.Leads v n
      (setting.Arrives (machine.perform scene.top scene.callers (.popTo name))) := by
  rcases h.split hinstruction (by simp) with ⟨first, ⟨mem, hmem, rfl⟩, hat, hcode⟩
  rcases h.exists_operand hprepared hinstruction rfl with
    ⟨value, ops, w, words, hops, -, hw, hwords, hstack, hlive⟩
  by_cases himmutable : name ∈ scene.top.immutable
  · simp only [Machine.perform, if_pos himmutable] at hexcludes
    exact (hexcludes.2 rfl).elim
  · have hframed : v.Framed scene.rc.layout (w :: (words ++ scene.saved)) scene.frame scene.below :=
      ⟨hlive, h.rbp, h.frame.length⟩
    rcases leads_popMem hframed h.separates hmem (hat 0 _ rfl) with ⟨slot, hslot, hleads⟩
    simp only [Machine.perform, if_neg himmutable, hstack]
    refine hleads fun v' hagrees hlive' => .done ?_
    refine h.assign hprepared hinstruction (by simp) (by simp) ?_ hslot
      (h.frame.holds.set h.separates hslot hw) ?_ hwords rfl rfl rfl rfl hcode hlive' hagrees
    · simp [Program.successors, Program.alwaysFails]
    · simp [Program.depthAfter, Program.effect, hops]

theorem leads_delVar (hprepared : setting.Prepared) (h : setting.Simulates scene machine v n)
    (hinstruction : scene.top.instruction? = some (.delVar name)) :
    setting.code.Leads v n
      (setting.Arrives (machine.perform scene.top scene.callers (.delVar name))) := by
  rcases h.split hinstruction (by simp) with ⟨first, ⟨mem, hmem, rfl⟩, hat, hcode⟩
  rcases leads_storeSentinel h.framed h.separates hmem hat with ⟨slot, hslot, hleads⟩
  refine hleads fun v' hagrees hlive => .done ?_
  refine h.assign hprepared hinstruction (by simp) (by simp) ?_ hslot
    (h.frame.holds.erase h.separates hslot) ?_ h.words rfl h.stack rfl rfl hcode hlive hagrees
  · simp [Program.successors, Program.alwaysFails]
  · simp [Program.depthAfter, Program.effect]

/-- An instruction without effect on the words of native code. -/
theorem leads_skip (hprepared : setting.Prepared) (h : setting.Simulates scene machine v n)
    (hinstruction : scene.top.instruction? = some instruction)
    (hplain : instruction = .setImmutable name ∨ instruction = .unsetImmutable name ∨
      instruction = .label name) :
    setting.code.Leads v n
      (setting.Arrives (machine.perform scene.top scene.callers instruction)) := by
  have hgo {n' : Nat} {immutable : List String} (hcode : scene.rc.Remains setting n'
      (scene.top.routine.code.toList.drop (scene.top.ip + 1))) :
      setting.Shows { machine with
        frames := { scene.top with immutable }.advance :: scene.callers } v n' := by
    refine h.move hprepared hinstruction ?_ ?_ { scene.top with immutable }.advance
      ⟨rfl, rfl, rfl⟩ ?_ ?_ h.words ⟨rfl, h.stack, rfl, rfl⟩ hcode h.live (.refl v)
    · rcases hplain with rfl | rfl | rfl <;> simp
    · rcases hplain with rfl | rfl | rfl <;> simp
    · rcases hplain with rfl | rfl | rfl <;>
        simp [Program.successors, Program.alwaysFails, Activation.advance]
    · rcases hplain with rfl | rfl | rfl <;> simp [Program.depthAfter, Program.effect]
  rcases hplain with rfl | rfl | rfl
  · rcases h.split hinstruction (by simp) with ⟨first, rfl, hat, hcode⟩
    exact .done (hgo hcode)
  · rcases h.split hinstruction (by simp) with ⟨first, rfl, hat, hcode⟩
    exact .done (hgo hcode)
  · rcases h.split hinstruction (by simp) with ⟨first, ⟨label, -, rfl⟩, hat, hcode⟩
    exact .bind (hat 0 _ rfl) (.done (hgo hcode))

/-! ## Jumps -/

/-- A native jump leads where the jump of the machine leads. -/
theorem exists_target (hprepared : setting.Prepared) (h : setting.Simulates scene machine v n)
    (hinstruction : scene.top.instruction? = some instruction)
    (hjump : instruction.jumpLabel? = some name) {label : Label}
    (hlabel : scene.rc.labels.lookup name = some label) {i : Nat} {instr : Instr}
    (hinstr : setting.code.instrs[i]? = some instr) (hto : instr.target? = some label) :
    ∃ target m, scene.top.routine.target? scene.top.ip = some target ∧
      setting.code.place label = some m ∧
      scene.rc.Remains setting m (scene.top.routine.code.toList.drop target) := by
  rcases Routine.exists_target? hinstruction hjump with ⟨target, htarget⟩
  have hname : scene.top.routine.code[scene.top.ip]?.bind Instruction.jumpLabel? = some name := by
    have hcode : scene.top.routine.code[scene.top.ip]? = some instruction := hinstruction
    rw [hcode]
    exact hjump
  rw [← h.frame.routine] at htarget hname ⊢
  rcases h.frame.laid.target hprepared.assembled.linked htarget hname hlabel hinstr hto with
    ⟨m, hplace, hcode⟩
  exact ⟨target, m, htarget, hplace, hcode⟩

theorem leads_jump (hprepared : setting.Prepared) (h : setting.Simulates scene machine v n)
    (hinstruction : scene.top.instruction? = some (.jump name)) :
    setting.code.Leads v n
      (setting.Arrives (machine.perform scene.top scene.callers (.jump name))) := by
  rcases h.split hinstruction (by simp) with ⟨first, ⟨label, hlabel, rfl⟩, hat, -⟩
  rcases h.exists_target hprepared hinstruction rfl hlabel (hat 0 _ rfl) rfl with
    ⟨target, m, htarget, hplace, hcode⟩
  simp only [Machine.perform, Machine.jump, htarget]
  refine .jmp (hat 0 _ rfl) hplace (.done ?_)
  refine h.move hprepared hinstruction (by simp) (by simp) { scene.top with ip := target }
    ⟨rfl, rfl, rfl⟩ ?_ ?_ h.words ⟨rfl, h.stack, rfl, rfl⟩ hcode h.live (.refl v)
  · simp [Program.successors, Program.alwaysFails, htarget]
  · simp [Program.depthAfter, Program.effect]

/-- The two ways in which a conditional jump goes on, after having popped its operand. -/
theorem branch (hprepared : setting.Prepared) (h : setting.Simulates scene machine v n)
    (hinstruction : scene.top.instruction? = some instruction)
    (hjump : instruction = .jumpIfFalse name ∨ ∃ values, instruction = .jumpIfNotIn values name)
    {ops : List Value} {words : List Word} (hops : scene.ops = value :: ops)
    (hwords : InWords ops words) {target ip : Nat}
    (htarget : scene.top.routine.target? scene.top.ip = some target)
    (hip : ip = scene.top.ip + 1 ∨ ip = target)
    (hcode : scene.rc.Remains setting n' (scene.top.routine.code.toList.drop ip))
    (hlive : v'.live = words ++ scene.saved ++ scene.frame ++ scene.below)
    (hagrees : v.Agrees v') :
    setting.Shows { machine with
      stack := ops ++ scene.lower, frames := { scene.top with ip } :: scene.callers } v' n' := by
  refine h.move hprepared hinstruction ?_ ?_ { scene.top with ip } ⟨rfl, rfl, rfl⟩ ?_ ?_ hwords
    ⟨rfl, rfl, rfl, rfl⟩ hcode hlive hagrees
  · rcases hjump with rfl | ⟨values, rfl⟩ <;> simp
  · rcases hjump with rfl | ⟨values, rfl⟩ <;> simp
  · rcases hjump with rfl | ⟨values, rfl⟩ <;> rcases hip with rfl | rfl <;>
      simp [Program.successors, Program.alwaysFails, htarget]
  · rcases hjump with rfl | ⟨values, rfl⟩ <;> simp [Program.depthAfter, Program.effect, hops]

theorem leads_jumpIfFalse (hprepared : setting.Prepared) (h : setting.Simulates scene machine v n)
    (hinstruction : scene.top.instruction? = some (.jumpIfFalse name))
    (hexcludes : Excludes (machine.perform scene.top scene.callers (.jumpIfFalse name)).2) :
    setting.code.Leads v n
      (setting.Arrives (machine.perform scene.top scene.callers (.jumpIfFalse name))) := by
  rcases h.split hinstruction (by simp) with ⟨first, ⟨label, hlabel, rfl⟩, hat, hcode⟩
  rcases h.exists_operand hprepared hinstruction rfl with
    ⟨value, ops, w, words, hops, -, hw, hwords, hstack, hlive⟩
  rcases h.exists_target hprepared hinstruction rfl hlabel (hat 2 _ rfl) rfl with
    ⟨target, m, htarget, hplace, hcode'⟩
  cases value with
  | bool b =>
    rw [Value.bool_inWord] at hw
    subst hw
    refine Native.leads_jumpIfFalse hat hlive hplace ?_ ?_
    · intro htrue v' hagrees hlive'
      obtain rfl : b = true := by cases b <;> simp at htrue ⊢
      simp only [Machine.perform, hstack]
      exact .done (h.branch hprepared hinstruction (.inl rfl) hops hwords htarget (.inl rfl) hcode
        hlive' hagrees)
    · intro hfalse v' hagrees hlive'
      obtain rfl : b = false := by cases b <;> simp at hfalse ⊢
      simp only [Machine.perform, hstack, Machine.jump, htarget]
      exact .done (h.branch hprepared hinstruction (.inl rfl) hops hwords htarget (.inr rfl) hcode'
        hlive' hagrees)
  | _ =>
    simp only [Machine.perform, hstack] at hexcludes
    exact (hexcludes.1 rfl).elim

/-- A scalar is listed when its word is, if all scalars in the list have its type. -/
theorem mem_iff_of_words {values : List Value} {words : List Int64} {k : Int64}
    (hwords : List.Forall₂ (fun value word => value.toWord? = some word) values words)
    (hk : value.toWord? = some k) (htype : ∀ other ∈ values, value.type = other.type) :
    value ∈ values ↔ k ∈ words := by
  induction hwords with
  | nil => simp
  | @cons other word values words hword _ ih =>
    have hsame := Value.eq_iff_of_toWord (htype other List.mem_cons_self) hk hword
    rw [List.mem_cons, List.mem_cons, hsame,
      ih fun other hother => htype other (List.mem_cons_of_mem _ hother)]

theorem leads_jumpIfNotIn (hprepared : setting.Prepared) (h : setting.Simulates scene machine v n)
    {values : List Value} (hinstruction : scene.top.instruction? = some (.jumpIfNotIn values name))
    (hsuits : machine.Suits scene.top scene.callers (.jumpIfNotIn values name)) :
    setting.code.Leads v n
      (setting.Arrives (machine.perform scene.top scene.callers (.jumpIfNotIn values name))) := by
  rcases h.split hinstruction (by simp) with
    ⟨first, ⟨label, matched, listed, hlabel, hlisted, rfl⟩, hat, hcode⟩
  rcases h.exists_operand hprepared hinstruction rfl with
    ⟨value, ops, w, words, hops, -, ⟨k, hk, rfl⟩, hwords, hstack, hlive⟩
  have hjmp : setting.code.At _ [Instr.jmp label, .bind matched] :=
    (NativeCode.at_append_iff.1 hat).2
  rcases h.exists_target hprepared hinstruction rfl hlabel (hjmp 0 _ rfl) rfl with
    ⟨target, m, htarget, hplace, hcode'⟩
  have hmem : value ∈ values ↔ k ∈ listed :=
    mem_iff_of_words hlisted hk (hsuits value (by rw [hstack]; rfl))
  refine leads_jumpUnlessListed hprepared.assembled.linked hat hlive hplace ?_ ?_
  · intro hfound v' hagrees hlive'
    simp only [Machine.perform, hstack, if_pos (hmem.2 hfound)]
    exact .done (h.branch hprepared hinstruction (.inr ⟨values, rfl⟩) hops hwords htarget (.inl rfl)
      hcode hlive' hagrees)
  · intro hmissed v' hagrees hlive'
    simp only [Machine.perform, hstack, if_neg fun hlist => hmissed (hmem.1 hlist), Machine.jump,
      htarget]
    exact .done (h.branch hprepared hinstruction (.inr ⟨values, rfl⟩) hops hwords htarget (.inr rfl)
      hcode' hlive' hagrees)

theorem leads_raise (hprepared : setting.Prepared) (h : setting.Simulates scene machine v n)
    {message : String} (hinstruction : scene.top.instruction? = some (.raise message)) :
    setting.code.Leads v n
      (setting.Arrives (machine.perform scene.top scene.callers (.raise message))) := by
  rcases h.split hinstruction (by simp) with ⟨first, hfail, hat, -⟩
  exact h.leads_fail hprepared hfail hat

/-! ## Transactions -/

/-- The board fits in memory throughout a run. -/
theorem fits (hprepared : setting.Prepared) (h : setting.Simulates scene machine v n) :
    machine.board.nativeLength < 2 ^ 63 := by
  rw [h.board.nativeLength hprepared.sound.toWellFormed]
  exact hprepared.fits

/-- A transaction is opened at the start of a function, where there are no operands. -/
theorem leads_enter (hprepared : setting.Prepared) (h : setting.Simulates scene machine v n)
    (hinstruction : scene.top.instruction? = some .enter) :
    setting.code.Leads v n (setting.Arrives (machine.perform scene.top scene.callers .enter)) := by
  rcases h.split hinstruction (by simp) with ⟨first, ⟨top, done, rfl⟩, hat, hcode⟩
  have hbracketed := hprepared.bracketed h.frame.owns
  have hnext : scene.top.advance.ip ∈ scene.top.program.successors scene.top.routine scene.top.ip
      .enter := by
    simp [Program.successors, Program.alwaysFails, Activation.advance]
  have hroutine : scene.top.advance.routine = scene.top.routine := rfl
  obtain ⟨houtside, hinside⟩ :=
    (Activation.inTransaction_stay hbracketed hinstruction hroutine hnext).1 rfl
  have hdepth := (h.depthFits hprepared hinstruction).next _ hnext
  have hsaves := h.saves
  rw [houtside] at hsaves
  rcases hsaves with ⟨hunder, hsaved⟩
  have hempty : scene.ops = [] := by
    have hstart := h.depth
    rw [((hbracketed.enter_iff scene.top.ip).1 hinstruction).2,
      (hprepared.depthsFit h.frame.owns).start] at hstart
    exact List.eq_nil_of_length_eq_zero (Option.some.inj hstart).symm
  have hwords := h.words
  rw [hempty] at hwords
  have hnone : scene.words = [] := List.forall₂_nil_left_iff.1 hwords
  refine leads_enterCode hprepared.assembled.linked h.board.toWellFormed (h.fits hprepared) hat h.carries
    fun v' hagrees hlive => .done (.inl ⟨{ scene with
      top := scene.top.advance, saved := snapshot machine.board }, ?_⟩)
  exact
    { frames := rfl
      stack := h.stack
      words := h.words
      depth := hdepth
      frame := ⟨h.frame.owns, h.frame.program, h.frame.routine, h.frame.laid, h.frame.holds,
        h.frame.length, h.frame.caller, h.frame.ret⟩
      saves := by
        dsimp only
        rw [hinside, hunder]
        exact ⟨machine.board.popState_pushState, rfl⟩
      waits := h.waits
      board := h.board.pushState
      limit := h.limit
      code := hcode
      live := by
        rw [hlive, h.live, hnone, hsaved]
        simp
      rbp := hagrees.rbp.trans h.rbp
      carries := hagrees.carries ⟨h.carries.rbx, h.carries.r11, h.carries.r12, h.carries.r13,
        h.carries.r14, h.carries.cells⟩
      hosts := h.hosts.of_keeps hagrees.toKeeps }

/-! ## Builtins -/

/-- The arguments of a call on top of both stacks. -/
theorem exists_arguments (hprepared : setting.Prepared) (h : setting.Simulates scene machine v n)
    {argc : Nat} (hinstruction : scene.top.instruction? = some (.call name argc)) :
    ∃ args ops taken words, scene.ops = args ++ ops ∧ args.length = argc ∧ InWords args taken ∧
      InWords ops words ∧
      Machine.popArguments argc [] machine.stack = some (args.reverse, ops ++ scene.lower) ∧
      v.live = taken ++ (words ++ scene.saved ++ scene.frame ++ scene.below) := by
  have hle : argc ≤ scene.ops.length := (h.depthFits hprepared hinstruction).pops_le
  have hlength : (scene.ops.take argc).length = argc := by
    rw [List.length_take, Nat.min_eq_left hle]
  refine ⟨scene.ops.take argc, scene.ops.drop argc, scene.words.take argc, scene.words.drop argc,
    (List.take_append_drop argc scene.ops).symm, hlength, List.forall₂_take argc h.words,
    List.forall₂_drop argc h.words, ?_, ?_⟩
  · have hpopped := Machine.popArguments_append (scene.ops.take argc) []
      (scene.ops.drop argc ++ scene.lower)
    rw [hlength, ← List.append_assoc, List.take_append_drop, List.append_nil, ← h.stack] at hpopped
    exact hpopped
  · rw [h.live]
    simp only [← List.append_assoc, List.take_append_drop]

/-- A builtin that is called is one of the standard ones. -/
theorem mem_standard (hprepared : setting.Prepared) (h : setting.Simulates scene machine v n)
    {argc : Nat} (hinstruction : scene.top.instruction? = some (.call name argc))
    {builtin : Builtin} (hresolve : scene.top.program.resolve? name = some (.builtin builtin)) :
    builtin ∈ BuiltinTable.standard.entries :=
  hprepared.orderly.builtins _ _ h.frame.owns _ _ (Array.mem_of_getElem? hinstruction) _ hresolve

/-- Only functions have results, which are pushed. -/
theorem pushResult_eq {stack : List Value} {result : Option Value} {kind : RoutineKind}
    (hkind : result.isSome ↔ kind = .function) :
    Machine.pushResult stack (if kind = .function then result else none) =
      result.toList ++ stack := by
  cases result with
  | none =>
    split <;> rfl
  | some value =>
    rw [if_pos (hkind.1 rfl)]
    rfl

theorem leads_applyBuiltin (hprepared : setting.Prepared) (h : setting.Simulates scene machine v n)
    {argc : Nat} (hinstruction : scene.top.instruction? = some (.call name argc))
    {builtin : Builtin} (hresolve : scene.top.program.resolve? name = some (.builtin builtin))
    (hsuits : machine.Suits scene.top scene.callers (.call name argc))
    (hexcludes : Excludes (machine.applyBuiltin scene.top scene.callers builtin argc).2)
    {first : List Instr} (hcode : BuiltinCode setting.stubs builtin.name first)
    (hat : setting.code.At n first) (harity : builtin.arity = argc)
    (hrest : scene.rc.Remains setting (n + first.length)
      (scene.top.routine.code.toList.drop (scene.top.ip + 1))) :
    setting.code.Leads v n
      (setting.Arrives (machine.applyBuiltin scene.top scene.callers builtin argc)) := by
  have hstandard := h.mem_standard hprepared hinstruction hresolve
  have hrealizes := realizes_of_standard hstandard hcode
  rcases h.exists_arguments hprepared hinstruction with
    ⟨args, ops, taken, words, hops, hargs, htaken, hwords, hpop, hlive⟩
  have hadmits : builtin.Admits args.reverse := hsuits builtin _ _ hresolve harity hpop
  have hparams : args.reverse.length = builtin.operation.arity := by
    rw [List.length_reverse, hargs, ← builtin.takes]
    exact harity.symm
  have hreversed : InWords args.reverse taken.reverse := List.forall₂_reverse_iff.2 htaken
  rw [← List.reverse_reverse taken] at hlive
  have hcount : ¬builtin.params.length ≠ argc := not_not.2 harity
  simp only [Machine.applyBuiltin, if_neg hcount, hpop, Operation.perform_eq] at hexcludes ⊢
  cases hresult : builtin.operation.apply machine.board args.reverse with
  | error e =>
    simp only [hresult] at hexcludes
    rcases hrealizes.error h.board.toWellFormed (h.fits hprepared) hparams hadmits hreversed hresult
      hexcludes.1 with ⟨label, hstub, hbreaks⟩
    refine (hbreaks setting.code v n _ hprepared.assembled.linked hat h.carries hlive).mono ?_
    rintro v' n' ⟨hplace, hkeeps, hsuffix⟩
    refine ⟨⟨label, hstub, hplace⟩, h.hosts.of_keeps hkeeps, .trans ?_ hsuffix⟩
    exact h.waits.suffix.trans (List.suffix_append _ _)
  | ok outcome =>
    rcases outcome with ⟨result, board⟩
    obtain ⟨⟨request, hrequest, rfl⟩, hkind⟩ := Operation.apply_eq_ok hresult
    rcases hrealizes.ok h.board.toWellFormed (h.fits hprepared) hparams hadmits hreversed hresult with
      ⟨pushed, hpushed, hleads⟩
    refine (hleads setting.code v n _ hprepared.assembled.linked hat h.carries hlive).mono ?_
    rintro v' _ ⟨rfl, hkeeps, hcarries, hlive'⟩
    rw [← Builtin.kind_of_standard builtin hstandard] at hkind
    have hstack : Machine.pushResult (ops ++ scene.lower)
        (if builtin.kind = .function then result else none) = _ := pushResult_eq hkind
    refine h.stay hprepared hinstruction (by simp) (by simp) scene.top.advance rfl rfl ?_ ?_
      (List.rel_append hpushed hwords) h.frame.holds ⟨rfl, rfl, rfl⟩ hrequest
      ⟨rfl, ?_, rfl, rfl⟩ hrest ?_ hkeeps hcarries
    · rw [Machine.successors_call hresolve harity]
      exact List.mem_singleton_self _
    · rw [Program.depthAfter, Machine.effect_call hresolve, hops, List.length_append,
        List.length_append, hargs, Nat.add_sub_cancel_left, Nat.add_comm, CallTarget.resultCount]
      congr 1
      cases result with
      | none => simp [← hkind]
      | some value => simp [← hkind]
    · rw [List.append_assoc]
      exact hstack
    · rw [hlive']
      simp

end Simulates
end Setting
end Native
end Gobstones
