import Gobstones.Proofs.Native.Builtins
/-!
# Emitted code

This module says which instructions the emitters append to the code.  Emitting never
changes what is there already, and a stub that was requested once stays requested, so
the code of a routine is described piece by piece in terms of the stubs of the whole
program.

Main definitions:

- {lit}`Emitter.Emits`: an emitter is followed by another with more code.
- {lit}`RoutineCompiler.InstructionCode`: the code of an instruction, up to its labels.
- {lit}`RoutineCompiler.Translates`: the code of the instructions of a routine.

Main results:

- Theorem {lit}`emits_code`: the code of a routine is emitted.
- Theorem {lit}`RoutineCompiler.Translates.label`: the code behind a label.
-/

namespace Gobstones
namespace Native

/-! ## Emitters that follow each other -/

/-- An emitter is followed by another one that has emitted more instructions and has requested
more stubs. -/
structure Emitter.Emits (em em' : Emitter) (instrs : List Instr) : Prop where
  instrs : em'.instrs.toList = em.instrs.toList ++ instrs
  stubs : em.stubs ⊆ em'.stubs
  placed : em'.placed = em.placed

namespace Emitter

variable {em em' em'' : Emitter} {first second : List Instr}

theorem Emits.refl (em : Emitter) : em.Emits em [] :=
  ⟨by simp, fun _ hmem => hmem, rfl⟩

theorem Emits.trans (h : em.Emits em' first) (h' : em'.Emits em'' second) :
    em.Emits em'' (first ++ second) where
  instrs := by rw [h'.instrs, h.instrs, List.append_assoc]
  stubs := fun _ hmem => h'.stubs (h.stubs hmem)
  placed := h'.placed.trans h.placed

/-- What is emitted after an emitter that has emitted nothing. -/
theorem Emits.after (h' : em'.Emits em'' second) (h : em.Emits em' []) : em.Emits em'' second :=
  h.trans h'

theorem emits_emit (em : Emitter) (instr : Instr) : em.Emits (em.emit instr) [instr] :=
  ⟨by simp [emit], fun _ hmem => hmem, rfl⟩

theorem emits_emitAll (em : Emitter) (instrs : List Instr) : em.Emits (em.emitAll instrs) instrs :=
  ⟨by simp [emitAll], fun _ hmem => hmem, rfl⟩

theorem emits_fresh (em : Emitter) : em.Emits em.fresh.2 [] :=
  ⟨by simp [fresh], fun _ hmem => hmem, rfl⟩

theorem emits_freshSwitch (em : Emitter) : em.Emits em.freshSwitch.2 [] :=
  ⟨by simp [freshSwitch, fresh], fun _ hmem => hmem, rfl⟩

theorem emits_fault (em : Emitter) (message : String) : em.Emits (em.fault message).2 [] := by
  unfold fault
  split
  · exact .refl em
  · exact ⟨by simp, fun _ hmem => List.mem_append_left _ hmem, rfl⟩

/-- The stub of a message is requested under its label. -/
theorem mem_fault (em : Emitter) (message : String) :
    (message, (em.fault message).1) ∈ (em.fault message).2.stubs := by
  unfold fault
  split
  · next label hlookup =>
    obtain ⟨front, rest, hstubs, -⟩ := List.lookup_eq_some_iff.1 hlookup
    simp [hstubs]
  · simp

end Emitter

/-! ## Builtins -/

variable {em em' : Emitter} {stubs : List (String × Label)} {name : String}

theorem emits_of_fault {message : String} {label : Label} (h : em.fault message = (label, em')) :
    em.Emits em' [] ∧ (message, label) ∈ em'.stubs := by
  have hemits := em.emits_fault message
  have hmem := em.mem_fault message
  rw [h] at hemits hmem
  exact ⟨hemits, hmem⟩

/-- The stubs of four messages are requested one after the other. -/
theorem emits_faults {em0 em1 em2 em3 em4 : Emitter} {a b c d : String}
    {first second third fourth : Label} (h1 : em0.fault a = (first, em1))
    (h2 : em1.fault b = (second, em2)) (h3 : em2.fault c = (third, em3))
    (h4 : em3.fault d = (fourth, em4)) :
    em0.Emits em4 [] ∧ ∀ (i : Nat) message, [a, b, c, d][i]? = some message →
      ∃ label, [first, second, third, fourth][i]? = some label ∧ (message, label) ∈ em4.stubs := by
  rcases emits_of_fault h1 with ⟨hem1, ha⟩
  rcases emits_of_fault h2 with ⟨hem2, hb⟩
  rcases emits_of_fault h3 with ⟨hem3, hc⟩
  rcases emits_of_fault h4 with ⟨hem4, hd⟩
  refine ⟨((hem4.after hem3).after hem2).after hem1, fun i message hmessage => ?_⟩
  match i, hmessage with
  | 0, rfl => exact ⟨_, rfl, hem4.stubs (hem3.stubs (hem2.stubs ha))⟩
  | 1, rfl => exact ⟨_, rfl, hem4.stubs (hem3.stubs hb)⟩
  | 2, rfl => exact ⟨_, rfl, hem4.stubs hc⟩
  | 3, rfl => exact ⟨_, rfl, hd⟩

/-! The emitters of builtins with stubs, in terms of what the requests return. -/

theorem takeStone_eq_emitAll {em0 em1 em2 em3 em4 : Emitter} {fault0 fault1 fault2 fault3 : Label}
    (h0 : em0.fresh.2.freshSwitch.2.cannotTake .blue = (fault0, em1))
    (h1 : em1.cannotTake .black = (fault1, em2)) (h2 : em2.cannotTake .red = (fault2, em3))
    (h3 : em3.cannotTake .green = (fault3, em4)) :
    em0.takeStone = em4.emitAll
      (takeStoneCode em0.labels em0.fresh.2.freshSwitch.1 fault0 fault1 fault2 fault3) := by
  unfold Emitter.takeStone
  simp only [h0, h1, h2, h3]
  rfl

theorem move_eq_emitAll {em0 em1 em2 em3 em4 : Emitter} {fault0 fault1 fault2 fault3 : Label}
    (h0 : em0.freshSwitch.2.cannotMove .north = (fault0, em1))
    (h1 : em1.cannotMove .east = (fault1, em2)) (h2 : em2.cannotMove .south = (fault2, em3))
    (h3 : em3.cannotMove .west = (fault3, em4)) :
    em0.move = em4.emitAll (moveCode em0.freshSwitch.1 fault0 fault1 fault2 fault3) := by
  unfold Emitter.move
  simp only [h0, h1, h2, h3]

theorem power_eq_emitAll {negative : Label} {requested : Emitter}
    (h : em.fault ArithmeticError.negativeExponent.message = (negative, requested)) :
    em.power = requested.fresh.2.fresh.2.fresh.2.emitAll
      (powerCode negative requested.labels (requested.labels + 1) (requested.labels + 2)) := by
  unfold Emitter.power
  rw [h]
  rfl

theorem division_eq_emitAll {byZero : Label} {requested : Emitter} (result : DivisionResult)
    (h : em.fault ArithmeticError.divisionByZero.message = (byZero, requested)) :
    em.division result = requested.fresh.2.fresh.2.fresh.2.emitAll
      (divisionCode result byZero requested.labels (requested.labels + 1)
        (requested.labels + 2)) := by
  unfold Emitter.division
  rw [h]
  rfl

/-- The code that takes a stone is emitted. -/
theorem emits_takeStone (em : Emitter) :
    ∃ enough labels fault0 fault1 fault2 fault3,
      em.Emits em.takeStone (takeStoneCode enough labels fault0 fault1 fault2 fault3) ∧
      ∀ color : Color, ∃ label, [fault0, fault1, fault2, fault3][color.index]? = some label ∧
        ((BoardError.cannotTake color 1 0).message, label) ∈ em.takeStone.stubs := by
  rcases h0 : em.fresh.2.freshSwitch.2.cannotTake .blue with ⟨fault0, em1⟩
  rcases h1 : em1.cannotTake .black with ⟨fault1, em2⟩
  rcases h2 : em2.cannotTake .red with ⟨fault2, em3⟩
  rcases h3 : em3.cannotTake .green with ⟨fault3, em4⟩
  obtain ⟨hfaults, hmem⟩ := emits_faults h0 h1 h2 h3
  have hcode := em4.emits_emitAll
    (takeStoneCode em.labels em.fresh.2.freshSwitch.1 fault0 fault1 fault2 fault3)
  rw [← takeStone_eq_emitAll h0 h1 h2 h3] at hcode
  refine ⟨_, _, _, _, _, _, hcode.after ((hfaults.after
    (Emitter.emits_freshSwitch _)).after em.emits_fresh), fun color => ?_⟩
  obtain ⟨label, hlabel, hstub⟩ := hmem color.index (BoardError.cannotTake color 1 0).message
    (by cases color <;> rfl)
  exact ⟨label, hlabel, hcode.stubs hstub⟩

/-- The code that moves the head is emitted. -/
theorem emits_move (em : Emitter) :
    ∃ labels fault0 fault1 fault2 fault3,
      em.Emits em.move (moveCode labels fault0 fault1 fault2 fault3) ∧
      ∀ direction : Direction, ∃ label,
        [fault0, fault1, fault2, fault3][direction.index]? = some label ∧
          ((BoardError.cannotMove direction).message, label) ∈ em.move.stubs := by
  rcases h0 : em.freshSwitch.2.cannotMove .north with ⟨fault0, em1⟩
  rcases h1 : em1.cannotMove .east with ⟨fault1, em2⟩
  rcases h2 : em2.cannotMove .south with ⟨fault2, em3⟩
  rcases h3 : em3.cannotMove .west with ⟨fault3, em4⟩
  obtain ⟨hfaults, hmem⟩ := emits_faults h0 h1 h2 h3
  have hcode := em4.emits_emitAll (moveCode em.freshSwitch.1 fault0 fault1 fault2 fault3)
  rw [← move_eq_emitAll h0 h1 h2 h3] at hcode
  refine ⟨_, _, _, _, _, hcode.after (hfaults.after em.emits_freshSwitch), fun direction => ?_⟩
  obtain ⟨label, hlabel, hstub⟩ := hmem direction.index (BoardError.cannotMove direction).message
    (by cases direction <;> rfl)
  exact ⟨label, hlabel, hcode.stubs hstub⟩

/-- The code of a builtin that needs one stub and three labels. -/
theorem emits_request {message : String} {label : Label} {requested : Emitter}
    (h : em.fault message = (label, requested)) (code : Label → Label → Label → List Instr)
    (hem' : em' = requested.fresh.2.fresh.2.fresh.2.emitAll
      (code requested.labels (requested.labels + 1) (requested.labels + 2))) :
    (∃ first second third, em.Emits em' (code first second third)) ∧
      (message, label) ∈ em'.stubs := by
  obtain ⟨hfault, hmem⟩ := emits_of_fault h
  have hlabels := (Emitter.emits_fresh _).after ((Emitter.emits_fresh _).after
    (Emitter.emits_fresh requested))
  have hcode := (Emitter.emits_emitAll requested.fresh.2.fresh.2.fresh.2
    (code requested.labels (requested.labels + 1) (requested.labels + 2))).after hlabels
  rw [← hem'] at hcode
  exact ⟨⟨_, _, _, hcode.after hfault⟩, hcode.stubs hmem⟩

theorem emits_power (em : Emitter) :
    ∃ negative top skip done, em.Emits em.power (powerCode negative top skip done) ∧
      (ArithmeticError.negativeExponent.message, negative) ∈ em.power.stubs := by
  rcases hrequest : em.fault ArithmeticError.negativeExponent.message with ⟨negative, requested⟩
  obtain ⟨⟨top, skip, done, hemits⟩, hmem⟩ :=
    emits_request hrequest (powerCode negative) (power_eq_emitAll hrequest)
  exact ⟨negative, top, skip, done, hemits, hmem⟩

theorem emits_division (em : Emitter) (result : DivisionResult) :
    ∃ byZero normal exact done,
      em.Emits (em.division result) (divisionCode result byZero normal exact done) ∧
        (ArithmeticError.divisionByZero.message, byZero) ∈ (em.division result).stubs := by
  rcases hrequest : em.fault ArithmeticError.divisionByZero.message with ⟨byZero, requested⟩
  obtain ⟨⟨normal, exact, done, hemits⟩, hmem⟩ :=
    emits_request hrequest (divisionCode result byZero) (division_eq_emitAll result hrequest)
  exact ⟨byZero, normal, exact, done, hemits, hmem⟩

/-- The code of a builtin is emitted. -/
theorem emits_builtin? (h : em.builtin? name = some em') :
    ∃ instrs, em.Emits em' instrs ∧
      ∀ stubs, em'.stubs ⊆ stubs → BuiltinCode stubs name instrs := by
  unfold Emitter.builtin? at h
  split at h
  · obtain rfl := Option.some.inj h
    obtain ⟨_, _, _, _, _, _, hemits, hmem⟩ := emits_takeStone em
    refine ⟨_, hemits, fun stubs hstubs => ⟨_, _, _, _, _, _, fun color => ?_, rfl⟩⟩
    obtain ⟨label, hlabel, hstub⟩ := hmem color
    exact ⟨label, hlabel, hstubs hstub⟩
  · obtain rfl := Option.some.inj h
    obtain ⟨_, _, _, _, _, hemits, hmem⟩ := emits_move em
    refine ⟨_, hemits, fun stubs hstubs => ⟨_, _, _, _, _, fun direction => ?_, rfl⟩⟩
    obtain ⟨label, hlabel, hstub⟩ := hmem direction
    exact ⟨label, hlabel, hstubs hstub⟩
  · obtain rfl := Option.some.inj h
    exact ⟨_, (Emitter.emits_emitAll _ _).after (Emitter.emits_freshSwitch em),
      fun stubs _ => ⟨_, rfl⟩⟩
  · obtain rfl := Option.some.inj h
    exact ⟨_, (Emitter.emits_emitAll _ _).after (Emitter.emits_freshSwitch em),
      fun stubs _ => ⟨_, rfl⟩⟩
  · obtain rfl := Option.some.inj h
    exact ⟨_, (Emitter.emits_emitAll _ _).after ((Emitter.emits_fresh _).after
      (Emitter.emits_fresh em)), fun stubs _ => ⟨_, _, rfl⟩⟩
  · obtain rfl := Option.some.inj h
    rcases emits_power em with ⟨negative, top, skip, done, hemits, hmem⟩
    exact ⟨_, hemits, fun stubs hstubs => ⟨_, _, _, _, hstubs hmem, rfl⟩⟩
  · obtain rfl := Option.some.inj h
    rcases emits_division em .quotient with ⟨byZero, normal, exact, done, hemits, hmem⟩
    exact ⟨_, hemits, fun stubs hstubs => ⟨_, _, _, _, hstubs hmem, rfl⟩⟩
  · obtain rfl := Option.some.inj h
    rcases emits_division em .remainder with ⟨byZero, normal, exact, done, hemits, hmem⟩
    exact ⟨_, hemits, fun stubs hstubs => ⟨_, _, _, _, hstubs hmem, rfl⟩⟩
  · next htake hmove hboundary hcan hclear hpower hdiv hmod =>
    obtain ⟨instrs, hplain, rfl⟩ := Option.map_eq_some_iff.1 h
    refine ⟨instrs, Emitter.emits_emitAll em instrs, fun stubs _ => ?_⟩
    unfold BuiltinCode
    split
    · exact (htake rfl).elim
    · exact (hmove rfl).elim
    · exact (hboundary rfl).elim
    · exact (hcan rfl).elim
    · exact (hclear rfl).elim
    · exact (hpower rfl).elim
    · exact (hdiv rfl).elim
    · exact (hmod rfl).elim
    · exact hplain

/-! ## Single instructions -/

/-- Code that goes to the stub of a failure. -/
def FailCode (stubs : List (String × Label)) (cause : FaultCause) (instrs : List Instr) : Prop :=
  ∃ label, (cause.message, label) ∈ stubs ∧ instrs = [.jmp label]

/-- Code that pushes the value of a variable. -/
def ReadCode (layout : FrameLayout) (stubs : List (String × Label)) (name : String)
    (instrs : List Instr) : Prop :=
  ∃ memory label, layout.memory name = .ok memory ∧
    ((FaultCause.uninitialized name).message, label) ∈ stubs ∧
    instrs = [.load .rax memory, .movImm .rcx sentinel, .alu .cmp .rax .rcx, .jcc .e label,
      .push .rax]

/-- Code that leaves values right below {lit}`rdi` and returns. -/
def ReturnCode (n : Nat) (instrs : List Instr) : Prop :=
  ∃ drop, dropWords n = .ok drop ∧ instrs = drop ++ .mov .rdi .rsp :: epilogue

/-- Code that also restores the board. -/
def LeaveCode (n : Nat) (instrs : List Instr) : Prop :=
  ∃ drop top done, dropWords n = .ok drop ∧
    instrs = drop ++ .mov .rdi .rsp :: leaveCode top done ++ epilogue

namespace RoutineCompiler

/-- Code that calls a routine, or fails because of the number of its arguments. -/
def RoutineCallCode (rc : RoutineCompiler) (stubs : List (String × Label)) (home : Program)
    (callee : Routine) (argc : Nat) (instrs : List Instr) : Prop :=
  if callee.arity ≠ argc then
    FailCode stubs (.wrongArity callee.kind callee.name callee.params argc) instrs
  else
    ∃ label drop results, rc.routines.lookup (home.moduleName, callee.name) = some label ∧
      dropWords argc = .ok drop ∧ pushResults callee.resultCount = .ok results ∧
      instrs = .call label :: drop ++ results

/-- Code that calls what a name stands for. -/
def CallCode (rc : RoutineCompiler) (stubs : List (String × Label)) (name : String) (argc : Nat)
    (instrs : List Instr) : Prop :=
  match rc.program.resolve? name with
  | none => FailCode stubs (.undefinedRoutine name) instrs
  | some (.builtin builtin) =>
    if builtin.arity ≠ argc then
      FailCode stubs (.wrongArity builtin.kind builtin.name builtin.params argc) instrs
    else BuiltinCode stubs builtin.name instrs
  | some (.own callee) => rc.RoutineCallCode stubs rc.program callee argc instrs
  | some (.external home callee) => rc.RoutineCallCode stubs home callee argc instrs

/-- The code of an instruction, up to its labels.  The end of a transaction has no code of its
own. -/
def InstructionCode (rc : RoutineCompiler) (stubs : List (String × Label))
    (instruction : Instruction) (instrs : List Instr) : Prop :=
  match instruction with
  | .pushConst value =>
    ∃ word, value.toWord? = some word ∧ word ≠ sentinel ∧ instrs = pushWord word
  | .pushFrom name => ReadCode rc.layout stubs name instrs
  | .popTo name => ∃ memory, rc.layout.memory name = .ok memory ∧ instrs = [.popMem memory]
  | .delVar name =>
    ∃ memory, rc.layout.memory name = .ok memory ∧
      instrs = [.movImm .rax sentinel, .store memory .rax]
  | .setImmutable _ | .unsetImmutable _ => instrs = []
  | .label name => ∃ label, rc.labels.lookup name = some label ∧ instrs = [.bind label]
  | .jump name => ∃ label, rc.labels.lookup name = some label ∧ instrs = [.jmp label]
  | .jumpIfFalse name =>
    ∃ label, rc.labels.lookup name = some label ∧
      instrs = [.pop .rax, .test .rax .rax, .jcc .e label]
  | .jumpIfNotIn values name =>
    ∃ target matched words, rc.labels.lookup name = some target ∧
      List.Forall₂ (fun value word => value.toWord? = some word) values words ∧
      instrs = jumpUnlessListed words matched target
  | .raise message => FailCode stubs (.thrown message) instrs
  | .call name argc => rc.CallCode stubs name argc instrs
  | .ret n => ReturnCode n instrs
  | .returnVars n names =>
    ∃ reads last, List.Forall₂ (fun name => ReadCode rc.layout stubs (Polyname.base name)) names
      reads ∧ ReturnCode n last ∧ instrs = reads.flatten ++ last
  | .enter => ∃ top done, instrs = enterCode top done
  | .leave => False

end RoutineCompiler

variable {rc : RoutineCompiler}

theorem constantWord_eq_ok {value : Value} {word : Int64}
    (h : RoutineCompiler.constantWord value = .ok word) : value.toWord? = some word := by
  unfold RoutineCompiler.constantWord at h
  split at h
  · next other hother =>
    obtain rfl := Except.ok.inj h
    exact hother
  · cases h

theorem jumpLabel_eq_ok {label : Label} (h : rc.jumpLabel name = .ok label) :
    rc.labels.lookup name = some label := by
  unfold RoutineCompiler.jumpLabel at h
  split at h
  · next other hother =>
    obtain rfl := Except.ok.inj h
    exact hother
  · cases h

/-- A failure is emitted as a jump to its stub. -/
theorem emits_failWith (em : Emitter) (cause : FaultCause) :
    ∃ instrs, em.Emits (RoutineCompiler.failWith em cause) instrs ∧
      ∀ stubs, (RoutineCompiler.failWith em cause).stubs ⊆ stubs →
        FailCode stubs cause instrs := by
  rcases hrequest : em.fault cause.message with ⟨label, requested⟩
  obtain ⟨hfault, hmem⟩ := emits_of_fault hrequest
  have hfail : RoutineCompiler.failWith em cause = requested.emit (.jmp label) := by
    unfold RoutineCompiler.failWith
    rw [hrequest]
  rw [hfail]
  have hcode := requested.emits_emit (.jmp label)
  exact ⟨_, hcode.after hfault, fun stubs hstubs => ⟨label, hstubs (hcode.stubs hmem), rfl⟩⟩

/-- The value of a variable is read by code of its own. -/
theorem emits_pushVariable (h : rc.pushVariable em name = .ok em') :
    ∃ instrs, em.Emits em' instrs ∧
      ∀ stubs, em'.stubs ⊆ stubs → ReadCode rc.layout stubs name instrs := by
  obtain ⟨memory, hmemory, h⟩ := exists_of_bind_eq_ok h
  rcases hrequest : em.fault (FaultCause.uninitialized name).message with ⟨label, requested⟩
  obtain ⟨hfault, hmem⟩ := emits_of_fault hrequest
  simp only [hrequest] at h
  obtain rfl := Except.ok.inj h
  have hcode := requested.emits_emitAll [.load .rax memory, .movImm .rcx sentinel,
    .alu .cmp .rax .rcx, .jcc .e label, .push .rax]
  exact ⟨_, hcode.after hfault,
    fun stubs hstubs => ⟨memory, label, hmemory, hstubs (hcode.stubs hmem), rfl⟩⟩

/-- The values of several variables are read one after the other. -/
theorem emits_pushVariables {names : List String}
    (h : names.foldlM (fun em name => rc.pushVariable em (Polyname.base name)) em = .ok em') :
    ∃ reads, em.Emits em' reads.flatten ∧ ∀ stubs, em'.stubs ⊆ stubs →
      List.Forall₂ (fun name => ReadCode rc.layout stubs (Polyname.base name)) names reads := by
  induction names generalizing em with
  | nil =>
    obtain rfl := Except.ok.inj h
    exact ⟨[], .refl em, fun _ _ => .nil⟩
  | cons name names ih =>
    rw [List.foldlM_cons] at h
    obtain ⟨next, hfirst, h⟩ := exists_of_bind_eq_ok h
    obtain ⟨read, hread, hcode⟩ := emits_pushVariable hfirst
    obtain ⟨reads, hreads, hcodes⟩ := ih h
    refine ⟨read :: reads, hread.trans hreads, fun stubs hstubs => ?_⟩
    exact .cons (hcode stubs fun _ hmem => hstubs (hreads.stubs hmem)) (hcodes stubs hstubs)

theorem emits_returnValues {n : Nat} (h : RoutineCompiler.returnValues em n = .ok em') :
    ∃ instrs, em.Emits em' instrs ∧ ReturnCode n instrs := by
  unfold RoutineCompiler.returnValues at h
  obtain ⟨drop, hdrop, h⟩ := exists_of_bind_eq_ok h
  obtain rfl := Except.ok.inj h
  exact ⟨_, em.emits_emitAll _, drop, hdrop, rfl⟩

theorem emits_leaveAndReturn {n : Nat} (h : RoutineCompiler.leaveAndReturn em n = .ok em') :
    ∃ instrs, em.Emits em' instrs ∧ LeaveCode n instrs := by
  unfold RoutineCompiler.leaveAndReturn at h
  obtain ⟨drop, hdrop, h⟩ := exists_of_bind_eq_ok h
  obtain rfl := Except.ok.inj h
  exact ⟨_, (Emitter.emits_emitAll _ _).after ((Emitter.emits_fresh _).after em.emits_fresh),
    drop, _, _, hdrop, rfl⟩

/-- A call of a compiled routine is emitted. -/
theorem emits_callRoutine {home : Program} {callee : Routine} {argc : Nat}
    (h : rc.callRoutine em home callee argc = .ok em') :
    ∃ instrs, em.Emits em' instrs ∧
      ∀ stubs, em'.stubs ⊆ stubs → rc.RoutineCallCode stubs home callee argc instrs := by
  unfold RoutineCompiler.callRoutine at h
  unfold RoutineCompiler.RoutineCallCode
  split at h
  · next harity =>
    obtain rfl := Except.ok.inj h
    obtain ⟨instrs, hemits, hcode⟩ := emits_failWith em
      (.wrongArity callee.kind callee.name callee.params argc)
    refine ⟨instrs, hemits, fun stubs hstubs => ?_⟩
    rw [if_pos harity]
    exact hcode stubs hstubs
  · next harity =>
    split at h
    · cases h
    · next label hlabel =>
      obtain ⟨drop, hdrop, h⟩ := exists_of_bind_eq_ok h
      obtain ⟨results, hresults, h⟩ := exists_of_bind_eq_ok h
      obtain rfl := Except.ok.inj h
      refine ⟨_, em.emits_emitAll _, fun stubs _ => ?_⟩
      rw [if_neg harity]
      exact ⟨label, drop, results, hlabel, hdrop, hresults, rfl⟩

/-- A call is emitted. -/
theorem emits_call {argc : Nat} (h : rc.call em name argc = .ok em') :
    ∃ instrs, em.Emits em' instrs ∧
      ∀ stubs, em'.stubs ⊆ stubs → rc.CallCode stubs name argc instrs := by
  unfold RoutineCompiler.call at h
  unfold RoutineCompiler.CallCode
  cases hresolve : rc.program.resolve? name with
  | none =>
    simp only [hresolve] at h ⊢
    obtain rfl := Except.ok.inj h
    exact emits_failWith em _
  | some target =>
    cases target with
    | builtin builtin =>
      simp only [hresolve] at h ⊢
      split at h
      · next harity =>
        obtain rfl := Except.ok.inj h
        simp only [if_pos harity]
        exact emits_failWith em _
      · next harity =>
        simp only [if_neg harity]
        unfold RoutineCompiler.inlineBuiltin at h
        split at h
        · next next hbuiltin =>
          obtain rfl := Except.ok.inj h
          exact emits_builtin? hbuiltin
        · split at h <;> cases h
    | own callee =>
      simp only [hresolve] at h ⊢
      exact emits_callRoutine h
    | external home callee =>
      simp only [hresolve] at h ⊢
      exact emits_callRoutine h

theorem forall₂_of_mapM_constantWord {values : List Value} {words : List Int64}
    (h : values.mapM RoutineCompiler.constantWord = .ok words) :
    List.Forall₂ (fun value word => value.toWord? = some word) values words := by
  induction values generalizing words with
  | nil =>
    obtain rfl := Except.ok.inj h
    exact .nil
  | cons value values ih =>
    rw [List.mapM_cons] at h
    obtain ⟨word, hword, h⟩ := exists_of_bind_eq_ok h
    obtain ⟨rest, hwords, h⟩ := exists_of_bind_eq_ok h
    obtain rfl := Except.ok.inj h
    exact .cons (constantWord_eq_ok hword) (ih hwords)

/-- The code of every instruction is emitted. -/
theorem emits_instruction {instruction : Instruction}
    (h : rc.instruction em instruction = .ok em') :
    ∃ instrs, em.Emits em' instrs ∧
      ∀ stubs, em'.stubs ⊆ stubs → rc.InstructionCode stubs instruction instrs := by
  cases instruction with
  | pushConst value =>
    simp only [RoutineCompiler.instruction] at h
    obtain ⟨word, hword, h⟩ := exists_of_bind_eq_ok h
    split at h
    · cases h
    · next hsentinel =>
      obtain rfl := Except.ok.inj h
      exact ⟨_, em.emits_emitAll _, fun _ _ => ⟨word, constantWord_eq_ok hword, hsentinel, rfl⟩⟩
  | pushFrom name => exact emits_pushVariable h
  | popTo name =>
    simp only [RoutineCompiler.instruction] at h
    obtain ⟨memory, hmemory, h⟩ := exists_of_bind_eq_ok h
    obtain rfl := Except.ok.inj h
    exact ⟨_, em.emits_emit _, fun _ _ => ⟨memory, hmemory, rfl⟩⟩
  | delVar name =>
    simp only [RoutineCompiler.instruction] at h
    obtain ⟨memory, hmemory, h⟩ := exists_of_bind_eq_ok h
    obtain rfl := Except.ok.inj h
    exact ⟨_, em.emits_emitAll _, fun _ _ => ⟨memory, hmemory, rfl⟩⟩
  | setImmutable name | unsetImmutable name =>
    obtain rfl := Except.ok.inj h
    exact ⟨[], .refl em, fun _ _ => rfl⟩
  | label name =>
    simp only [RoutineCompiler.instruction] at h
    obtain ⟨label, hlabel, h⟩ := exists_of_bind_eq_ok h
    obtain rfl := Except.ok.inj h
    exact ⟨_, em.emits_emit _, fun _ _ => ⟨label, jumpLabel_eq_ok hlabel, rfl⟩⟩
  | jump name =>
    simp only [RoutineCompiler.instruction] at h
    obtain ⟨label, hlabel, h⟩ := exists_of_bind_eq_ok h
    obtain rfl := Except.ok.inj h
    exact ⟨_, em.emits_emit _, fun _ _ => ⟨label, jumpLabel_eq_ok hlabel, rfl⟩⟩
  | jumpIfFalse name =>
    simp only [RoutineCompiler.instruction] at h
    obtain ⟨label, hlabel, h⟩ := exists_of_bind_eq_ok h
    obtain rfl := Except.ok.inj h
    exact ⟨_, em.emits_emitAll _, fun _ _ => ⟨label, jumpLabel_eq_ok hlabel, rfl⟩⟩
  | jumpIfNotIn values name =>
    simp only [RoutineCompiler.instruction] at h
    obtain ⟨label, hlabel, h⟩ := exists_of_bind_eq_ok h
    obtain ⟨words, hwords, h⟩ := exists_of_bind_eq_ok h
    obtain rfl := Except.ok.inj h
    exact ⟨_, (Emitter.emits_emitAll _ _).after em.emits_fresh, fun _ _ => ⟨label, em.labels,
      words, jumpLabel_eq_ok hlabel, forall₂_of_mapM_constantWord hwords, rfl⟩⟩
  | raise message =>
    obtain rfl := Except.ok.inj h
    exact emits_failWith em _
  | call name argc => exact emits_call h
  | ret n =>
    obtain ⟨instrs, hemits, hcode⟩ := emits_returnValues h
    exact ⟨instrs, hemits, fun _ _ => hcode⟩
  | returnVars n names =>
    simp only [RoutineCompiler.instruction] at h
    obtain ⟨next, hreads, h⟩ := exists_of_bind_eq_ok h
    obtain ⟨reads, hemits, hcodes⟩ := emits_pushVariables hreads
    obtain ⟨last, hlast, hcode⟩ := emits_returnValues h
    exact ⟨_, hemits.trans hlast, fun stubs hstubs => ⟨reads, last,
      hcodes stubs fun _ hmem => hstubs (hlast.stubs hmem), hcode, rfl⟩⟩
  | enter =>
    obtain rfl := Except.ok.inj h
    exact ⟨_, (Emitter.emits_emitAll _ _).after ((Emitter.emits_fresh _).after em.emits_fresh),
      fun _ _ => ⟨_, _, rfl⟩⟩
  | leave => cases h

/-! ## Routines -/

/-- The code of the instructions of a routine, one after the other.  The end of a transaction
and the return after it make one piece of code. -/
inductive RoutineCompiler.Translates (rc : RoutineCompiler) (stubs : List (String × Label)) :
    List Instruction → List Instr → Prop where
  | nil : rc.Translates stubs [] []
  | leave {n : Nat} {first instrs : List Instr} {rest : List Instruction}
    (hfirst : LeaveCode n first) (hrest : rc.Translates stubs rest instrs) :
    rc.Translates stubs (.leave :: .ret n :: rest) (first ++ instrs)
  | cons {instruction : Instruction} {first instrs : List Instr} {rest : List Instruction}
    (hfirst : rc.InstructionCode stubs instruction first)
    (hrest : rc.Translates stubs rest instrs) :
    rc.Translates stubs (instruction :: rest) (first ++ instrs)

/-- The code of a routine is emitted. -/
theorem emits_code {instructions : List Instruction} (h : rc.code em instructions = .ok em') :
    ∃ instrs, em.Emits em' instrs ∧
      ∀ stubs, em'.stubs ⊆ stubs → rc.Translates stubs instructions instrs := by
  fun_induction RoutineCompiler.code rc em instructions with
  | case1 em =>
    obtain rfl := Except.ok.inj h
    exact ⟨[], .refl em, fun _ _ => .nil⟩
  | case2 em n rest ih =>
    obtain ⟨next, hfirst, h⟩ := exists_of_bind_eq_ok h
    obtain ⟨first, hemits, hcode⟩ := emits_leaveAndReturn hfirst
    obtain ⟨instrs, hemits', hcodes⟩ := ih next h
    exact ⟨_, hemits.trans hemits', fun stubs hstubs => .leave hcode (hcodes stubs hstubs)⟩
  | case3 em instruction rest _ ih =>
    obtain ⟨next, hfirst, h⟩ := exists_of_bind_eq_ok h
    obtain ⟨first, hemits, hcode⟩ := emits_instruction hfirst
    obtain ⟨instrs, hemits', hcodes⟩ := ih next h
    exact ⟨_, hemits.trans hemits', fun stubs hstubs =>
      .cons (hcode stubs fun _ hmem => hstubs (hemits'.stubs hmem)) (hcodes stubs hstubs)⟩

/-- The code behind a label belongs to the instructions behind it. -/
theorem RoutineCompiler.Translates.label {stubs : List (String × Label)}
    {instructions : List Instruction} {instrs : List Instr}
    (h : rc.Translates stubs instructions instrs) {i : Nat} {name : String}
    (hi : instructions[i]? = some (.label name)) :
    ∃ label front rest, rc.labels.lookup name = some label ∧
      instrs = front ++ .bind label :: rest ∧
      rc.Translates stubs (instructions.drop (i + 1)) rest := by
  induction h generalizing i with
  | nil => simp at hi
  | @leave n first instrs rest _ _ ih =>
    match i, hi with
    | i + 2, hi =>
      obtain ⟨label, front, last, hlabel, rfl, hlast⟩ := ih hi
      exact ⟨label, first ++ front, last, hlabel, by simp, hlast⟩
  | @cons instruction first instrs rest hfirst hrest ih =>
    cases i with
    | zero =>
      obtain rfl : instruction = .label name := by simpa using hi
      obtain ⟨label, hlabel, rfl⟩ := hfirst
      exact ⟨label, [], instrs, hlabel, rfl, hrest⟩
    | succ i =>
      obtain ⟨label, front, last, hlabel, rfl, hlast⟩ := ih (by simpa using hi)
      exact ⟨label, first ++ front, last, hlabel, by simp, hlast⟩

/-- The code of the next instruction, which is not the end of a transaction. -/
theorem RoutineCompiler.Translates.split {stubs : List (String × Label)} {routine : Routine}
    {ip : Nat} {instruction : Instruction} {body : List Instr}
    (h : rc.Translates stubs (routine.code.toList.drop ip) body)
    (hinstruction : routine.code[ip]? = some instruction) (hleave : instruction ≠ .leave) :
    ∃ first rest, body = first ++ rest ∧ rc.InstructionCode stubs instruction first ∧
      rc.Translates stubs (routine.code.toList.drop (ip + 1)) rest := by
  obtain ⟨hlt, hget⟩ := Array.getElem?_eq_some_iff.1 hinstruction
  rw [List.drop_eq_getElem_cons (by simpa using hlt), Array.getElem_toList, hget] at h
  generalize hrest : routine.code.toList.drop (ip + 1) = rest at h ⊢
  cases h with
  | leave => exact (hleave rfl).elim
  | @cons _ first instrs _ hfirst hinstrs => exact ⟨first, instrs, rfl, hfirst, hinstrs⟩

/-- The code of the end of a transaction and of the return after it. -/
theorem RoutineCompiler.Translates.split_leave {stubs : List (String × Label)} {routine : Routine}
    {ip k : Nat} {body : List Instr} (h : rc.Translates stubs (routine.code.toList.drop ip) body)
    (hleave : routine.code[ip]? = some .leave) (hret : routine.code[ip + 1]? = some (.ret k)) :
    ∃ first rest, body = first ++ rest ∧ LeaveCode k first := by
  obtain ⟨hlt, hget⟩ := Array.getElem?_eq_some_iff.1 hleave
  obtain ⟨hlt', hget'⟩ := Array.getElem?_eq_some_iff.1 hret
  rw [List.drop_eq_getElem_cons (by simpa using hlt), Array.getElem_toList, hget,
    List.drop_eq_getElem_cons (by simpa using hlt'), Array.getElem_toList, hget'] at h
  cases h with
  | @leave _ first instrs _ hfirst _ => exact ⟨first, instrs, rfl, hfirst⟩
  | cons hfirst => exact hfirst.elim

end Native
end Gobstones
