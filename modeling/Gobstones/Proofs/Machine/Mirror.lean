import Mathlib.Data.List.Forall2
import Gobstones.Machine.Run
import Gobstones.Proofs.Machine.Bindings
import Gobstones.Proofs.Program.Reach
import Gobstones.Proofs.Program.Renaming
/-!
# Mirrored runs

This module shows that a program with the routines of other modules under new names runs
as they do.  Every step has its mirror image: the boards, the operand stacks and the
numbers of steps stay equal, and a run ends with the same variables or the same kind of
failure.

Main definitions:

- {lit}`Routine.Mirrors`: a routine under names that keep its variables apart.
- {lit}`Program.Mirrors`: a program with a mirror image of each routine behind another.
- {lit}`Machine.Mirrors` and {lit}`Outcome.Alike`: states and outcomes under new names.

Main results:

- Theorem {lit}`Machine.Mirrors.step`: a step has its mirror image.
- Theorem {lit}`Program.Mirrors.execute`: a run has its mirror image.
-/

namespace Gobstones

/-! ## Routines -/

namespace Routine

/-- The variables that a routine mentions, those that it returns among them. -/
def localNames (routine : Routine) : Set String :=
  {name | name ∈ routine.params ∨ ∃ instruction ∈ routine.code,
    instruction.localName? = some name ∨
      ∃ typed ∈ instruction.returnedNames, Polyname.base typed = name}

/-- A routine under new names that keep its variables apart, and under which returned
variables keep theirs. -/
structure Mirrors (names : Renaming) (routine mirror : Routine) : Prop
    extends routine.IsRenamed names mirror where
  apart : Set.InjOn names.localName routine.localNames
  returned : ∀ instruction ∈ routine.code, ∀ typed ∈ instruction.returnedNames,
    names.localName (Polyname.base typed) = Polyname.base typed

end Routine

/-! ## Programs -/

/-- The mirror images of the routines of modules. -/
abbrev Images := Program → Routine → Routine → Prop

/-- A called name and its new name stand for the same builtin, for a routine and its image,
or for nothing. -/
structure Program.CallsAlike (images : Images) (home target : Program) (name newName : String) :
    Prop where
  builtin : ∀ builtin, home.resolve? name = some (.builtin builtin) →
    target.resolve? newName = some (.builtin builtin)
  routine : ∀ other callee, home.callee? name = some (other, callee) →
    ∃ image, images other callee image ∧ target.resolve? newName = some (.own image)
  unknown : home.resolve? name = none → target.resolve? newName = none

/-- A routine has a mirror image whose calls enter mirror images. -/
structure Routine.MirrorsIn (images : Images) (home target : Program) (names : Renaming)
    (routine mirror : Routine) : Prop extends routine.Mirrors names mirror where
  calls : ∀ instruction ∈ routine.code, ∀ name, instruction.callName? = some name →
    home.CallsAlike images target name (names.callName name)

/-- A program mirrors another one if it starts alike and every image is one. -/
structure Program.Mirrors (images : Images) (source target : Program) : Prop where
  image : ∀ home routine mirror, images home routine mirror →
    ∃ names, routine.MirrorsIn images home target names mirror
  entry : ∀ entry, source.entrypoint? = some entry →
    ∃ mirror, images source entry mirror ∧ target.entrypoint? = some mirror
  noEntry : source.entrypoint? = none → target.entrypoint? = none

/-! ## States -/

section

variable {images : Images} {target : Program}

/-- A call in progress of a mirror image at the same instruction, with the same values of
the variables. -/
structure Activation.Mirrors (images : Images) (target : Program) (names : Renaming)
    (activation mirror : Activation) : Prop where
  routine : activation.routine.MirrorsIn images activation.program target names mirror.routine
  program : mirror.program = target
  ip : mirror.ip = activation.ip
  locals : Locals.RenamedOn names.localName activation.routine.localNames activation.locals
    mirror.locals
  immutable : ∀ name ∈ activation.routine.localNames,
    names.localName name ∈ mirror.immutable ↔ name ∈ activation.immutable

/-- Calls in progress of mirror images. -/
def FramesMirror (images : Images) (target : Program) : List Activation → List Activation → Prop :=
  List.Forall₂ fun activation mirror => ∃ names, activation.Mirrors images target names mirror

/-- The same board, values and counters, and calls in progress of mirror images. -/
structure Machine.Mirrors (images : Images) (target : Program) (machine mirror : Machine) :
    Prop where
  board : mirror.board = machine.board
  stack : mirror.stack = machine.stack
  steps : mirror.steps = machine.steps
  stepLimit : mirror.stepLimit = machine.stepLimit
  frames : FramesMirror images target machine.frames mirror.frames

/-- Outcomes with the same returned variables or the same kind of failure. -/
inductive Outcome.Alike : Outcome → Outcome → Prop where
  | running : Alike .running .running
  | finished (bindings : Bindings) : Alike (.finished bindings) (.finished bindings)
  | failed {fault mirror : Fault} (h : mirror.kind = fault.kind) :
    Alike (.failed fault) (.failed mirror)

/-- A state and what it comes to, and their mirror images. -/
def ResultsMirror (images : Images) (target : Program) (result mirror : Machine × Outcome) : Prop :=
  result.1.Mirrors images target mirror.1 ∧ result.2.Alike mirror.2

/-! ## Steps -/

namespace Machine.Mirrors

variable {machine mirror : Machine} {callers callersMirror : List Activation}

theorem fail (h : machine.Mirrors images target mirror) {cause other : FaultCause}
    (hkind : other.kind = cause.kind) :
    ResultsMirror images target (machine.fail cause) (mirror.fail other) :=
  ⟨h, .failed hkind⟩

theorem withFrames (h : machine.Mirrors images target mirror)
    {frames framesMirror : List Activation}
    (hframes : FramesMirror images target frames framesMirror) :
    Machine.Mirrors images target { machine with frames } { mirror with frames := framesMirror } :=
  ⟨h.board, h.stack, h.steps, h.stepLimit, hframes⟩

theorem withStack (h : machine.Mirrors images target mirror) (stack : List Value) :
    Machine.Mirrors images target { machine with stack } { mirror with stack } :=
  ⟨h.board, rfl, h.steps, h.stepLimit, h.frames⟩

theorem withBoard (h : machine.Mirrors images target mirror) (board : Board) :
    Machine.Mirrors images target { machine with board } { mirror with board } :=
  ⟨rfl, h.stack, h.steps, h.stepLimit, h.frames⟩

theorem goOn (h : machine.Mirrors images target mirror) {frames framesMirror : List Activation}
    (hframes : FramesMirror images target frames framesMirror) :
    ResultsMirror images target (machine.goOn frames) (mirror.goOn framesMirror) :=
  ⟨h.withFrames hframes, .running⟩

end Machine.Mirrors

theorem Activation.Mirrors.withIp {names : Renaming} {activation mirror : Activation}
    (h : activation.Mirrors images target names mirror) (ip : Nat) :
    Activation.Mirrors images target names { activation with ip } { mirror with ip } :=
  ⟨h.routine, h.program, rfl, h.locals, h.immutable⟩

theorem Activation.Mirrors.advance {names : Renaming} {activation mirror : Activation}
    (h : activation.Mirrors images target names mirror) :
    Activation.Mirrors images target names activation.advance mirror.advance :=
  ⟨h.routine, h.program, congrArg (· + 1) h.ip, h.locals, h.immutable⟩

namespace Machine.Mirrors

variable {machine mirror : Machine} {callers callersMirror : List Activation}

/-- The calls of mirror images return alike. -/
theorem leave (h : machine.Mirrors images target mirror)
    (hcallers : FramesMirror images target callers callersMirror) (bindings : Bindings) :
    ResultsMirror images target (machine.leave callers bindings)
      (mirror.leave callersMirror bindings) := by
  cases hcallers with
  | nil => exact ⟨h.withFrames .nil, .finished bindings⟩
  | cons hcaller hrest =>
    obtain ⟨names, hcaller⟩ := hcaller
    exact h.goOn (.cons ⟨names, hcaller.advance⟩ hrest)

variable {names : Renaming} {top topMirror : Activation}

theorem jump (h : machine.Mirrors images target mirror)
    (htop : top.Mirrors images target names topMirror)
    (hcallers : FramesMirror images target callers callersMirror) :
    ResultsMirror images target (machine.jump top callers)
      (mirror.jump topMirror callersMirror) := by
  have htarget : topMirror.routine.target? topMirror.ip = top.routine.target? top.ip := by
    rw [Routine.target?, Routine.target?, htop.routine.targets, htop.ip]
  unfold Machine.jump
  rw [htarget]
  cases top.routine.target? top.ip with
  | none => exact h.fail rfl
  | some ip => exact h.goOn (.cons ⟨names, htop.withIp ip⟩ hcallers)

/-- Mirror images are entered alike. -/
theorem enterRoutine (h : machine.Mirrors images target mirror) {home : Program}
    {routine image : Routine} (himage : routine.MirrorsIn images home target names image)
    (argc : Nat) :
    ResultsMirror images target (machine.enterRoutine home routine argc)
      (mirror.enterRoutine target image argc) := by
  have hlength : image.params.length = routine.params.length := by
    rw [himage.params, List.length_map]
  unfold Machine.enterRoutine
  rw [hlength, h.stack]
  split
  · exact h.fail rfl
  · split
    · exact h.fail rfl
    · next args stack _ =>
      refine (h.withStack stack).goOn (.cons ⟨names, himage, rfl, rfl, ?_, ?_⟩ h.frames)
      · simp only [Activation.new, himage.params]
        exact .ofArguments himage.apart (fun name hname => .inl hname) args
      · simp [Activation.new]

theorem applyBuiltin (h : machine.Mirrors images target mirror)
    (htop : top.Mirrors images target names topMirror)
    (hcallers : FramesMirror images target callers callersMirror) (builtin : Builtin) (argc : Nat) :
    ResultsMirror images target (machine.applyBuiltin top callers builtin argc)
      (mirror.applyBuiltin topMirror callersMirror builtin argc) := by
  unfold Machine.applyBuiltin
  rw [h.stack]
  split
  · exact h.fail rfl
  · split
    · exact h.fail rfl
    · next args stack _ =>
      rw [h.board]
      cases builtin.operation.perform args machine.board with
      | error e board => exact ((h.withStack stack).withBoard board).fail rfl
      | ok result board =>
        have hstack := h.withStack
          (pushResult stack (if builtin.kind = .function then result else none))
        exact (hstack.withBoard board).goOn (.cons ⟨names, htop.advance⟩ hcallers)

/-- Names and their new names are called alike. -/
theorem call (himages : ∀ home routine image, images home routine image →
      ∃ names, routine.MirrorsIn images home target names image)
    (h : machine.Mirrors images target mirror)
    (htop : top.Mirrors images target names topMirror)
    (hcallers : FramesMirror images target callers callersMirror) {name : String} {argc : Nat}
    (hname : top.program.CallsAlike images target name (names.callName name)) :
    ResultsMirror images target (machine.call top callers name argc)
      (mirror.call topMirror callersMirror (names.callName name) argc) := by
  have henter {home : Program} {callee : Routine}
      (hcallee : top.program.callee? name = some (home, callee)) :
      ResultsMirror images target (machine.enterRoutine home callee argc)
        (mirror.call topMirror callersMirror (names.callName name) argc) := by
    obtain ⟨image, himage, hresolve⟩ := hname.routine home callee hcallee
    obtain ⟨names', hmirrors⟩ := himages home callee image himage
    rw [Machine.call, htop.program, hresolve]
    exact h.enterRoutine hmirrors argc
  rw [Machine.call]
  cases hresolve : top.program.resolve? name with
  | none =>
    rw [Machine.call, htop.program, hname.unknown hresolve]
    exact h.fail rfl
  | some called =>
    cases called with
    | builtin builtin =>
      rw [Machine.call, htop.program, hname.builtin builtin hresolve]
      exact h.applyBuiltin htop hcallers builtin argc
    | own callee => exact henter (by rw [Program.callee?, hresolve])
    | external other callee => exact henter (by rw [Program.callee?, hresolve])

/-- Returned variables are returned alike. -/
theorem returnVars (h : machine.Mirrors images target mirror)
    (htop : top.Mirrors images target names topMirror)
    (hcallers : FramesMirror images target callers callersMirror) {n : Nat} {typed : List String}
    (hmem : .returnVars n typed ∈ top.routine.code) :
    ResultsMirror images target (machine.returnVars top callers n typed)
      (mirror.returnVars topMirror callersMirror n typed) := by
  have hresults : resultBindings topMirror.locals typed = resultBindings top.locals typed :=
    htop.locals.resultBindings
      (fun name hname => .inr ⟨_, hmem, .inr ⟨name, hname, rfl⟩⟩)
      (fun name hname => htop.routine.returned _ hmem name hname)
  have hempty : callersMirror.isEmpty = callers.isEmpty := by
    cases hcallers <;> rfl
  unfold Machine.returnVars
  rw [hresults, hempty]
  split
  · exact h.fail rfl
  · split
    · split
      · exact h.leave hcallers _
      · exact h.fail rfl
    · exact h.leave hcallers _

/-- An instruction and the same one under new names have the same effect. -/
theorem perform (himages : ∀ home routine image, images home routine image →
      ∃ names, routine.MirrorsIn images home target names image)
    (h : machine.Mirrors images target mirror)
    (htop : top.Mirrors images target names topMirror)
    (hcallers : FramesMirror images target callers callersMirror) {instruction : Instruction}
    (hmem : instruction ∈ top.routine.code) :
    ResultsMirror images target (machine.perform top callers instruction)
      (mirror.perform topMirror callersMirror (instruction.rename names)) := by
  have hlocal {name : String} (hname : instruction.localName? = some name) :
      name ∈ top.routine.localNames :=
    .inr ⟨instruction, hmem, .inl hname⟩
  have hnext : FramesMirror images target (top.advance :: callers)
      (topMirror.advance :: callersMirror) :=
    .cons ⟨names, htop.advance⟩ hcallers
  cases instruction with
  | pushConst value =>
    rw [Instruction.rename, Machine.perform, Machine.perform, h.stack]
    exact (h.withStack _).goOn hnext
  | pushFrom name =>
    rw [Instruction.rename, Machine.perform, Machine.perform, htop.locals name (hlocal rfl),
      h.stack]
    split
    · exact (h.withStack _).goOn hnext
    · exact h.fail rfl
  | popTo name =>
    have himmutable := htop.immutable name (hlocal rfl)
    rw [Instruction.rename, Machine.perform, Machine.perform, h.stack]
    by_cases hname : name ∈ top.immutable
    · rw [if_pos hname, if_pos (himmutable.2 hname)]
      exact h.fail rfl
    · rw [if_neg hname, if_neg (mt himmutable.1 hname)]
      split
      · exact h.fail rfl
      · next value stack _ =>
        have hset := htop.locals.set htop.routine.apart (hlocal rfl) value
        exact (h.withStack stack).goOn (.cons
          ⟨names, htop.routine, htop.program, congrArg (· + 1) htop.ip, hset, htop.immutable⟩
          hcallers)
  | delVar name =>
    have herase := htop.locals.erase htop.routine.apart (hlocal rfl)
    exact h.goOn (.cons
      ⟨names, htop.routine, htop.program, congrArg (· + 1) htop.ip, herase, htop.immutable⟩
      hcallers)
  | setImmutable name =>
    refine h.goOn (.cons
      ⟨names, htop.routine, htop.program, congrArg (· + 1) htop.ip, htop.locals, ?_⟩ hcallers)
    intro other hother
    have heq := htop.routine.apart.eq_iff hother (hlocal rfl)
    simpa [Activation.advance, heq] using or_congr_right (htop.immutable other hother)
  | unsetImmutable name =>
    refine h.goOn (.cons
      ⟨names, htop.routine, htop.program, congrArg (· + 1) htop.ip, htop.locals, ?_⟩ hcallers)
    intro other hother
    have heq := htop.routine.apart.eq_iff hother (hlocal rfl)
    simpa [Activation.advance, heq] using and_congr_left fun _ => htop.immutable other hother
  | label name => exact h.goOn hnext
  | jump name => exact h.jump htop hcallers
  | jumpIfFalse name =>
    rw [Instruction.rename, Machine.perform, Machine.perform, h.stack]
    split
    · exact h.fail rfl
    · exact (h.withStack _).goOn hnext
    · exact (h.withStack _).jump htop hcallers
    · exact (h.withStack _).fail rfl
  | jumpIfNotIn values name =>
    rw [Instruction.rename, Machine.perform, Machine.perform, h.stack]
    split
    · exact h.fail rfl
    · split
      · exact (h.withStack _).goOn hnext
      · exact (h.withStack _).jump htop hcallers
  | raise message => exact h.fail rfl
  | call name argc => exact h.call himages htop hcallers (htop.routine.calls _ hmem name rfl)
  | ret n =>
    rw [Instruction.rename, Machine.perform, Machine.perform, h.stack]
    split
    · exact h.fail rfl
    · exact h.leave hcallers []
  | returnVars n typed => exact h.returnVars htop hcallers hmem
  | enter =>
    rw [Instruction.rename, Machine.perform, Machine.perform, h.board]
    exact (h.withBoard _).goOn hnext
  | leave =>
    rw [Instruction.rename, Machine.perform, Machine.perform, h.board]
    split
    · exact (h.withBoard _).goOn hnext
    · exact (h.withBoard _).fail rfl

/-- A step has its mirror image. -/
theorem step (himages : ∀ home routine image, images home routine image →
      ∃ names, routine.MirrorsIn images home target names image)
    (h : machine.Mirrors images target mirror) :
    ResultsMirror images target machine.step mirror.step := by
  obtain ⟨source, board, stack, frames, steps, stepLimit⟩ := machine
  obtain ⟨other, board, stack, framesMirror, steps, stepLimit⟩ := mirror
  obtain ⟨rfl, rfl, rfl, rfl, hframes⟩ := h
  have hcounted : Machine.Mirrors images target
      ⟨source, board, stack, frames, steps + 1, stepLimit⟩
      ⟨other, board, stack, framesMirror, steps + 1, stepLimit⟩ :=
    ⟨rfl, rfl, rfl, rfl, hframes⟩
  simp only [Machine.step]
  cases stepLimit.filter (· < steps + 1) with
  | some limit => exact hcounted.fail rfl
  | none =>
    cases hframes with
    | nil => exact hcounted.fail rfl
    | @cons top topMirror callers callersMirror htop hcallers =>
      obtain ⟨names, htop⟩ := htop
      have hinstruction : topMirror.instruction? =
          top.instruction?.map (Instruction.rename names) := by
        rw [Activation.instruction?, Activation.instruction?, htop.routine.code, htop.ip,
          Array.getElem?_map]
      simp only [hinstruction]
      cases hcurrent : top.instruction? with
      | none => exact hcounted.fail rfl
      | some instruction =>
        exact hcounted.perform himages htop hcallers (Array.mem_of_getElem? hcurrent)

/-- A run has its mirror image. -/
theorem run (himages : ∀ home routine image, images home routine image →
      ∃ names, routine.MirrorsIn images home target names image)
    (h : machine.Mirrors images target mirror) (fuel : Nat) :
    ResultsMirror images target (machine.run fuel) (mirror.run fuel) := by
  induction fuel generalizing machine mirror with
  | zero => exact ⟨h, .running⟩
  | succ fuel ih =>
    obtain ⟨hmachine, houtcome⟩ := h.step himages
    rw [Machine.run, Machine.run]
    generalize machine.step = result at hmachine houtcome
    generalize mirror.step = resultMirror at hmachine houtcome
    obtain ⟨next, outcome⟩ := result
    obtain ⟨nextMirror, outcomeMirror⟩ := resultMirror
    cases houtcome with
    | running => exact ih hmachine
    | finished bindings => exact ⟨hmachine, .finished bindings⟩
    | failed hkind => exact ⟨hmachine, .failed hkind⟩

end Machine.Mirrors

end

/-- A program runs like its mirror image, with any number of steps. -/
theorem Program.Mirrors.execute {images : Images} {source target : Program}
    (h : Program.Mirrors images source target) (board : Board) (stepLimit : Option Nat)
    (fuel : Nat) :
    ResultsMirror images target ((Machine.new source board stepLimit).execute fuel)
      ((Machine.new target board stepLimit).execute fuel) := by
  have hnew : Machine.Mirrors images target (Machine.new source board stepLimit)
      (Machine.new target board stepLimit) :=
    ⟨rfl, rfl, rfl, rfl, .nil⟩
  unfold Machine.execute Machine.callEntrypoint
  cases hentry : source.entrypoint? with
  | none =>
    simp only [Machine.new, hentry, h.noEntry hentry, Option.map_none]
    exact ⟨hnew, .failed rfl⟩
  | some entry =>
    obtain ⟨mirror, himage, htarget⟩ := h.entry entry hentry
    obtain ⟨names, hmirrors⟩ := h.image source entry mirror himage
    simp only [Machine.new, hentry, htarget, Option.map_some]
    refine Machine.Mirrors.run h.image (hnew.withFrames (.cons ⟨names, ?_⟩ .nil)) fuel
    exact ⟨hmirrors, rfl, rfl, fun _ _ => rfl, by simp [Activation.new]⟩

end Gobstones
