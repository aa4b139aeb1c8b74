import Gobstones.Proofs.Board.Transaction
import Gobstones.Proofs.Check.Brackets
import Gobstones.Proofs.Machine.Transition
/-!
# Functions leave no trace on the board

This module shows that a call of a function gives the board back to its caller as it
was.  While the call is in progress, rolling back the transactions of the activations
above the caller, innermost first, leads to the board of the call; the last of these
transactions is closed right before the function returns.

Main definitions:

- {lit}`Program.Transactional`: all modules behind a program keep to the brackets.
- {lit}`Board.rollBack`: a board after the rollback of the transactions of activations.
- {lit}`Machine.Inside`: the states of a machine during the call of a function.

Main results:

- Theorem {lit}`Machine.Inside.step`: a step stays inside the call or returns to the
  caller with its board.
- Theorem {lit}`Machine.board_of_return`: a call that returns has not changed the board.
-/

namespace Gobstones

/-- All modules behind a program have their transactions in the right places, and their
functions return values from the stack. -/
structure Program.Transactional (program : Program) : Prop where
  brackets : ∀ home, program.Reaches home → home.bracketProblems = []
  returns : ∀ home, program.Reaches home → ∀ routine ∈ home.routines, routine.kind = .function →
    ∀ n names, .returnVars n names ∉ routine.code

namespace Program.Transactional

variable {program home : Program} {routine : Routine}

theorem bracketed (h : program.Transactional) (howns : program.Owns home routine) :
    routine.Bracketed :=
  .of_mem (h.brackets home howns.reaches) howns.mem

/-- A function returns right behind the end of its transaction. -/
theorem inTransaction_of_return (h : program.Transactional) (howns : program.Owns home routine)
    {position : Nat} {instruction : Instruction}
    (hinstruction : routine.code[position]? = some instruction)
    (hreturn : (∃ n, instruction = .ret n) ∨ ∃ n names, instruction = .returnVars n names) :
    routine.inTransaction position = false := by
  rw [Bool.eq_false_iff, Ne, Routine.inTransaction_iff]
  rintro ⟨hkind, -, hret⟩
  rcases hreturn with ⟨n, rfl⟩ | ⟨n, names, rfl⟩
  · exact hret n hinstruction
  · refine h.returns home howns.reaches routine howns.mem hkind n names ?_
    exact Array.mem_of_getElem? hinstruction

end Program.Transactional

namespace Activation

/-- An activation has a transaction that it has to roll back. -/
def inTransaction (activation : Activation) : Bool :=
  activation.routine.inTransaction activation.ip

/-- An activation waits for a call to return. -/
def Suspended (activation : Activation) : Prop :=
  ∃ name argc, activation.instruction? = some (.call name argc)

/-- A function that waits for a call does so inside its transaction. -/
theorem Suspended.inTransaction {activation : Activation} (h : activation.Suspended)
    (hkind : activation.routine.kind = .function) : activation.inTransaction = true := by
  obtain ⟨name, argc, hcall⟩ := h
  exact Routine.inTransaction_of_call hkind hcall

/-- The return of a call leaves its caller in the same transaction. -/
theorem Suspended.inTransaction_advance {activation : Activation} (h : activation.Suspended)
    (hbracketed : activation.routine.Bracketed) :
    activation.advance.inTransaction = activation.inTransaction := by
  have hsuspended := h
  obtain ⟨name, argc, hcall⟩ := h
  rw [Bool.eq_iff_iff]
  refine (hbracketed.inTransaction_next hcall (.inl rfl)).trans ?_
  constructor
  · exact fun hkind => hsuspended.inTransaction hkind.1
  · exact fun hin => ⟨(Routine.inTransaction_iff.1 hin).1, by simp⟩

/-- An instruction that stays in an activation opens its transaction, closes it, or leaves it as
it is. -/
theorem inTransaction_stay {top here : Activation} (hbracketed : top.routine.Bracketed)
    {instruction : Instruction} (hinstruction : top.instruction? = some instruction)
    (hroutine : here.routine = top.routine)
    (hip : here.ip ∈ top.program.successors top.routine top.ip instruction) :
    (instruction = .enter → top.inTransaction = false ∧ here.inTransaction = true) ∧
      (instruction = .leave → top.inTransaction = true ∧ here.inTransaction = false) ∧
      (instruction ≠ .enter → instruction ≠ .leave →
        here.inTransaction = top.inTransaction ∧
          (top.routine.kind = .function → top.inTransaction = true)) := by
  simp only [inTransaction, hroutine]
  exact hbracketed.inTransaction_stay hinstruction hip

end Activation

/-! ## Rolling transactions back -/

namespace Board

/-- A board after the rollback of the transactions of activations, innermost first. -/
def rollBack (board : Board) : List Activation → Except BoardError Board
  | [] => .ok board
  | activation :: rest =>
    if activation.inTransaction then board.popState.bind (·.rollBack rest)
    else board.rollBack rest

theorem rollBack_inside {board : Board} {activation : Activation} {rest : List Activation}
    (h : activation.inTransaction = true) :
    board.rollBack (activation :: rest) = board.popState.bind (·.rollBack rest) := by
  rw [rollBack, if_pos h]

theorem rollBack_outside {board : Board} {activation : Activation} {rest : List Activation}
    (h : activation.inTransaction = false) :
    board.rollBack (activation :: rest) = board.rollBack rest := by
  rw [rollBack, if_neg (by simp [h])]

/-- Recorded requests inside a transaction do not change what the rollbacks lead to. -/
theorem rollBack_after {board : Board} (hboard : board.WellFormed) {request : Request}
    (hrequest : request.IsRecorded) {activations : List Activation}
    (h : ∃ activation ∈ activations, activation.inTransaction = true) :
    (board.after request).rollBack activations = board.rollBack activations := by
  induction activations with
  | nil => simp at h
  | cons activation rest ih =>
    by_cases hin : activation.inTransaction = true
    · rw [rollBack_inside hin, rollBack_inside hin, popState_after hboard hrequest]
    · have hout : activation.inTransaction = false := by simpa using hin
      rw [rollBack_outside hout, rollBack_outside hout]
      obtain ⟨other, hmem, hother⟩ := h
      rcases List.mem_cons.1 hmem with rfl | hmem
      · exact (hin hother).elim
      · exact ih ⟨other, hmem, hother⟩

end Board

/-! ## States inside a call -/

namespace Machine

/-- The states during a call that was made on the board {lit}`base`: the activations
{lit}`inner` above the callers belong to a function, and rolling their transactions back
leads to that board. -/
structure Inside (program : Program) (callers : List Activation) (base : Board)
    (inner : List Activation) (machine : Machine) : Prop where
  frames : machine.frames = inner ++ callers
  owns : ∀ activation ∈ inner, program.Owns activation.program activation.routine
  suspended : ∀ activation ∈ inner.tail, activation.Suspended
  function : ∃ activation, inner.getLast? = some activation ∧
    activation.routine.kind = .function
  sound : machine.board.Sound
  rollBack : machine.board.rollBack inner = .ok base

variable {program : Program} {callers below : List Activation} {base : Board} {top : Activation}
  {inner : List Activation} {machine next : Machine} {instruction : Instruction}

/-- A request of an activation that is no function lies in the transaction of one below it. -/
theorem Inside.exists_inTransaction (h : Inside program callers base (top :: below) machine)
    (htop : top.routine.kind = .function → top.inTransaction = true) :
    ∃ activation ∈ top :: below, activation.inTransaction = true := by
  obtain ⟨last, hlast, hkind⟩ := h.function
  rcases List.mem_cons.1 (List.mem_of_getLast? hlast) with rfl | hmem
  · exact ⟨last, by simp, htop hkind⟩
  · exact ⟨last, by simp [hmem], (h.suspended last hmem).inTransaction hkind⟩

/-- An instruction that stays in the innermost activation keeps what the rollbacks lead to. -/
theorem Inside.rollBack_stay (htrans : program.Transactional)
    (h : Inside program callers base (top :: below) machine)
    (hinstruction : top.instruction? = some instruction) {here : Activation}
    (hroutine : here.routine = top.routine)
    (hip : here.ip ∈ top.program.successors top.routine top.ip instruction)
    {board : Board} (hboard : Reboards machine.board instruction board) :
    board.rollBack (here :: below) = .ok base := by
  have hbracketed := htrans.bracketed (h.owns top (by simp))
  obtain ⟨henter, hleave, hother⟩ :=
    Activation.inTransaction_stay hbracketed hinstruction hroutine hip
  have hback := h.rollBack
  cases hboard with
  | enter =>
    rw [Board.rollBack_outside (henter rfl).1] at hback
    rw [Board.rollBack_inside (henter rfl).2]
    exact hback
  | leave hpop =>
    rw [Board.rollBack_inside (hleave rfl).1, hpop] at hback
    rw [Board.rollBack_outside (hleave rfl).2]
    exact hback
  | other hne hne' hrequest hnext =>
    obtain ⟨hsame, htop⟩ := hother hne hne'
    have hbelow : board.rollBack (here :: below) = board.rollBack (top :: below) := by
      rw [Board.rollBack, Board.rollBack, hsame]
    rw [hbelow, hnext,
      Board.rollBack_after h.sound.toWellFormed hrequest (h.exists_inTransaction htop)]
    exact hback

theorem Reboards.sound {board next : Board} (h : Reboards board instruction next)
    (hboard : board.Sound) : next.Sound := by
  cases h with
  | enter => exact hboard.pushState
  | leave hpop => exact hboard.popState hpop
  | other _ _ _ hnext => exact hnext ▸ hboard.after _

/-- The outermost activation of a call is one of the same routine after it has moved on. -/
theorem function_of_moved {was now : Activation} (hroutine : now.routine = was.routine)
    (h : ∃ last, (was :: below).getLast? = some last ∧ last.routine.kind = .function) :
    ∃ last, (now :: below).getLast? = some last ∧ last.routine.kind = .function := by
  obtain ⟨last, hlast, hkind⟩ := h
  cases below with
  | nil =>
    obtain rfl : was = last := by simpa using hlast
    exact ⟨now, rfl, hroutine ▸ hkind⟩
  | cons second below => exact ⟨last, by simpa using hlast, hkind⟩

/-- A call puts an activation outside of transactions on top of those inside. -/
theorem Inside.call (htrans : program.Transactional)
    (h : Inside program callers base (top :: below) machine) {name : String} {argc : Nat}
    (hinstruction : top.instruction? = some (.call name argc)) {home : Program}
    {routine : Routine} (hcallee : top.program.callee? name = some (home, routine))
    {locals : Locals} (hframes : next.frames = .new home routine locals :: machine.frames)
    (hboard : next.board = machine.board) :
    Inside program callers base (.new home routine locals :: top :: below) next := by
  have howns := (h.owns top List.mem_cons_self).callee hcallee
  have hout : (Activation.new home routine locals).inTransaction = false :=
    (htrans.bracketed howns).inTransaction_zero
  obtain ⟨last, hlast, hkind⟩ := h.function
  refine ⟨?_, List.forall_mem_cons.2 ⟨howns, h.owns⟩,
    List.forall_mem_cons.2 ⟨⟨name, argc, hinstruction⟩, h.suspended⟩,
    ⟨last, by simpa using hlast, hkind⟩, hboard ▸ h.sound, ?_⟩
  · rw [hframes, h.frames]
    rfl
  · rw [Board.rollBack_outside hout, hboard]
    exact h.rollBack

/-- A return from outside of transactions leads to the activation below, which is inside the call
or the caller, and then on the board of the call. -/
theorem Inside.ret (htrans : program.Transactional)
    (h : Inside program callers base (top :: below) machine) (hout : top.inTransaction = false)
    {caller : Activation} {rest : List Activation} (hcallers : below ++ callers = caller :: rest)
    (hframes : next.frames = caller.advance :: rest) (hboard : next.board = machine.board) :
    (∃ inner, Inside program callers base inner next) ∨
      callers = caller :: rest ∧ next.board = base := by
  have hback := h.rollBack
  rw [Board.rollBack_outside hout] at hback
  cases below with
  | nil => exact .inr ⟨hcallers, hboard.trans (Except.ok.inj hback)⟩
  | cons second below =>
    obtain ⟨rfl, rfl⟩ : second = caller ∧ below ++ callers = rest := by simpa using hcallers
    obtain ⟨-, hsecond, hbelow⟩ : _ ∧ _ ∧ _ := by simpa using h.owns
    obtain ⟨hsuspended, hothers⟩ := List.forall_mem_cons.1 h.suspended
    have hfunction : ∃ last, (second :: below).getLast? = some last ∧
        last.routine.kind = .function := by
      simpa using h.function
    have hroutine : second.advance.routine = second.routine := rfl
    refine .inl ⟨second.advance :: below, hframes, List.forall_mem_cons.2 ⟨hsecond, hbelow⟩,
      hothers, function_of_moved hroutine hfunction, hboard ▸ h.sound, ?_⟩
    rw [hboard, ← hback, Board.rollBack, Board.rollBack,
      hsuspended.inTransaction_advance (htrans.bracketed hsecond)]

/-- A step stays inside the call or returns to the caller with the board of the call. -/
theorem Inside.step (htrans : program.Transactional)
    (h : Inside program callers base inner machine) (hstep : machine.step = (next, .running)) :
    (∃ inner', Inside program callers base inner' next) ∨
      ∃ caller rest, callers = caller :: rest ∧ next.frames = caller.advance :: rest ∧
        next.board = base := by
  obtain ⟨top, others, instruction, hframes, hinstruction, hmoves⟩ := moves_of_step hstep
  cases inner with
  | nil =>
    obtain ⟨last, hlast, -⟩ := h.function
    simp at hlast
  | cons first below =>
    obtain ⟨rfl, rfl⟩ : first = top ∧ below ++ callers = others := by
      simpa [hframes, eq_comm] using h.frames
    obtain ⟨howns, hbelow⟩ := List.forall_mem_cons.1 h.owns
    cases hmoves with
    | @stay _ _ here hframes' hprogram hroutine hip _ _ _ hboard =>
      refine .inl ⟨here :: below, hframes', List.forall_mem_cons.2 ⟨?_, hbelow⟩, h.suspended,
        function_of_moved hroutine h.function, hboard.sound h.sound,
        h.rollBack_stay htrans hinstruction hroutine hip hboard⟩
      rw [hprogram, hroutine]
      exact howns
    | call hcallee _ hframes' _ _ hboard =>
      exact .inl ⟨_, h.call htrans hinstruction hcallee hframes' hboard⟩
    | @ret _ _ caller rest hcallers hframes' hreturn _ hboard =>
      have hout := htrans.inTransaction_of_return howns hinstruction hreturn
      rcases h.ret htrans hout hcallers hframes' hboard with hinside | ⟨hcallers, hbase⟩
      · exact .inl hinside
      · exact .inr ⟨caller, rest, hcallers, hframes', hbase⟩

/-- A run from inside the call to the first state that is as deep as the caller ends in the
caller, with the board of the call. -/
theorem Inside.run (htrans : program.Transactional)
    (h : Inside program callers base inner machine) {n : Nat}
    (hrun : machine.run n = (next, .running)) (hdepth : next.depth = callers.length)
    (hinside : ∀ k < n, ∀ middle, machine.run k = (middle, .running) →
      callers.length < middle.depth) :
    (∃ caller rest, callers = caller :: rest ∧ next.frames = caller.advance :: rest) ∧
      next.board = base := by
  have hdeep {inner : List Activation} {machine : Machine}
      (h : Inside program callers base inner machine) : callers.length < machine.depth := by
    obtain ⟨last, hlast, -⟩ := h.function
    have hpos := List.length_pos_of_mem (List.mem_of_getLast? hlast)
    rw [depth, h.frames, List.length_append]
    omega
  cases n with
  | zero =>
    obtain ⟨rfl, -⟩ := Prod.mk.inj hrun
    exact absurd hdepth (hdeep h).ne'
  | succ n =>
    obtain ⟨last, hlast, hreturn⟩ := exists_step_of_run hrun
    have hstep (before after : Machine)
        (hbefore : ∃ inner, Inside program callers base inner before)
        (hafter : before.step = (after, .running)) (habove : callers.length < after.depth) :
        ∃ inner, Inside program callers base inner after := by
      obtain ⟨inner, hbefore⟩ := hbefore
      rcases hbefore.step htrans hafter with hinside | ⟨caller, rest, rfl, hreturned, -⟩
      · exact hinside
      · simp [depth, hreturned] at habove
    obtain ⟨inner', h'⟩ :=
      invariant_of_inside hstep ⟨inner, h⟩ hinside (Nat.lt_succ_self n) hlast
    rcases h'.step htrans hreturn with ⟨above, habove⟩ | ⟨caller, rest, hcallers, hframes, hboard⟩
    · exact absurd hdepth (hdeep habove).ne'
    · exact ⟨⟨caller, rest, hcallers, hframes⟩, hboard⟩

/-! ## Calls in a running program -/

/-- The activations of a machine belong to routines behind a program, and its board is
sound. -/
structure Owned (program : Program) (machine : Machine) : Prop where
  owns : ∀ activation ∈ machine.frames, program.Owns activation.program activation.routine
  sound : machine.board.Sound

theorem Owned.step (h : Owned program machine) (hstep : machine.step = (next, .running)) :
    Owned program next := by
  obtain ⟨top, others, instruction, hframes, -, hmoves⟩ := moves_of_step hstep
  have howns := h.owns
  simp only [hframes, List.mem_cons, forall_eq_or_imp] at howns
  cases hmoves with
  | stay hframes' hprogram hroutine _ _ _ _ hboard =>
    refine ⟨?_, hboard.sound h.sound⟩
    simp only [hframes', List.mem_cons, forall_eq_or_imp]
    exact ⟨by rw [hprogram, hroutine]; exact howns.1, howns.2⟩
  | call hcallee _ hframes' _ _ hboard =>
    refine ⟨?_, hboard ▸ h.sound⟩
    simp only [hframes', hframes, List.mem_cons, forall_eq_or_imp]
    exact ⟨howns.1.callee hcallee, howns⟩
  | ret hcallers hframes' _ _ hboard =>
    refine ⟨?_, hboard ▸ h.sound⟩
    simp only [hcallers, List.mem_cons, forall_eq_or_imp] at howns
    simp only [hframes', List.mem_cons, forall_eq_or_imp]
    exact howns.2

/-- The running states of a program belong to it. -/
theorem owned_of_execute {start : Machine} (hidle : start.frames = [])
    (hboard : start.board.Reachable) {fuel : Nat}
    (h : start.execute fuel = (machine, .running)) : Owned start.program machine := by
  simp only [execute] at h
  split at h
  · simp at h
  · next called hcalled =>
    obtain ⟨entry, hentry, rfl⟩ := Option.map_eq_some_iff.1 hcalled
    refine invariant_of_run (fun _ _ => Owned.step) ?_ h
    exact ⟨by simpa [hidle, Activation.new] using Program.owns_entrypoint hentry, hboard.sound⟩

/-- A call of a function that returns has not changed the board, its logs included, whatever
the function has called.  The run {lit}`machine.run (n + 1)` makes the call and goes on to the
first state in which the caller is the innermost activation again. -/
theorem board_of_return {start : Machine} (htrans : start.program.Transactional)
    (hidle : start.frames = []) (hstart : start.board.Reachable) {fuel : Nat}
    (hmachine : start.execute fuel = (machine, .running))
    (hframes : machine.frames = top :: callers) {name : String} {argc : Nat}
    (hcall : top.instruction? = some (.call name argc)) {home : Program} {routine : Routine}
    (hcallee : top.program.callee? name = some (home, routine))
    (hkind : routine.kind = .function) {n : Nat}
    (hrun : machine.run (n + 1) = (next, .running)) (hdepth : next.depth = machine.depth)
    (hinside : ∀ k, 0 < k → k ≤ n → ∀ middle, machine.run k = (middle, .running) →
      machine.depth < middle.depth) :
    next.frames = top.advance :: callers ∧ next.board = machine.board := by
  have howned := owned_of_execute hidle hstart hmachine
  have howns := (howned.owns top (by simp [hframes])).callee hcallee
  simp only [run] at hrun
  split at hrun
  · next called hstep =>
    obtain ⟨first, others, instruction, hfirst, hinstruction, hmoves⟩ := moves_of_step hstep
    obtain ⟨rfl, rfl⟩ : top = first ∧ callers = others := by simpa [hframes] using hfirst
    obtain rfl : .call name argc = instruction := by simpa [hcall] using hinstruction
    cases hmoves with
    | stay _ _ _ _ hnone _ _ _ => simp [hnone name argc rfl] at hcallee
    | @call _ _ _ home' routine' locals hcallee' _ hframes' _ _ hboard =>
      obtain ⟨rfl, rfl⟩ : home' = home ∧ routine' = routine := by simpa [hcallee] using hcallee'.symm
      have hcalled : Inside start.program machine.frames machine.board
          [.new home' routine' locals] called := by
        refine ⟨hframes', by simpa [Activation.new] using howns, by simp, ⟨_, rfl, hkind⟩,
          hboard ▸ howned.sound, ?_⟩
        have hout : (Activation.new home' routine' locals).inTransaction = false :=
          (htrans.bracketed howns).inTransaction_zero
        rw [Board.rollBack_outside hout, hboard]
        rfl
      have hlater (k : Nat) (hk : k < n) (middle : Machine)
          (hmiddle : called.run k = (middle, .running)) :
          machine.frames.length < middle.depth :=
        hinside (k + 1) (by omega) (by omega) middle (by simp [run, hstep, hmiddle])
      obtain ⟨⟨caller, rest, hcallers, hnext⟩, hbase⟩ :=
        hcalled.run htrans hrun hdepth hlater
      obtain ⟨rfl, rfl⟩ : top = caller ∧ callers = rest := by simpa [hframes] using hcallers
      exact ⟨hnext, hbase⟩
    | ret _ _ hreturn _ _ => simp at hreturn
  · next hended => exact (hended next hrun).elim

end Machine

/-! ## A function that probes the board -/

namespace Probe

/-- Put a stone, count the stones of its color and return their number. -/
def probe : Routine where
  kind := .function
  name := "probe"
  params := []
  code := #[.enter, .pushConst (.color .red), .call "PutStone" 1, .pushConst (.color .red),
    .call "numStones" 1, .leave, .ret 1]
  targets := Array.replicate 7 none
  resolved := rfl

/-- Call the function and return what it counts. -/
def main : Routine where
  kind := .entrypoint
  name := "program"
  params := []
  code := #[.call "probe" 0, .popTo "n", .returnVars 1 ["n@Int"]]
  targets := Array.replicate 3 none
  resolved := rfl

/-- The program of both routines. -/
def program : Program where
  moduleName := "main"
  routines := [main, probe]
  builtins := BuiltinTable.standard
  links := []
  distinct := by decide

theorem transactional : program.Transactional where
  brackets home hhome := by
    rw [hhome.eq_of_links rfl]
    decide
  returns home hhome := by
    rw [hhome.eq_of_links rfl]
    simp [program, main, probe]

/-- A board of one empty cell. -/
def board : Board :=
  { width := 1, height := 1, headX := 0, headY := 0, cells := #[Cell.empty], log := [],
    archived := [] }

theorem reachable_board : board.Reachable :=
  ⟨board, [], .new (rfl : Board.new 1 1 = .ok board), rfl⟩

/-- A run about to make its first step. -/
def start : Machine :=
  { Machine.new program board none with frames := [.new program main .empty] }

end Probe

namespace Machine

/-- The stone that the function puts is on the board during the call and gone after it. -/
theorem board_of_return_probe :
    (Probe.start.run 5).1.board.numStones .red = 1 ∧
      (Probe.start.run 8).1.frames = [(Activation.new Probe.program Probe.main .empty).advance] ∧
      (Probe.start.run 8).1.board = Probe.start.board := by
  refine ⟨by decide, ?_⟩
  have hmachine : (Machine.new Probe.program Probe.board none).execute 0 =
      (Probe.start, .running) := rfl
  have hrun : Probe.start.run 8 = ((Probe.start.run 8).1, .running) :=
    Prod.ext rfl (by decide)
  have hinside : ∀ k, 0 < k → k ≤ 7 → ∀ middle, Probe.start.run k = (middle, .running) →
      Probe.start.depth < middle.depth := by
    have hdeep : ∀ k ≤ 7, 0 < k → Probe.start.depth < (Probe.start.run k).1.depth := by decide
    intro k hpos hle middle hmiddle
    have := hdeep k hle hpos
    rwa [hmiddle] at this
  exact board_of_return Probe.transactional rfl Probe.reachable_board hmachine rfl rfl
    (rfl : Probe.program.callee? "probe" = some (Probe.program, Probe.probe)) rfl hrun
    (by decide) hinside

end Machine
end Gobstones
