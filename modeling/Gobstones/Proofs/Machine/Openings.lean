import Gobstones.Proofs.Machine.Isolation
/-!
# Open transactions

This module counts the transactions of a run.  An activation opens one when it executes the
opening instruction and closes it when it executes the closing one; the board has one archived
log for each transaction that is open.  A function that returns variables leaves its transaction
open, and the board keeps the log for good, so a run also counts what is left in that way.

Main definitions:

- {lit}`Machine.Openings`: the activations with an open transaction, and how many were left.
- {lit}`Machine.openings`: what a run notes about them.
- {lit}`Machine.openFunctions`: the functions in progress with an open transaction.

Main results:

- Theorem {lit}`Machine.Accounts.step`: a step keeps the archived logs accounted for.
- Theorem {lit}`Machine.stateDepth_of_accepted`: the depth of the board is that of the start, with
  the open functions and the transactions that were left.
- Theorem {lit}`Machine.stateDepth_of_leak`: an accepted run that leaves a transaction open.
-/

namespace Gobstones
namespace Machine

/-! ## What a run notes -/

/-- What a run notes about transactions: for each activation, innermost first, whether it has
opened one and not closed it, and how many activations have returned without closing theirs. -/
structure Openings where
  opened : List Bool
  abandoned : Nat

/-- The instruction that a machine is about to execute. -/
def current? (machine : Machine) : Option Instruction :=
  machine.frames.head?.bind Activation.instruction?

/-- What is noted after a step: a call begins without a transaction, a return forgets the
activation that is left, and the two ends of a transaction change the innermost activation. -/
def nextOpenings (machine next : Machine) (noted : Openings) : Openings :=
  if machine.depth < next.depth then { noted with opened := false :: noted.opened }
  else if next.depth < machine.depth then
    { opened := noted.opened.tail
      abandoned := noted.abandoned + (noted.opened.take 1).count true }
  else
    match machine.current? with
    | some .enter => { noted with opened := true :: noted.opened.tail }
    | some .leave => { noted with opened := false :: noted.opened.tail }
    | _ => noted

/-- What is noted after at most {lit}`fuel` steps from a machine with the given notes.  A step that
fails has done nothing. -/
def openings (machine : Machine) (noted : Openings) : Nat → Openings
  | 0 => noted
  | fuel + 1 =>
    match machine.step with
    | (next, .running) => next.openings (machine.nextOpenings next noted) fuel
    | (next, .finished _) => machine.nextOpenings next noted
    | (_, .failed _) => noted

/-- The notes of a run about to make its first step. -/
def Openings.start : Openings :=
  { opened := [false], abandoned := 0 }

/-- The number of activations of functions that have opened a transaction and not closed it. -/
def openFunctions (machine : Machine) (opened : List Bool) : Nat :=
  (machine.frames.zip opened).countP fun noted => noted.1.routine.kind = .function && noted.2

/-! ## Archived logs -/

/-- The board has archived the given logs and, above them, one for each transaction that is open
or was left; the activations with an open transaction are those at a position inside it. -/
structure Accounts (program : Program) (archived : List ChangeLog) (noted : Openings)
    (machine : Machine) : Prop where
  owns : ∀ activation ∈ machine.frames, program.Owns activation.program activation.routine
  suspended : ∀ activation ∈ machine.frames.tail, activation.Suspended
  opened : noted.opened = machine.frames.map Activation.inTransaction
  archived : ∃ logs, machine.board.archived = logs ++ archived ∧
    logs.length = noted.opened.count true + noted.abandoned

variable {program : Program} {archived : List ChangeLog} {noted : Openings} {machine next : Machine}
  {top : Activation} {callers : List Activation} {instruction : Instruction}

/-- The transactions of owned routines lie in the right places. -/
theorem bracketed_of_owns (hbrackets : ∀ home, program.Reaches home → home.bracketProblems = [])
    {home : Program} {routine : Routine} (h : program.Owns home routine) : routine.Bracketed :=
  .of_mem (hbrackets home h.reaches) h.mem

/-- A run begins with nothing but the logs of its board. -/
theorem accounts_of_called (hbrackets : ∀ home, program.Reaches home → home.bracketProblems = [])
    {board : Board} {limit : Option Nat}
    (h : (Machine.new program board limit).callEntrypoint = some machine) :
    Accounts program board.archived .start machine := by
  obtain ⟨entry, hentry, rfl⟩ := Option.map_eq_some_iff.1 h
  have howns : program.Owns program entry := Program.owns_entrypoint hentry
  have hout : (Activation.new program entry .empty).inTransaction = false :=
    (bracketed_of_owns hbrackets howns).inTransaction_zero
  refine ⟨fun activation hmem => ?_, by simp [Machine.new], ?_, [], rfl, rfl⟩
  · obtain rfl := List.mem_singleton.1 hmem
    exact howns
  · change [false] = [(Activation.new program entry .empty).inTransaction]
    rw [hout]

/-- An instruction that stays in its activation notes what it does to the transaction. -/
theorem nextOpenings_of_stay {here : Activation} (hframes : machine.frames = top :: callers)
    (hnext : next.frames = here :: callers) (hinstruction : top.instruction? = some instruction) :
    machine.nextOpenings next noted =
      if instruction = .enter then { noted with opened := true :: noted.opened.tail }
      else if instruction = .leave then { noted with opened := false :: noted.opened.tail }
      else noted := by
  have hcurrent : machine.current? = some instruction := by
    rw [current?, hframes]
    exact hinstruction
  simp only [nextOpenings, depth, hframes, hnext, List.length_cons, lt_self_iff_false, if_false,
    hcurrent]
  cases instruction <;> rfl

/-- A return forgets the innermost activation. -/
theorem nextOpenings_of_return (h : next.depth < machine.depth) :
    machine.nextOpenings next noted =
      { opened := noted.opened.tail
        abandoned := noted.abandoned + (noted.opened.take 1).count true } := by
  rw [nextOpenings, if_neg (by omega), if_pos h]

/-- What a return takes from the open transactions it adds to those that were left. -/
theorem count_tail (opened : List Bool) :
    opened.tail.count true + (opened.take 1).count true = opened.count true := by
  cases opened with
  | nil => rfl
  | cons first rest => cases first <;> simp

/-- An instruction that stays in its activation keeps the archived logs accounted for. -/
theorem Accounts.stay (hbrackets : ∀ home, program.Reaches home → home.bracketProblems = [])
    (h : Accounts program archived noted machine) (hframes : machine.frames = top :: callers)
    (hinstruction : top.instruction? = some instruction) {here : Activation}
    (hnext : next.frames = here :: callers) (hprogram : here.program = top.program)
    (hroutine : here.routine = top.routine)
    (hip : here.ip ∈ top.program.successors top.routine top.ip instruction)
    (hboard : Reboards machine.board instruction next.board) :
    Accounts program archived (machine.nextOpenings next noted) next := by
  have howns := h.owns
  have hsuspended := h.suspended
  obtain ⟨logs, hlogs, hlength⟩ := h.archived
  simp only [hframes, List.mem_cons, forall_eq_or_imp, List.tail_cons] at howns hsuspended
  have hopened := h.opened
  rw [hframes, List.map_cons] at hopened
  obtain ⟨henter, hleave, hother⟩ := Activation.inTransaction_stay
    (bracketed_of_owns hbrackets howns.1) hinstruction hroutine hip
  rw [nextOpenings_of_stay hframes hnext hinstruction]
  have hframes' : (∀ activation ∈ next.frames,
        program.Owns activation.program activation.routine) ∧
      ∀ activation ∈ next.frames.tail, activation.Suspended := by
    simp only [hnext, List.mem_cons, forall_eq_or_imp, List.tail_cons, hprogram, hroutine]
    exact ⟨howns, hsuspended⟩
  generalize hafter : next.board = board at hboard
  cases hboard with
  | enter =>
    refine ⟨hframes'.1, hframes'.2, by simp [hopened, hnext, (henter rfl).2], ?_⟩
    refine ⟨machine.board.log :: logs, by simp [hafter, Board.pushState, hlogs], ?_⟩
    rw [hopened, (henter rfl).1] at hlength
    simp [hopened, hlength]
    omega
  | leave hpop =>
    refine ⟨hframes'.1, hframes'.2, by simp [hopened, hnext, (hleave rfl).2], ?_⟩
    obtain ⟨log, hlog⟩ := Board.exists_archived_of_popState hpop
    rw [hopened, (hleave rfl).1] at hlength
    cases logs with
    | nil =>
      simp at hlength
      omega
    | cons first logs =>
      obtain ⟨-, hrest⟩ := List.cons.inj (hlog.symm.trans hlogs)
      refine ⟨logs, hafter ▸ hrest, ?_⟩
      simp [hopened] at hlength ⊢
      omega
  | other hne hne' hrequest hchange =>
    rw [if_neg hne, if_neg hne']
    refine ⟨hframes'.1, hframes'.2, by rw [hopened, hnext, List.map_cons, (hother hne hne').1],
      logs, ?_, hlength⟩
    rw [hafter, hchange, Board.archived_after hrequest, hlogs]

/-- A step keeps the archived logs accounted for. -/
theorem Accounts.step (hbrackets : ∀ home, program.Reaches home → home.bracketProblems = [])
    (h : Accounts program archived noted machine) (hstep : machine.step = (next, .running)) :
    Accounts program archived (machine.nextOpenings next noted) next := by
  obtain ⟨top, callers, instruction, hframes, hinstruction, hmoves⟩ := moves_of_step hstep
  have howns := h.owns
  have hsuspended := h.suspended
  have hopened := h.opened
  obtain ⟨logs, hlogs, hlength⟩ := h.archived
  simp only [hframes, List.mem_cons, forall_eq_or_imp, List.tail_cons] at howns hsuspended
  cases hmoves with
  | stay hnext hprogram hroutine hip _ _ _ hboard =>
    exact h.stay hbrackets hframes hinstruction hnext hprogram hroutine hip hboard
  | @call name argc _ home routine locals hcallee _ hnext _ _ hboard =>
    have hcallee := howns.1.callee hcallee
    have hout : (Activation.new home routine locals).inTransaction = false :=
      (bracketed_of_owns hbrackets hcallee).inTransaction_zero
    rw [nextOpenings, if_pos (by simp [depth, hnext])]
    refine ⟨?_, ?_, by rw [hnext, List.map_cons, hout, hopened], logs, by rw [hboard, hlogs], ?_⟩
    · simp only [hnext, hframes, List.mem_cons, forall_eq_or_imp]
      exact ⟨hcallee, howns⟩
    · simp only [hnext, hframes, List.tail_cons, List.mem_cons, forall_eq_or_imp]
      exact ⟨⟨name, argc, hinstruction⟩, hsuspended⟩
    · simpa using hlength
  | @ret _ _ caller rest hcallers hnext _ _ hboard =>
    simp only [hcallers, List.mem_cons, forall_eq_or_imp] at howns hsuspended
    rw [nextOpenings_of_return (by simp [depth, hnext, hframes, hcallers])]
    have hadvance := hsuspended.1.inTransaction_advance (bracketed_of_owns hbrackets howns.2.1)
    refine ⟨?_, ?_, by rw [hopened, hframes, hcallers, hnext, List.map_cons, List.map_cons,
      List.map_cons, hadvance, List.tail_cons], logs, by rw [hboard, hlogs], ?_⟩
    · simp only [hnext, List.mem_cons, forall_eq_or_imp]
      exact howns.2
    · simpa [hnext] using hsuspended.2
    · simp only
      have := count_tail noted.opened
      omega

/-- The end of a run leaves the archived logs accounted for. -/
theorem Accounts.finish {bindings : Bindings} (h : Accounts program archived noted machine)
    (hstep : machine.step = (next, .finished bindings)) :
    Accounts program archived (machine.nextOpenings next noted) next := by
  obtain ⟨top, instruction, hframes, -, -, hnext, hboard⟩ := returns_of_finished hstep
  obtain ⟨logs, hlogs, hlength⟩ := h.archived
  rw [nextOpenings_of_return (by simp [depth, hnext, hframes])]
  refine ⟨by simp [hnext], by simp [hnext], by simp [h.opened, hnext, hframes], logs,
    by rw [hboard, hlogs], ?_⟩
  have := count_tail noted.opened
  simp only
  omega

/-- A failure leaves the archived logs accounted for. -/
theorem Accounts.unchanged (h : Accounts program archived noted machine)
    (hnext : Unchanged machine next) : Accounts program archived noted next := by
  obtain ⟨hframes, hboard⟩ := hnext
  exact ⟨hframes ▸ h.owns, hframes ▸ h.suspended, hframes ▸ h.opened, hboard ▸ h.archived⟩

/-- A run keeps the archived logs accounted for, however it ends. -/
theorem Accounts.run (hbrackets : ∀ home, program.Reaches home → home.bracketProblems = [])
    (h : Accounts program archived noted machine) {fuel : Nat} {outcome : Outcome}
    (hrun : machine.run fuel = (next, outcome)) :
    Accounts program archived (machine.openings noted fuel) next := by
  induction fuel generalizing machine noted with
  | zero =>
    obtain ⟨rfl, -⟩ := Prod.mk.inj hrun
    exact h
  | succ fuel ih =>
    rw [Machine.run] at hrun
    rw [openings]
    rcases hstep : machine.step with ⟨after, _ | bindings | fault⟩ <;> rw [hstep] at hrun
    · exact ih (h.step hbrackets hstep) hrun
    · obtain ⟨rfl, -⟩ := Prod.mk.inj hrun
      exact h.finish hstep
    · obtain ⟨rfl, -⟩ := Prod.mk.inj hrun
      exact h.unchanged (unchanged_of_failed hstep)

/-- Only functions have transactions, so the open ones are those of functions. -/
theorem Accounts.openFunctions_eq (h : Accounts program archived noted machine) :
    machine.openFunctions noted.opened = noted.opened.count true := by
  rw [openFunctions, h.opened]
  induction machine.frames with
  | nil => rfl
  | cons activation rest ih =>
    rw [List.map_cons, List.zip_cons_cons, List.countP_cons, List.count_cons, ih]
    congr 1
    cases hin : activation.inTransaction with
    | false => simp
    | true =>
      have hkind : activation.routine.kind = .function := (Routine.inTransaction_iff.1 hin).1
      simp [hkind]

/-! ## Transactions that are left -/

/-- A return that is not inside a transaction leaves none open. -/
theorem Accounts.abandoned_of_return (h : Accounts program archived noted machine)
    (hframes : machine.frames = top :: callers) (hnext : next.depth < machine.depth)
    (hout : top.inTransaction = false) :
    (machine.nextOpenings next noted).abandoned = noted.abandoned := by
  rw [nextOpenings_of_return hnext, h.opened, hframes]
  simp [hout]

/-- Where functions return from the stack, no step leaves a transaction open. -/
theorem Accounts.abandoned_of_step (htrans : program.Transactional)
    (h : Accounts program archived noted machine) {outcome : Outcome}
    (hstep : machine.step = (next, outcome)) (hgoes : ∀ fault, outcome ≠ .failed fault) :
    (machine.nextOpenings next noted).abandoned = noted.abandoned := by
  cases outcome with
  | failed fault => exact (hgoes fault rfl).elim
  | finished bindings =>
    obtain ⟨top, instruction, hframes, hinstruction, hreturn, hnext, -⟩ := returns_of_finished hstep
    exact h.abandoned_of_return hframes (by simp [depth, hnext, hframes])
      (htrans.inTransaction_of_return (h.owns top (by simp [hframes])) hinstruction hreturn)
  | running =>
    obtain ⟨top, callers, instruction, hframes, hinstruction, hmoves⟩ := moves_of_step hstep
    cases hmoves with
    | stay hnext =>
      rw [nextOpenings_of_stay hframes hnext hinstruction]
      split
      · rfl
      · split <;> rfl
    | call _ _ hnext => rw [nextOpenings, if_pos (by simp [depth, hnext])]
    | ret hcallers hnext hreturn =>
      exact h.abandoned_of_return hframes (by simp [depth, hnext, hframes, hcallers])
        (htrans.inTransaction_of_return (h.owns top (by simp [hframes])) hinstruction hreturn)

/-- Where functions return from the stack, a run leaves no transaction open. -/
theorem Accounts.abandoned_of_run (htrans : program.Transactional)
    (h : Accounts program archived noted machine) (fuel : Nat) :
    (machine.openings noted fuel).abandoned = noted.abandoned := by
  induction fuel generalizing machine noted with
  | zero => rfl
  | succ fuel ih =>
    rw [openings]
    rcases hstep : machine.step with ⟨next, _ | bindings | fault⟩
    · rw [← h.abandoned_of_step htrans hstep (by simp)]
      exact ih (h.step htrans.brackets hstep)
    · exact h.abandoned_of_step htrans hstep (by simp)
    · rfl

/-! ## Accepted programs -/

/-- In every state of a run of an accepted program the depth of the board is that of the start
with one more for each function that has opened its transaction and not closed it, and for each
function that returned without closing it.  A run that ends leaves the archived logs below those
as it found them.  Functions that only return from the stack never leave a transaction open. -/
theorem stateDepth_of_accepted (haccepted : program.Accepted) (hlinks : program.links = [])
    {board : Board} {limit : Option Nat} {called : Machine}
    (hcalled : (Machine.new program board limit).callEntrypoint = some called) {fuel : Nat}
    {outcome : Outcome} (hrun : called.run fuel = (machine, outcome)) :
    (machine.board.stateDepth = board.stateDepth +
        machine.openFunctions (called.openings .start fuel).opened +
        (called.openings .start fuel).abandoned) ∧
      (∀ bindings, outcome = .finished bindings →
        machine.board.archived.drop (called.openings .start fuel).abandoned = board.archived) ∧
      ((∀ routine ∈ program.routines, routine.kind = .function →
          ∀ n names, .returnVars n names ∉ routine.code) →
        (called.openings .start fuel).abandoned = 0) := by
  have hbrackets (home : Program) (hhome : program.Reaches home) : home.bracketProblems = [] := by
    obtain ⟨hothers, -⟩ := List.append_eq_nil_iff.1 haccepted
    rw [hhome.eq_of_links hlinks]
    exact (List.append_eq_nil_iff.1 hothers).2
  have hstart := accounts_of_called hbrackets hcalled
  have haccounts := hstart.run hbrackets hrun
  obtain ⟨logs, hlogs, hlength⟩ := haccounts.archived
  refine ⟨?_, fun bindings hfinished => ?_, fun hreturns => ?_⟩
  · rw [haccounts.openFunctions_eq, Board.stateDepth, Board.stateDepth, hlogs, List.length_append]
    omega
  · subst hfinished
    obtain ⟨k, last, -, hlast⟩ := exists_last_step (by simp) hrun
    obtain ⟨-, -, -, -, -, hended, -⟩ := returns_of_finished hlast
    have hopened := haccounts.opened
    rw [hended] at hopened
    rw [hopened] at hlength
    rw [hlogs]
    exact List.drop_left' (by simpa using hlength)
  · have hverified := Program.Verified.of_accepted haccepted hlinks hreturns
    exact hstart.abandoned_of_run hverified.toTransactional fuel

/-- The function has opened its transaction after two steps, and when it has returned the board is
as deep as at the start. -/
theorem stateDepth_of_accepted_probe :
    (Probe.start.run 2).1.board.stateDepth = 0 + 1 + 0 ∧
      (Probe.start.run 8).1.board.stateDepth = 0 + 0 + 0 ∧
      (Probe.start.run 10).2 = .finished [("n", .int 1)] ∧
      (Probe.start.run 10).1.board.archived.drop 0 = [] := by
  have haccepted : Probe.program.Accepted := by decide +kernel
  have hcalled : (Machine.new Probe.program Probe.board none).callEntrypoint =
      some Probe.start := rfl
  have hrun (fuel : Nat) : Probe.start.run fuel =
      ((Probe.start.run fuel).1, (Probe.start.run fuel).2) := rfl
  refine ⟨(stateDepth_of_accepted haccepted rfl hcalled (hrun 2)).1,
    (stateDepth_of_accepted haccepted rfl hcalled (hrun 8)).1, rfl,
    (stateDepth_of_accepted haccepted rfl hcalled (hrun 10)).2.1 _ rfl⟩

end Machine

/-! ## A transaction that is left open -/

namespace Leak

/-- Open a transaction and return variables from inside it. -/
def main : Routine where
  kind := .function
  name := "program"
  params := []
  code := #[.enter, .returnVars 0 []]
  targets := Array.replicate 2 none
  resolved := rfl

/-- The program of that function, which is its entrypoint. -/
def program : Program where
  moduleName := "main"
  routines := [main]
  builtins := BuiltinTable.standard
  links := []
  distinct := by decide

/-- A run about to make its first step. -/
def start : Machine :=
  { Machine.new program Probe.board none with frames := [.new program main .empty] }

end Leak

namespace Machine

/-- The program is accepted, and its run ends without a call in progress, but on a board that is
deeper than at the start. -/
theorem stateDepth_of_leak :
    Leak.program.Accepted ∧ Leak.program.links = [] ∧
      (Machine.new Leak.program Probe.board none).callEntrypoint = some Leak.start ∧
      (Leak.start.run 2).2 = .finished [] ∧ (Leak.start.run 2).1.frames = [] ∧
      Probe.board.stateDepth = 0 ∧ (Leak.start.run 2).1.board.stateDepth = 1 :=
  ⟨by decide +kernel, rfl, rfl, rfl, rfl, rfl, rfl⟩

end Machine
end Gobstones
