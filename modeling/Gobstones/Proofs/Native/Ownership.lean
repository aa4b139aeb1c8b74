import Gobstones.Proofs.Native.Safety
/-!
# Variables of native activations

This module says that native code accesses the variables of an activation in the words of
that activation: in the local variables that its own code has pushed, or in the arguments
that its caller has pushed for it.  A variable that was never assigned is therefore found
to hold the sentinel, and reading it is reported.

The host passes no arguments, so the entrypoint must not have parameters: their words would
be the registers that the entry stub has saved.

Main definitions:

- {lit}`NativeCode.readAt?`: what is read as a variable at some step of a run.

Main results:

- Theorem {lit}`keepsVariables_of_traces`: variables are accessed in their own words.
- Theorem {lit}`reads_of_unpassed`: the parameter of an entrypoint is read from a register of the
  host.
-/

namespace Gobstones
namespace Native

variable {program : Program} {entry : Routine} {board : Board} {code : NativeCode}

/-- What is read as a variable at some step of a run: its address and the word there. -/
def NativeCode.readAt? (code : NativeCode) (host : Host) (board : Board) (steps : Nat) :
    Option (Word × Word) :=
  (code.stateAfter? host board steps).bind fun p =>
    match code.instrs[p.position]? with
    | some (.load _ ⟨.rbp, disp⟩) => do
      let address ← p.address? ⟨.rbp, disp⟩
      return (address, ← p.read64 address)
    | _ => none

/-- Native code accesses the variables of every activation in the words of that activation, and
it reports the reading of a variable that was never assigned, on every board and for every host. -/
theorem keepsVariables_of_traces (hcompile : compile program = .ok code)
    (hentry : program.entrypoint? = some entry) (hparams : entry.params = [])
    (hnames : program.NamesModules) (hbuiltins : program.ShapesBuiltins) :
    ∃ routines stubs first last, Regions code program entry routines stubs first last ∧
      ∀ board : Board, board.WellFormed → board.nativeLength < 2 ^ 63 →
        ∀ host s, code.Traces host board s → first ≤ s.cpu.position → s.cpu.position < last →
          code.KeepsVariables program entry routines board s := by
  obtain ⟨routines, stubs, first, last, hregions, hfit⟩ :=
    exists_fit hcompile hentry hparams hnames hbuiltins
  refine ⟨routines, stubs, first, last, hregions,
    fun board hboard hfits host s hreaches hstart hlast => ?_⟩
  have hguarded := Stage.guarded_of_traces (hfit board hboard hfits host) hreaches
  exact (hguarded.running hstart hlast).2

end Native

/-! ## Arguments that nobody has passed -/

namespace Unpassed

/-- Take over an argument. -/
def keep : Routine where
  kind := .procedure
  name := "keep"
  params := ["x"]
  code := #[.pushFrom "x", .popTo "y", .ret 0]
  targets := Array.replicate 3 none
  resolved := rfl

/-- Pass an argument behind the call of a builtin. -/
def main : Routine where
  kind := .entrypoint
  name := "program"
  params := []
  code := #[.pushConst (.int 2), .pushConst (.color .red), .call "PutStone" 1, .call "keep" 1,
    .returnVars 0 []]
  targets := Array.replicate 5 none
  resolved := rfl

/-- The program of both. -/
def program : Program where
  moduleName := "main"
  routines := [main, keep]
  builtins := BuiltinTable.standard
  links := []
  distinct := by decide

theorem shapesBuiltins : program.ShapesBuiltins :=
  .of_standard fun home hhome => by
    rw [hhome.eq_of_links rfl]
    rfl

/-- An entrypoint with a parameter, which it takes over. -/
def needy : Routine where
  kind := .entrypoint
  name := "program"
  params := ["x"]
  code := #[.pushFrom "x", .popTo "y", .returnVars 0 []]
  targets := Array.replicate 3 none
  resolved := rfl

/-- The program of the entrypoint with a parameter. -/
def needyProgram : Program where
  moduleName := "main"
  routines := [needy]
  builtins := BuiltinTable.standard
  links := []
  distinct := by simp

/-- Pass an argument behind the call of a builtin that takes none, but goes by the name of one that
takes one. -/
def wasteful : Routine where
  kind := .entrypoint
  name := "program"
  params := []
  code := #[.pushConst (.int 2), .call "PutStone" 0, .call "keep" 1, .returnVars 0 []]
  targets := Array.replicate 4 none
  resolved := rfl

/-- The program of the entrypoint that passes an argument in vain. -/
def wastefulProgram : Program where
  moduleName := "main"
  routines := [wasteful, keep]
  builtins := BuiltinTable.empty.insert (Builtin.goToOrigin.withName "PutStone")
  links := []
  distinct := by decide

end Unpassed

namespace Native

theorem keepsVariables_of_traces_unpassed :
    ∃ code, compile Unpassed.program = .ok code ∧
      ∃ routines stubs first last,
        Regions code Unpassed.program Unpassed.main routines stubs first last ∧
          ∀ host s, code.Traces host Probe.board s → first ≤ s.cpu.position →
            s.cpu.position < last →
              code.KeepsVariables Unpassed.program Unpassed.main routines Probe.board s := by
  obtain ⟨code, hcompile⟩ := exists_compile
    (by decide +kernel : (compile Unpassed.program).toOption.isSome)
  obtain ⟨routines, stubs, first, last, hregions, hkeeps⟩ :=
    keepsVariables_of_traces hcompile rfl rfl (.of_links rfl) Unpassed.shapesBuiltins
  exact ⟨code, hcompile, routines, stubs, first, last, hregions,
    hkeeps Probe.board Probe.reachable_board.sound.toWellFormed (by decide)⟩

/-- Two words that are no variables.  The parameter of an entrypoint is read where the entry stub
has saved a register of the host, and reading it is no failure, as it is for the stack machine.
And if a builtin goes by the name of a standard one that takes more arguments, a parameter is read
where the frame pointer of the caller has been saved. -/
theorem reads_of_unpassed :
    (∃ code, compile Unpassed.needyProgram = .ok code ∧
      (∃ steps w, code.readAt? .idle Probe.board steps = some (.stack (-56), w)) ∧
      (∃ fuel board, code.run fuel Probe.board = some (.ok ([], board))) ∧
      ∃ fuel fault, ((Machine.new Unpassed.needyProgram Probe.board none).execute fuel).2 =
        .failed fault ∧ fault.cause = .uninitialized "x") ∧
    ∃ code, compile Unpassed.wastefulProgram = .ok code ∧
      Unpassed.wastefulProgram.entrypoint? = some Unpassed.wasteful ∧
      Unpassed.wasteful.params = [] ∧ Unpassed.wastefulProgram.NamesModules ∧
      ∃ steps, code.readAt? .idle Probe.board steps = some (.stack (-72), .stack (-16)) := by
  constructor
  · have hneedy : (compile Unpassed.needyProgram).toOption.any (fun code =>
        decide (code.readAt? .idle Probe.board 19 = some (.stack (-56), .int 0) ∧
          code.run 40 Probe.board = some (.ok ([], Probe.board)))) = true := by
      decide +kernel
    obtain ⟨code, hcompile, hreads, hruns⟩ := exists_of_compile hneedy
    exact ⟨code, hcompile, ⟨19, _, hreads⟩, ⟨40, _, hruns⟩, 1, _, rfl, rfl⟩
  · have hwasteful : (compile Unpassed.wastefulProgram).toOption.any (fun code =>
        decide (code.readAt? .idle Probe.board 36 = some (.stack (-72), .stack (-16)))) = true := by
      decide +kernel
    obtain ⟨code, hcompile, hreads⟩ := exists_of_compile hwasteful
    exact ⟨code, hcompile, rfl, rfl, .of_links rfl, 36, hreads⟩

end Native
end Gobstones
