import Gobstones.Proofs.Machine.Endings
import Gobstones.Proofs.Native.Recursion
/-!
# Results of native code

This module says which variables the host finds when native code has ended.  The machine
returns those that are named by the return of variables with which it leaves the entrypoint.
Native code leaves their words behind, but it is the first return of variables in the
entrypoint that says under which names and with which types the host reads them.

Main results:

- Theorem {lit}`signature_relabel`: the host finds the names and types that it expects.
- Theorem {lit}`run_of_returned`: the host finds the words of the variables that are returned,
  and the variables themselves if it expects their names and types.
- Theorem {lit}`run_of_misnamed`: it finds others if it does not.
-/

namespace Gobstones

namespace Machine

variable {machine next final : Machine} {bindings : Bindings} {fuel k : Nat}

/-- A run that ends well comes only to returns of variables that name as many as they say. -/
theorem named_of_finished (hrun : machine.run fuel = (final, .finished bindings))
    (hnext : machine.run k = (next, .running)) : next.Named := by
  intro top callers n names hframes hinstruction
  by_contra hcount
  have hfails : ∃ after fault, next.step = (after, .failed fault) := by
    simp only [step, hframes, hinstruction, perform, returnVars, if_pos (show names.length ≠ n from hcount)]
    split <;> exact ⟨_, _, rfl⟩
  obtain ⟨after, fault, hstep⟩ := hfails
  exact step_ne_failed hrun hnext hstep

end Machine

namespace Native

variable {program : Program} {entry : Routine} {board : Board} {code : NativeCode}
variable {final : Machine} {bindings returned : Bindings} {fuel : Nat}

/-! ## Names and types -/

/-- What is read from a word has the type under which it is read. -/
theorem type_of_ofWord? {word : Int64} {type : ValueType} {value : Value}
    (h : Value.ofWord? word type = some value) : value.type = type := by
  cases type <;> simp only [Value.ofWord?, Option.some.injEq, reduceCtorEq] at h <;>
    exact h ▸ rfl

/-- Results have the names and types under which they are read. -/
theorem signature_readResults {results : List (String × ValueType)} {words : List Int64}
    (hlength : words.length = results.length)
    (h : NativeCode.readResults results words = .ok returned) : returned.signature = results := by
  induction results generalizing words returned with
  | nil =>
    obtain rfl := Except.ok.inj h
    rfl
  | cons first results ih =>
    cases words with
    | nil => cases hlength
    | cons word words =>
      rw [NativeCode.readResults] at h
      split at h
      · cases h
      · next value hvalue =>
        obtain ⟨others, hothers, rfl⟩ := exists_of_map_eq_ok h
        have hrest := ih (Nat.succ.inj hlength) hothers
        change (first.1, value.type) :: Bindings.signature others = _
        rw [type_of_ofWord? hvalue, hrest]

/-- The host finds the names and types that it expects, whichever variables are returned. -/
theorem Setting.Finishing.signature_relabel {setting : Setting} {v : View} {n : Nat}
    (h : setting.Finishing bindings board v n)
    (hreturned : setting.code.relabel bindings = .ok returned) :
    returned.signature = setting.code.results := by
  obtain ⟨words, -, hlength, hwords⟩ := h.results
  rw [NativeCode.relabel, Setting.filterMap_toWord hwords] at hreturned
  exact signature_readResults hlength hreturned

/-! ## Runs that end well -/

/-- When the machine leaves the entrypoint with a return of variables, every host finds the words
of those variables under the names and with the types of the first return of variables in the
entrypoint.  If the variables that are returned have these names and types, the host finds
them as they are. -/
theorem run_of_returned (hcompile : compile program = .ok code)
    (hentry : program.entrypoint? = some entry) (horderly : program.Orderly entry)
    (hleaves : ∀ n, .ret n ∉ entry.code) (hboard : board.Reachable)
    (hfits : board.nativeLength < 2 ^ 63)
    (hrun : (Machine.new program board none).execute fuel = (final, .finished bindings))
    (htame : ∀ k next,
      (Machine.new program board none).execute k = (next, .running) → next.TameAnywhere) :
    ∃ k last top n names, (Machine.new program board none).execute k = (last, .running) ∧
      last.step = (final, .finished bindings) ∧ last.frames = [top] ∧
      top.instruction? = some (.returnVars n names) ∧
      resultTypes names = .ok bindings.signature ∧
      (∀ host, ∃ enough, ∀ more, enough ≤ more → code.runFor host more board =
        some ((code.relabel bindings).map fun returned => (returned, board.takeOver final.board))) ∧
      (∀ returned, code.relabel bindings = .ok returned → returned.signature = code.results) ∧
      (resultTypes names = .ok code.results → code.relabel bindings = .ok bindings) := by
  obtain ⟨k, last, top, n, names, hlast, hstep, hframes, hinstruction, -⟩ :=
    Machine.exists_returnVars hentry hleaves hrun
  have hnamed (k : Nat) (next : Machine)
      (hnext : (Machine.new program board none).execute k = (next, .running)) : next.Named := by
    simp only [Machine.execute, Machine.callEntrypoint, Machine.new, hentry,
      Option.map_some] at hrun hnext
    exact Machine.named_of_finished hrun hnext
  have harrives (host : Host) : ∃ setting : Setting, setting.board = board ∧ setting.code = code ∧
      setting.host = host ∧ setting.Prepared ∧
        setting.code.Leads (setting.code.hostView setting.host setting.board) 0
          (setting.Finishing bindings final.board) := by
    obtain ⟨setting, rfl, rfl, rfl, rfl, rfl, hprepared⟩ :=
      exists_prepared hcompile hentry horderly hboard hfits host
    exact ⟨setting, rfl, rfl, rfl, hprepared, setting.leads_arrives hprepared hrun (by simp)
      (fun k next _ _ hnext _ => ⟨htame k next hnext, hnamed k next hnext⟩) trivial⟩
  -- the view at the end of a run tells that the variables have words
  obtain ⟨setting, rfl, rfl, -, -, hleads⟩ := harrives .idle
  obtain ⟨-, -, v, place, -, -, -, hfinishing⟩ := hleads _ (shows_start setting.code _ _) rfl
  obtain ⟨words, -, -, hwords⟩ := hfinishing.results
  have hbindings := Machine.resultBindings_of_finished hstep hframes hinstruction
  have hsuits := (htame k last hlast top [] _ hframes hinstruction).suits (.inl rfl)
  have hnames := Setting.resultTypes_of_words hbindings hwords
    fun name hname value hvalue => (hsuits name hname value hvalue).2
  refine ⟨k, last, top, n, names, hlast, hstep, hframes, hinstruction, hnames, fun host => ?_,
    fun returned => hfinishing.signature_relabel, fun hsame => ?_⟩
  · obtain ⟨setting, hboard, hcode, rfl, hprepared, hleads⟩ := harrives host
    rw [← hboard, ← hcode]
    have hends := hleads.trans fun v n hends => Setting.Finishing.leads_exit hprepared hends
    exact exists_run_of_leads (hends.mono fun v n hends => ⟨hends.place, hends.outcome⟩)
  · exact hfinishing.relabel_eq (Except.ok.inj (hsame.symm.trans hnames))

end Native

/-! ## Two returns of variables -/

namespace Detour

/-- Go around the first return of variables, if there is no stone, to the second one. -/
def main (returned : String) : Routine where
  kind := .entrypoint
  name := "program"
  params := []
  code := #[.pushConst (.int 7), .popTo "x", .pushConst (.int 8), .popTo "y",
    .pushConst (.color .red), .call "existStones" 1, .jumpIfFalse "second",
    .returnVars 1 ["x@Int"], .label "second", .returnVars 1 [returned]]
  targets := #[none, none, none, none, none, none, some 9, none, none, none]
  resolved := rfl

/-- The program that goes around the first return of variables. -/
def program (returned : String) : Program :=
  Recursion.alone (main returned)

theorem orderly (returned : String) : (program returned).Orderly (main returned) where
  builtins home _ howns _ _ _ _ hresolve := by
    rw [howns.reaches.eq_of_links rfl] at hresolve
    exact Program.mem_standard_of_resolve rfl hresolve
  names := .of_links rfl
  returns home routine howns hkind n hret := by
    have hmem := howns.mem
    rw [howns.reaches.eq_of_links rfl] at hmem
    obtain rfl : routine = main returned := by simpa [program, Recursion.alone] using hmem
    simp [main] at hret
  counts n names hmem := by
    have hone (n : Nat) (names : List String) (hmem : .returnVars n names ∈ (main returned).code) :
        n = 1 ∧ names.length = 1 := by
      have hnames : n = 1 ∧ names = ["x@Int"] ∨ n = 1 ∧ names = [returned] := by
        simpa [main] using hmem
      rcases hnames with ⟨hn, rfl⟩ | ⟨hn, rfl⟩ <;> exact ⟨hn, rfl⟩
    obtain ⟨rfl, hlength⟩ := hone n names hmem
    exact ⟨hlength, fun n' names' hmem' => (hone n' names' hmem').1⟩
  params := rfl

end Detour

namespace Native

theorem run_of_returned_detour :
    ∃ code, compile (Detour.program "x@Int") = .ok code ∧
      ∃ final, (Machine.new (Detour.program "x@Int") Probe.board none).execute 9 =
          (final, .finished [("x", .int 7)]) ∧
        ∃ enough, ∀ more, enough ≤ more → code.run more Probe.board =
          some (.ok ([("x", .int 7)], Probe.board.takeOver final.board)) := by
  have hresults : (compile (Detour.program "x@Int")).toOption.any
      (fun code => decide (code.results = [("x", .int)])) = true := by
    decide +kernel
  obtain ⟨code, hcompile, hresults⟩ := exists_of_compile hresults
  have hends : ((Machine.new (Detour.program "x@Int") Probe.board none).execute 9).2 =
      .finished [("x", .int 7)] := by
    decide +kernel
  have htame : ∀ k < 9,
      ((Machine.new (Detour.program "x@Int") Probe.board none).execute k).1.TameAnywhere := by
    decide +kernel
  rcases hexecute : (Machine.new (Detour.program "x@Int") Probe.board none).execute 9 with
    ⟨final, outcome⟩
  rw [hexecute] at hends
  obtain rfl : outcome = .finished [("x", .int 7)] := hends
  obtain ⟨_, _, _, _, _, -, -, -, -, hnames, hruns, -, hsame⟩ := run_of_returned hcompile rfl
    (Detour.orderly "x@Int") (by simp [Detour.main]) Probe.reachable_board (by decide) hexecute
    (Machine.forall_of_ended (by simp [hexecute]) htame)
  refine ⟨code, hcompile, final, rfl, ?_⟩
  have hexpected : code.relabel [("x", .int 7)] = .ok [("x", .int 7)] :=
    hsame (hnames.trans (congrArg _ hresults.symm))
  have hruns := hruns .idle
  rwa [hexpected] at hruns

/-- An entrypoint with two returns of as many variables each.  The machine takes the second one,
but the host finds what is returned there under the name of the first one. -/
theorem run_of_misnamed :
    ((Machine.new (Detour.program "y@Int") Probe.board none).execute 9).2 =
        .finished [("y", .int 8)] ∧
      ∃ code, compile (Detour.program "y@Int") = .ok code ∧
        code.run 200 Probe.board = some (.ok ([("x", .int 8)], Probe.board)) :=
  ⟨by decide +kernel, exists_of_compile (by decide +kernel)⟩

end Native
end Gobstones
