import Gobstones.Proofs.Native.Regions
/-!
# Arithmetic in native code

This module says what the code emitted for divisions and exponentiation comes to, whatever has
been emitted before and after it.  The code and the functions of the language compute alike: the
code pushes the word that the function has as its value, and it goes to the fault stub of a
message exactly if the function fails with that message.

Main definitions:

- {lit}`arithmetic?`: the functions that the code of builtins computes.
- {lit}`Evaluates`: code computes a function, and it goes to the stub of a message if it fails.

Main results:

- Theorem {lit}`evaluates_arithmetic`: the pieces of code compute these functions.
- Theorem {lit}`leads_arithmetic`: so do the pieces in the code that they are emitted for.
-/

namespace Gobstones
namespace Native

/-- The functions on integers that the builtins for divisions and exponentiation compute. -/
def arithmetic? : String → Option (Int64 → Int64 → Except ArithmeticError Int64)
  | "div" => some Arithmetic.floorDiv
  | "mod" => some Arithmetic.floorMod
  | "^" => some Arithmetic.power
  | _ => none

variable {f : Int64 → Int64 → Except ArithmeticError Int64} {stubs : List (String × Label)}
variable {name : String} {instrs : List Instr}

/-- Code computes a function of the two latest words of the stack.  Where the function fails, the
code branches to the label that the stub of the message has. -/
def Evaluates (stubs : List (String × Label)) (instrs : List Instr)
    (f : Int64 → Int64 → Except ArithmeticError Int64) : Prop :=
  ∀ a b, match f a b with
    | .ok q => Computes instrs [.int b, .int a] (.int q)
    | .error e => ∃ label, (e.message, label) ∈ stubs ∧ Rejects instrs [.int b, .int a] label

theorem evaluates_power {negative top skip done : Label}
    (hstub : (ArithmeticError.negativeExponent.message, negative) ∈ stubs) :
    Evaluates stubs (powerCode negative top skip done) Arithmetic.power := by
  intro a b
  by_cases hsign : b < 0
  · rw [Arithmetic.power_eq_error_iff.2 ⟨rfl, hsign⟩]
    exact ⟨negative, hstub, rejects_powerCode a b hsign⟩
  · rw [Arithmetic.power_eq hsign]
    exact computes_powerCode a b hsign

theorem evaluates_division (result : DivisionResult) {byZero normal exact done : Label}
    (hstub : (ArithmeticError.divisionByZero.message, byZero) ∈ stubs) :
    Evaluates stubs (divisionCode result byZero normal exact done) result.of := by
  intro a b
  by_cases hzero : b = 0
  · subst hzero
    rw [result.of_eq_error_iff.2 ⟨rfl, rfl⟩]
    exact ⟨byZero, hstub, rejects_divisionCode result a⟩
  · have hquotient := result.of_eq a hzero
    rw [hquotient]
    exact computes_divisionCode result hzero hquotient

/-- The code of a builtin computes its function. -/
theorem evaluates_arithmetic (hname : arithmetic? name = some f)
    (hcode : BuiltinCode stubs name instrs) : Evaluates stubs instrs f := by
  unfold arithmetic? at hname
  split at hname
  · obtain rfl := Option.some.inj hname
    obtain ⟨_, _, _, _, hstub, rfl⟩ := hcode
    exact evaluates_division .quotient hstub
  · obtain rfl := Option.some.inj hname
    obtain ⟨_, _, _, _, hstub, rfl⟩ := hcode
    exact evaluates_division .remainder hstub
  · obtain rfl := Option.some.inj hname
    obtain ⟨_, _, _, _, hstub, rfl⟩ := hcode
    exact evaluates_power hstub
  · cases hname

section

variable {em em' last : Emitter} {code : NativeCode} {v : View} {a b : Int64} {rest : List Word}

/-- The code emitted for a division or an exponentiation computes what the function of the
language does.  Let it be followed by any other code and by the requested stubs, and let the
whole be linked.  From a state with two integers as the latest words of the stack, the code takes
both off the stack; then, if the function has a value for them, it pushes that value and ends
behind itself, and if the function fails, it goes to the fault stub of the message with which the
function fails.  Either way the stack below, the registers that routines rely on, the board and
the results stay as they were. -/
theorem leads_arithmetic (hname : arithmetic? name = some f) (hplaced : em.placed = 0)
    (hemit : em.builtin? name = some em') (hprecedes : em'.Precedes last)
    (hinstrs : code.instrs = last.placeStubs.instrs) (hlinked : code.Linked)
    (hlive : v.live = .int b :: .int a :: rest) :
    match f a b with
    | .ok q =>
      code.Leads v em.instrs.size fun v' n' =>
        n' = em'.instrs.size ∧ v.Agrees v' ∧ v'.live = .int q :: rest
    | .error e =>
      ∃ label n, (e.message, label) ∈ last.stubs ∧ code.At n (faultStub e.message label) ∧
        code.Leads v em.instrs.size fun v' n' => n' = n + 1 ∧ v.Agrees v' ∧ v'.live = rest := by
  obtain ⟨instrs, hemits, hcode⟩ := emits_builtin? hemit
  obtain ⟨others, hothers⟩ := hprecedes
  have hkept : em'.instrs.toList <+: code.instrs.toList := by
    rw [hinstrs]
    exact hothers.isPrefix.trans (last.emits_emitAll _).isPrefix
  have hat : code.At em.instrs.size instrs := NativeCode.at_of_emits hemits hkept
  have hsize : em'.instrs.size = em.instrs.size + instrs.length := by
    simpa using congrArg List.length hemits.instrs
  have hevaluates := evaluates_arithmetic hname (hcode last.stubs hothers.stubs) a b
  cases hresult : f a b with
  | ok q =>
    rw [hresult] at hevaluates
    simp only [hsize]
    exact hevaluates code v _ rest hlinked hat hlive
  | error e =>
    rw [hresult] at hevaluates
    obtain ⟨label, hstub, hrejects⟩ := hevaluates
    have hlast : last.placed = 0 := by rw [hothers.placed, hemits.placed, hplaced]
    obtain ⟨n, -, hstubAt⟩ := exists_stub_of_placeStubs hlast hinstrs hstub
    refine ⟨label, n, hstub, hstubAt, (hrejects code v _ rest hlinked hat hlive).mono ?_⟩
    rintro v' n' ⟨hplace, hagrees, hrest⟩
    exact ⟨hlinked.bind_of_place hplace (hstubAt 0 _ rfl), hagrees, hrest⟩

end

/-- The remainder of a negative number is positive, and a division by zero goes to the
stub of its message. -/
theorem leads_arithmetic_mod :
    ∃ (em' : Emitter) (code : NativeCode), Emitter.empty.builtin? "mod" = some em' ∧
      code.instrs = em'.placeStubs.instrs ∧ code.Linked ∧
      (code.Leads ⟨.replicate (.int 0), none, [.int 2, .int (-7), .int 9], [], #[], #[]⟩ 0
        fun v' n' => n' = 21 ∧ v'.live = [.int 1, .int 9]) ∧
      ∃ label n, ("Division by zero", label) ∈ em'.stubs ∧
        code.At n (faultStub "Division by zero" label) ∧
        code.Leads ⟨.replicate (.int 0), none, [.int 0, .int (-7), .int 9], [], #[], #[]⟩ 0
          fun v' n' => n' = n + 1 ∧ v'.live = [.int 9] := by
  obtain ⟨em', hemit⟩ : ∃ em', Emitter.empty.builtin? "mod" = some em' := ⟨_, rfl⟩
  obtain ⟨linked, hlink⟩ : ∃ linked, em'.placeStubs.link = .ok linked := by
    obtain rfl := Option.some.inj hemit
    exact ⟨_, rfl⟩
  have hlinked : NativeCode.Linked
      { instrs := em'.placeStubs.instrs, labels := em'.placeStubs.labels, linked, results := [] } :=
    ⟨linked, hlink⟩
  have hlast : em'.Precedes em' := ⟨[], .refl em'⟩
  have hsize : em'.instrs.size = 21 := by
    obtain rfl := Option.some.inj hemit
    rfl
  refine ⟨em', _, hemit, rfl, hlinked, ?_, ?_⟩
  · have hmod : Arithmetic.floorMod (-7) 2 = .ok 1 := by decide +kernel
    have hleads := leads_arithmetic (v := ⟨.replicate (.int 0), none, [.int 2, .int (-7), .int 9],
      [], #[], #[]⟩) rfl rfl hemit hlast rfl hlinked rfl
    rw [hmod] at hleads
    refine hleads.mono ?_
    rintro v' n' ⟨hn, -, hlive⟩
    exact ⟨hn.trans hsize, hlive⟩
  · have hmod : Arithmetic.floorMod (-7) 0 = .error .divisionByZero := by decide +kernel
    have hleads := leads_arithmetic (v := ⟨.replicate (.int 0), none, [.int 0, .int (-7), .int 9],
      [], #[], #[]⟩) rfl rfl hemit hlast rfl hlinked rfl
    rw [hmod] at hleads
    obtain ⟨label, n, hstub, hat, hleads⟩ := hleads
    refine ⟨label, n, hstub, hat, hleads.mono ?_⟩
    rintro v' n' ⟨hn, -, hlive⟩
    exact ⟨hn, hlive⟩

end Native
end Gobstones
