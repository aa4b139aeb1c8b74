import Gobstones.Native.Inline
import Gobstones.Proofs.Arithmetic.Division
import Gobstones.Proofs.Arithmetic.Power
import Gobstones.Proofs.Native.Grid
/-!
# Code that computes

This module follows the code of builtins that compute a result from their arguments.
Words are given in the order of the stack, latest first.

Main definitions:

- {lit}`Computes`: code replaces arguments by a result.
- {lit}`Fails`: code branches to a label.
- {lit}`Rejects`: code branches to a label and leaves all but its arguments as it was.

Main results:

- Theorem {lit}`computes_compareCode`: comparisons.
- Theorem {lit}`computes_powerCode`: exponentiation is repeated squaring.
- Theorem {lit}`computes_divisionCode`: division rounds down.
-/

namespace Gobstones
namespace Native

/-- A part of a piece of code. -/
theorem NativeCode.At.slice {code : NativeCode} {n : Nat} {instrs : List Instr}
    (h : code.At n instrs) (i k : Nat) : code.At (n + i) ((instrs.drop i).take k) := by
  intro j instr hj
  have hlt : j < k := by
    by_contra hge
    rw [List.getElem?_eq_none (by simp; omega)] at hj
    simp at hj
  rw [List.getElem?_take_of_lt hlt, List.getElem?_drop] at hj
  rw [Nat.add_assoc]
  exact h (i + j) instr hj

/-- Code replaces arguments on the stack by a result. -/
def Computes (instrs : List Instr) (args : List Word) (result : Word) : Prop :=
  ∀ (code : NativeCode) (v : View) (n : Nat) (rest : List Word), code.Linked →
    code.At n instrs → v.live = args ++ rest →
      code.Leads v n fun v' n' =>
        n' = n + instrs.length ∧ v.Agrees v' ∧ v'.live = result :: rest

/-- Code branches to a label.  Arguments may be left on the stack. -/
def Fails (instrs : List Instr) (args : List Word) (label : Label) : Prop :=
  ∀ (code : NativeCode) (v : View) (n : Nat) (rest : List Word), code.Linked →
    code.At n instrs → v.live = args ++ rest →
      code.Leads v n fun v' n' =>
        code.place label = some n' ∧ v.Keeps v' ∧ rest <:+ v'.live

/-- Code takes arguments off the stack and branches to a label. -/
def Rejects (instrs : List Instr) (args : List Word) (label : Label) : Prop :=
  ∀ (code : NativeCode) (v : View) (n : Nat) (rest : List Word), code.Linked →
    code.At n instrs → v.live = args ++ rest →
      code.Leads v n fun v' n' =>
        code.place label = some n' ∧ v.Agrees v' ∧ v'.live = rest

theorem Rejects.fails {instrs : List Instr} {args : List Word} {label : Label}
    (h : Rejects instrs args label) : Fails instrs args label := by
  intro code v n rest hlinked hat hlive
  refine (h code v n rest hlinked hat hlive).mono ?_
  rintro v' n' ⟨hplace, hagrees, hrest⟩
  exact ⟨hplace, hagrees.toKeeps, hrest ▸ List.suffix_refl rest⟩

/-- Code without branches is followed at once. -/
theorem computes_of_performAll {instrs : List Instr} {args : List Word} {result : Word}
    (h : ∀ (v : View) (rest : List Word), v.live = args ++ rest →
      ∃ v', v.performAll instrs = some v' ∧ v.Agrees v' ∧ v'.live = result :: rest) :
    Computes instrs args result := by
  intro code v n rest _ hat hlive
  obtain ⟨v', hview, hagrees, hresult⟩ := h v rest hlive
  exact .block hat hview (.done ⟨rfl, hagrees, hresult⟩)

/-! ## Straight code -/

theorem computes_pushImm (imm : Int32) : Computes [.pushImm imm] [] (.int imm.toInt64) := by
  apply computes_of_performAll
  rintro ⟨regs, flags, live, dead, board, results⟩ rest rfl
  exact ⟨_, rfl, ⟨⟨rfl, rfl, rfl, rfl⟩, rfl, rfl, rfl, rfl, rfl, rfl⟩, rfl⟩

theorem computes_addImm (n : Int64) (imm : Int32) :
    Computes (unaryCode [.aluImm .add .rax imm]) [.int n] (.int (n + imm.toInt64)) := by
  apply computes_of_performAll
  rintro ⟨regs, flags, live, dead, board, results⟩ rest rfl
  exact ⟨_, rfl, ⟨⟨rfl, rfl, rfl, rfl⟩, rfl, rfl, rfl, rfl, rfl, rfl⟩, rfl⟩

theorem computes_subImm (n : Int64) (imm : Int32) :
    Computes (unaryCode [.aluImm .sub .rax imm]) [.int n] (.int (n - imm.toInt64)) := by
  apply computes_of_performAll
  rintro ⟨regs, flags, live, dead, board, results⟩ rest rfl
  exact ⟨_, rfl, ⟨⟨rfl, rfl, rfl, rfl⟩, rfl, rfl, rfl, rfl, rfl, rfl⟩, rfl⟩

theorem computes_neg (n : Int64) : Computes (unaryCode [.neg .rax]) [.int n] (.int (-n)) := by
  apply computes_of_performAll
  rintro ⟨regs, flags, live, dead, board, results⟩ rest rfl
  exact ⟨_, rfl, ⟨⟨rfl, rfl, rfl, rfl⟩, rfl, rfl, rfl, rfl, rfl, rfl⟩, rfl⟩

/-- The negation of a boolean. -/
theorem computes_xorOne (b : Bool) :
    Computes (unaryCode [.aluImm .xor .rax 1]) [.int (if b = true then 1 else 0)]
      (.int (if (!b) = true then 1 else 0)) := by
  have hflip : ((if b = true then 1 else 0 : Int64) ^^^ (1 : Int32).toInt64) =
      if (!b) = true then 1 else 0 := by
    cases b <;> decide
  apply computes_of_performAll
  rintro ⟨regs, flags, live, dead, board, results⟩ rest rfl
  exact ⟨_, rfl, ⟨⟨rfl, rfl, rfl, rfl⟩, rfl, rfl, rfl, rfl, rfl, rfl⟩,
    congrArg (fun w => Word.int w :: rest) hflip⟩

/-- Going around a cycle of four. -/
theorem computes_cycle (i : Nat) (imm : Int32) (j : Nat)
    (h : (Int64.ofNat i + imm.toInt64) &&& 3 = Int64.ofNat j) :
    Computes (unaryCode [.aluImm .add .rax imm, .aluImm .and .rax 3]) [.nat i] (.nat j) := by
  apply computes_of_performAll
  rintro ⟨regs, flags, live, dead, board, results⟩ rest rfl
  exact ⟨_, rfl, ⟨⟨rfl, rfl, rfl, rfl⟩, rfl, rfl, rfl, rfl, rfl, rfl⟩,
    congrArg (fun w => Word.int w :: rest) h⟩

theorem computes_binary {op : Instr} {f : Int64 → Int64 → Int64} (m n : Int64)
    (hop : op = .alu .add .rax .rcx ∧ f = (· + ·) ∨ op = .alu .sub .rax .rcx ∧ f = (· - ·) ∨
      op = .imul .rax .rcx ∧ f = (· * ·) ∨ op = .alu .and .rax .rcx ∧ f = (· &&& ·) ∨
      op = .alu .or .rax .rcx ∧ f = (· ||| ·)) :
    Computes (binaryCode op) [.int n, .int m] (.int (f m n)) := by
  apply computes_of_performAll
  rintro ⟨regs, flags, live, dead, board, results⟩ rest rfl
  rcases hop with ⟨rfl, rfl⟩ | ⟨rfl, rfl⟩ | ⟨rfl, rfl⟩ | ⟨rfl, rfl⟩ | ⟨rfl, rfl⟩
  all_goals exact ⟨_, rfl, ⟨⟨rfl, rfl, rfl, rfl⟩, rfl, rfl, rfl, rfl, rfl, rfl⟩, rfl⟩

/-- A comparison of two integers. -/
theorem computes_compareCode (cond : Condition) (m n : Int64) :
    Computes (compareCode cond) [.int n, .int m]
      (.int (if (Flags.ofDifference m n).holds cond = true then 1 else 0)) := by
  apply computes_of_performAll
  rintro ⟨regs, flags, live, dead, board, results⟩ rest rfl
  exact ⟨_, rfl, ⟨⟨rfl, rfl, rfl, rfl⟩, rfl, rfl, rfl, rfl, rfl, rfl⟩,
    congrArg (fun w => Word.int w :: rest) (flag_word (.int m) _)⟩

/-! ## Exponentiation -/

section Power

variable {code : NativeCode} {v : View} {n : Nat} {Q : View → Nat → Prop}
variable {negative top skip done : Label}

/-- The loop of an exponentiation multiplies squares into a register. -/
theorem leads_powerLoop (hlinked : code.Linked)
    (hat : code.At n (powerCode negative top skip done)) (k : Nat) (hk : k < 2 ^ 63)
    (base acc : Int64)
    (hrest : ∀ v', v.Agrees v' → v'.live = v.live →
      v'.regs.rax = .int (Arithmetic.squareMultiply base acc k) → code.Leads v' (n + 17) Q)
    (hrax : v.regs.rax = .int acc) (hrcx : v.regs.rcx = .nat k) (hr9 : v.regs.r9 = .int base) :
    code.Leads v (n + 6) Q := by
  induction k using Nat.strongRecOn generalizing v base acc with
  | ind k ih =>
    rcases v with ⟨⟨rax, rcx, rdx, rbx, rsp, rbp, rsi, rdi, r8, r9, r10, r11, r12, r13, r14, r15⟩,
      flags, live, dead, board, results⟩
    dsimp only at hrax hrcx hr9
    subst hrax hrcx hr9
    refine .block (hat.slice 6 1) rfl ?_
    by_cases hzero : k = 0
    · have hplace := hlinked.place_eq (hat 7 _ rfl) rfl (hat 16 _ rfl)
      refine .taken (hat 7 _ rfl) rfl ?_ hplace (hrest _ ?_ rfl ?_)
      · simp [Flags.holds, Flags.ofBits, hzero]
      · exact ⟨⟨rfl, rfl, rfl, rfl⟩, rfl, rfl, rfl, rfl, rfl, rfl⟩
      · rw [hzero, Arithmetic.squareMultiply, if_pos rfl]
        rfl
    · -- The two paths through the body join where the base is squared.
      have hjoin (rdx rsp : Word) (flags : Option Flags) :
          code.Leads ⟨⟨.int (if k % 2 = 1 then acc * base else acc), .nat k, rdx, rbx, rsp, rbp,
            rsi, rdi, r8, .int base, r10, r11, r12, r13, r14, r15⟩, flags, live, dead, board,
            results⟩ (n + 13) Q := by
        have hplace := hlinked.place_eq (hat 15 _ rfl) rfl (hat 5 _ rfl)
        refine .block (hat.slice 13 2) rfl (.jmp (hat 15 _ rfl) hplace ?_)
        refine ih (k / 2) (by omega) (by omega) (base * base) _ ?_ rfl
          (congrArg Word.int (shr_ofNat hk)) rfl
        intro v' hagrees hlive hrax
        refine hrest v' (.trans ?_ hagrees) hlive ?_
        · exact ⟨⟨rfl, rfl, rfl, rfl⟩, rfl, rfl, rfl, rfl, rfl, rfl⟩
        · rw [hrax, Arithmetic.squareMultiply.eq_def base acc k, if_neg hzero]
      have hodd : Int64.ofNat k &&& (1 : Int32).toInt64 = Int64.ofNat (k % 2) :=
        Arithmetic.and_one_ofNat k
      refine .passed (hat 7 _ rfl) rfl ?_ (.block (hat.slice 8 2) rfl ?_)
      · have hself : Int64.ofNat k &&& Int64.ofNat k = Int64.ofNat k := Int64.and_self
        simp [Flags.holds, Flags.ofBits, hself, ofNat_eq_zero_iff hk, hzero]
      by_cases hparity : k % 2 = 1
      · refine .passed (hat 10 _ rfl) rfl ?_ (.block (hat.slice 11 1) rfl ?_)
        · change decide (Int64.ofNat k &&& (1 : Int32).toInt64 = 0) = false
          rw [hodd, hparity]
          rfl
        · refine .bind (hat 12 _ rfl) ?_
          rw [if_pos hparity] at hjoin
          exact hjoin _ _ _
      · have hplace := hlinked.place_eq (hat 10 _ rfl) rfl (hat 12 _ rfl)
        refine .taken (hat 10 _ rfl) rfl ?_ hplace ?_
        · have heven : k % 2 = 0 := by omega
          change decide (Int64.ofNat k &&& (1 : Int32).toInt64 = 0) = true
          rw [hodd, heven]
          rfl
        · rw [if_neg hparity] at hjoin
          exact hjoin _ _ _

/-- A power with an exponent that is not negative. -/
theorem computes_powerCode (base exponent : Int64) (h : ¬exponent < 0) :
    Computes (powerCode negative top skip done) [.int exponent, .int base]
      (.int (Arithmetic.squareMultiply base 1 exponent.toInt.toNat)) := by
  obtain ⟨hexponent, hlt⟩ := Arithmetic.ofNat_toInt_toNat h
  intro code v n rest hlinked hat hlive
  rcases v with ⟨regs, flags, live, dead, board, results⟩
  dsimp only at hlive
  subst hlive
  refine .block (hat.slice 0 3) rfl (.passed (hat 3 _ rfl) rfl ?_ ?_)
  · have hzero : (0 : Int32).toInt64 = 0 := rfl
    simpa [Flags.holds, Flags.ofDifference, hzero] using h
  refine .block (hat.slice 4 1) rfl (.bind (hat 5 _ rfl) ?_)
  refine leads_powerLoop hlinked hat exponent.toInt.toNat hlt base 1 ?_ rfl
    (congrArg Word.int hexponent.symm) rfl
  intro v' hagrees hlive hrax
  refine .block (hat.slice 17 1) rfl (.done ⟨rfl, .trans (.trans ?_ hagrees) ?_, ?_⟩)
  · exact ⟨⟨rfl, rfl, rfl, rfl⟩, rfl, rfl, rfl, rfl, rfl, rfl⟩
  · exact ⟨⟨rfl, rfl, rfl, rfl⟩, rfl, rfl, rfl, rfl, rfl, rfl⟩
  · exact congrArg₂ List.cons hrax hlive

/-- A power with a negative exponent. -/
theorem rejects_powerCode (base exponent : Int64) (h : exponent < 0) :
    Rejects (powerCode negative top skip done) [.int exponent, .int base] negative := by
  intro code v n rest hlinked hat hlive
  rcases v with ⟨regs, flags, live, dead, board, results⟩
  dsimp only at hlive
  subst hlive
  obtain ⟨j, -, hplace⟩ := hlinked.exists_place (hat 3 _ rfl) rfl
  refine .block (hat.slice 0 3) rfl (.taken (hat 3 _ rfl) rfl ?_ hplace ?_)
  · have hzero : (0 : Int32).toInt64 = 0 := rfl
    simpa [Flags.holds, Flags.ofDifference, hzero] using h
  · exact .done ⟨hplace, ⟨⟨rfl, rfl, rfl, rfl⟩, rfl, rfl, rfl, rfl, rfl, rfl⟩, rfl⟩

end Power

/-! ## Division -/

/-- What a division computes. -/
def DivisionResult.of : DivisionResult → Int64 → Int64 → Except ArithmeticError Int64
  | quotient => Arithmetic.floorDiv
  | remainder => Arithmetic.floorMod

namespace DivisionResult

/-- The result of a division that truncates. -/
def truncated (a b : Int64) : DivisionResult → Int64
  | quotient => a / b
  | remainder => a % b

/-- The result of a division in which rounding down makes a difference. -/
def corrected (a b : Int64) : DivisionResult → Int64
  | quotient => a / b - 1
  | remainder => a % b + b

theorem of_eq (result : DivisionResult) (a : Int64) {b : Int64} (h : b ≠ 0) :
    result.of a b = .ok (if a % b ≠ 0 ∧ Arithmetic.oppositeSigns (a % b) b then
      result.corrected a b else result.truncated a b) := by
  cases result with
  | remainder => exact Arithmetic.floorMod_eq a h
  | quotient => exact Arithmetic.floorDiv_eq a h

theorem of_eq_error_iff (result : DivisionResult) {a b : Int64} {e : ArithmeticError} :
    result.of a b = .error e ↔ e = .divisionByZero ∧ b = 0 := by
  cases result with
  | remainder => exact Arithmetic.floorMod_eq_error_iff
  | quotient => exact Arithmetic.floorDiv_eq_error_iff

end DivisionResult

section Division

variable {code : NativeCode} {v : View} {n : Nat}
variable {byZero normal exact done : Label} {result : DivisionResult}

/-- The division instruction and the correction of its result. -/
def DivisionResult.roundingCode (result : DivisionResult) (exact : Label) : List Instr :=
  [.cqo, .idiv .rcx, .test .rdx .rdx, .jcc .e exact, .mov .r9 .rdx, .alu .xor .r9 .rcx,
    .aluImm .cmp .r9 0, .jcc .ge exact, result.correctionCode, .bind exact, .push result.register]

theorem View.perform_idiv {a b : Int64} (hrax : v.regs.rax = .int a)
    (hrdx : v.regs.rdx = .int (if a < 0 then -1 else 0)) (hrcx : v.regs.rcx = .int b)
    (hzero : b ≠ 0) (hminus : b ≠ -1) :
    v.perform (.idiv .rcx) = some (v.adopt
      (((v.cpu.setReg .rax (.int (a / b))).setReg .rdx (.int (a % b))).withFlags none)) := by
  have hlow : v.cpu.reg .rax = .int a := hrax
  have hhigh : v.cpu.reg .rdx = .int (if a < 0 then -1 else 0) := hrdx
  have hdivisor : v.cpu.reg .rcx = .int b := hrcx
  have hdivide : v.cpu.divide b = _ := Processor.divide_eq (a := a)
    (by rw [Processor.int?, hhigh]) (by rw [Processor.int?, hlow]) hzero hminus
  simp only [View.perform, Instr.setsStackPointer, Processor.perform, Processor.int?, hdivisor,
    hdivide, bind, Option.bind]
  rfl

/-- The truncated result of a division, corrected when it has to be rounded down. -/
theorem leads_roundingCode (hlinked : code.Linked)
    (hat : code.At n (result.roundingCode exact)) {a b q : Int64} (hzero : b ≠ 0)
    (hminus : b ≠ -1) (hq : result.of a b = .ok q) (hrax : v.regs.rax = .int a)
    (hrcx : v.regs.rcx = .int b) :
    code.Leads v n fun v' n' => n' = n + 11 ∧ v.Agrees v' ∧ v'.live = .int q :: v.live := by
  -- Both paths end with a push of the result.
  have hpush (w : View) (hagrees : v.Agrees w) (hlive : w.live = v.live)
      (hw : w.reg result.register = .int q) : code.Leads w (n + 10) fun v' n' =>
        n' = n + 11 ∧ v.Agrees v' ∧ v'.live = .int q :: v.live := by
    refine .block (hat.slice 10 1) rfl (.done ⟨rfl, .trans hagrees ?_, ?_⟩)
    · exact ⟨⟨rfl, rfl, rfl, rfl⟩, rfl, rfl, rfl, rfl, rfl, rfl⟩
    · exact congrArg₂ List.cons hw hlive
  rcases v with ⟨⟨rax, rcx, rdx, rbx, rsp, rbp, rsi, rdi, r8, r9, r10, r11, r12, r13, r14, r15⟩,
    flags, live, dead, board, results⟩
  dsimp only at hrax hrcx
  subst hrax hrcx
  have hplace := hlinked.place_eq (hat 3 _ rfl) rfl (hat 9 _ rfl)
  refine .block (hat.slice 0 1) rfl (.instr (hat 1 _ rfl)
    (View.perform_idiv rfl rfl rfl hzero hminus) (.block (hat.slice 2 1) rfl ?_))
  have hself : a % b &&& a % b = a % b := Int64.and_self
  have hresult := Except.ok.inj ((result.of_eq a hzero).symm.trans hq)
  by_cases hexact : a % b = 0
  · refine .taken (hat 3 _ rfl) rfl ?_ hplace (hpush _ ?_ rfl ?_)
    · simp [Flags.holds, Flags.ofBits, hexact]
    · exact ⟨⟨rfl, rfl, rfl, rfl⟩, rfl, rfl, rfl, rfl, rfl, rfl⟩
    · rw [if_neg (fun h => h.1 hexact)] at hresult
      subst hresult
      cases result <;> rfl
  · refine .passed (hat 3 _ rfl) rfl ?_ (.block (hat.slice 4 3) rfl ?_)
    · simpa [Flags.holds, Flags.ofBits, hself] using hexact
    have hsign := xor_lt_zero_iff (a % b) b
    by_cases hopposite : Arithmetic.oppositeSigns (a % b) b = true
    · rw [hopposite] at hsign
      rw [if_pos ⟨hexact, hopposite⟩] at hresult
      refine .passed (hat 7 _ rfl) rfl ?_ ?_
      · change (!decide (a % b ^^^ b < 0)) = false
        rw [hsign]
        rfl
      · subst hresult
        cases result with
        | quotient =>
          refine .block (hat.slice 8 1) rfl (.bind (hat 9 _ rfl) (hpush _ ?_ rfl rfl))
          exact ⟨⟨rfl, rfl, rfl, rfl⟩, rfl, rfl, rfl, rfl, rfl, rfl⟩
        | remainder =>
          refine .block (hat.slice 8 1) rfl (.bind (hat 9 _ rfl) (hpush _ ?_ rfl rfl))
          exact ⟨⟨rfl, rfl, rfl, rfl⟩, rfl, rfl, rfl, rfl, rfl, rfl⟩
    · rw [Bool.not_eq_true] at hopposite
      rw [hopposite] at hsign
      rw [if_neg (by simp [hopposite])] at hresult
      refine .taken (hat 7 _ rfl) rfl ?_ hplace (hpush _ ?_ rfl ?_)
      · change (!decide (a % b ^^^ b < 0)) = true
        rw [hsign]
        rfl
      · exact ⟨⟨rfl, rfl, rfl, rfl⟩, rfl, rfl, rfl, rfl, rfl, rfl⟩
      · subst hresult
        cases result <;> rfl

/-- A division by minus one negates. -/
theorem DivisionResult.of_neg_one (result : DivisionResult) (a : Int64) :
    result.of a (-1) = .ok (match result with | .quotient => -a | .remainder => 0) := by
  have hminus : (-1 : Int64).toInt = -1 := rfl
  have hmod : a % (-1) = 0 := by
    apply Int64.toInt_inj.1
    rw [Int64.toInt_mod, hminus, Int64.toInt_zero]
    rw [Int.tmod_neg, Int.tmod_one]
  have hdiv : a / (-1) = -a := by
    apply Int64.toInt_inj.1
    rw [Int64.toInt_div, hminus, Int64.toInt_neg, Int.tdiv_neg, Int.tdiv_one]
  rw [result.of_eq a (by decide), if_neg (fun h => h.1 hmod)]
  cases result with
  | quotient => rw [truncated, hdiv]
  | remainder => rw [truncated, hmod]

/-- A division by a number other than zero. -/
theorem computes_divisionCode (result : DivisionResult) {a b q : Int64} (hzero : b ≠ 0)
    (hq : result.of a b = .ok q) :
    Computes (divisionCode result byZero normal exact done) [.int b, .int a] (.int q) := by
  intro code v n rest hlinked hat hlive
  rcases v with ⟨regs, flags, live, dead, board, results⟩
  dsimp only at hlive
  subst hlive
  have hself : b &&& b = b := Int64.and_self
  have himm : (-1 : Int32).toInt64 = -1 := rfl
  refine .block (hat.slice 0 3) rfl (.passed (hat 3 _ rfl) rfl ?_ (.block (hat.slice 4 1) rfl ?_))
  · simpa [Flags.holds, Flags.ofBits, hself] using hzero
  by_cases hminus : b = -1
  · subst hminus
    have hresult := Except.ok.inj ((result.of_neg_one a).symm.trans hq)
    subst hresult
    refine .passed (hat 5 _ rfl) rfl rfl ?_
    cases result with
    | quotient =>
      have hplace := hlinked.place_eq (hat 8 _ rfl) rfl (hat 21 _ rfl)
      refine .block (hat.slice 6 2) rfl (.jmp (hat 8 _ rfl) hplace (.done ⟨rfl, ?_, rfl⟩))
      exact ⟨⟨rfl, rfl, rfl, rfl⟩, rfl, rfl, rfl, rfl, rfl, rfl⟩
    | remainder =>
      have hplace := hlinked.place_eq (hat 7 _ rfl) rfl (hat 20 _ rfl)
      refine .block (hat.slice 6 1) rfl (.jmp (hat 7 _ rfl) hplace (.done ⟨rfl, ?_, rfl⟩))
      exact ⟨⟨rfl, rfl, rfl, rfl⟩, rfl, rfl, rfl, rfl, rfl, rfl⟩
  · have htaken : (!decide (b = (-1 : Int32).toInt64)) = true := by
      rw [himm, decide_eq_false hminus]
      rfl
    cases result with
    | quotient =>
      have hplace := hlinked.place_eq (hat 5 _ rfl) rfl (hat 9 _ rfl)
      refine .taken (hat 5 _ rfl) rfl htaken hplace (.trans
        (leads_roundingCode hlinked (hat.slice 10 11) hzero hminus hq rfl rfl) ?_)
      rintro v' _ ⟨rfl, hagrees, hlive⟩
      refine .bind (hat 21 _ rfl) (.done ⟨rfl, .trans ?_ hagrees, hlive⟩)
      exact ⟨⟨rfl, rfl, rfl, rfl⟩, rfl, rfl, rfl, rfl, rfl, rfl⟩
    | remainder =>
      have hplace := hlinked.place_eq (hat 5 _ rfl) rfl (hat 8 _ rfl)
      refine .taken (hat 5 _ rfl) rfl htaken hplace (.trans
        (leads_roundingCode hlinked (hat.slice 9 11) hzero hminus hq rfl rfl) ?_)
      rintro v' _ ⟨rfl, hagrees, hlive⟩
      refine .bind (hat 20 _ rfl) (.done ⟨rfl, .trans ?_ hagrees, hlive⟩)
      exact ⟨⟨rfl, rfl, rfl, rfl⟩, rfl, rfl, rfl, rfl, rfl, rfl⟩

/-- A division by zero. -/
theorem rejects_divisionCode (result : DivisionResult) (a : Int64) :
    Rejects (divisionCode result byZero normal exact done) [.int 0, .int a] byZero := by
  intro code v n rest hlinked hat hlive
  rcases v with ⟨regs, flags, live, dead, board, results⟩
  dsimp only at hlive
  subst hlive
  obtain ⟨j, -, hplace⟩ := hlinked.exists_place (hat 3 _ rfl) rfl
  refine .block (hat.slice 0 3) rfl (.taken (hat 3 _ rfl) rfl rfl hplace ?_)
  exact .done ⟨hplace, ⟨⟨rfl, rfl, rfl, rfl⟩, rfl, rfl, rfl, rfl, rfl, rfl⟩, rfl⟩

end Division

end Native
end Gobstones
