import Mathlib.Data.List.Forall2
import Gobstones.Object.Reader
import Gobstones.Proofs.Object.Session
import Gobstones.Proofs.Object.Token
import Gobstones.Proofs.Program.Renaming
import Gobstones.Proofs.Text.Numeral
/-!
# Written objects read back

This module shows what reading makes of a written object: the listed routines, in their
order, under the names with which the writing session ends.

Main definitions:

- {lit}`Instruction.Legible`, {lit}`Routine.Legible` and {lit}`Listed.Legible`: names and
  counts that can be written.
- {lit}`Naming.names`: the names under which the routines of a module are read.
- {lit}`Naming.Reads`: a routine is read for a listed one.

Main results:

- Theorem {lit}`readInstruction_operands`: instructions are read under their new names.
- Theorem {lit}`Naming.EndsSession.exists_readObject`: a written object is read.
-/

namespace Gobstones

/-! ## Writable names and counts -/

namespace Instruction

/-- The count that an instruction is written with. -/
def count? : Instruction → Option Nat
  | call _ argc => some argc
  | ret n => some n
  | returnVars n _ => some n
  | _ => none

/-- The variables, labels and returned names of an instruction are words, and its count
fits into 64 bits. -/
structure Legible (instruction : Instruction) : Prop where
  count : ∀ n, instruction.count? = some n → n < UInt64.size
  localName : ∀ name, instruction.localName? = some name → Token.IsWord name
  labelName : ∀ name, instruction.labelName? = some name → Token.IsWord name
  returned : ∀ name ∈ instruction.returnedNames, Token.IsWord name

instance (instruction : Instruction) : Decidable instruction.Legible :=
  decidable_of_iff
    ((∀ n ∈ instruction.count?, n < UInt64.size) ∧
      (∀ name ∈ instruction.localName?, Token.IsWord name) ∧
      (∀ name ∈ instruction.labelName?, Token.IsWord name) ∧
      ∀ name ∈ instruction.returnedNames, Token.IsWord name)
    ⟨fun ⟨hcount, hlocal, hlabel, hreturned⟩ => ⟨hcount, hlocal, hlabel, hreturned⟩,
      fun h => ⟨h.count, h.localName, h.labelName, h.returned⟩⟩

end Instruction

/-! ## Operands -/

@[simp]
theorem countOf_ofNat {n : Nat} (h : n < UInt64.size) :
    countOf (String.ofList (Numeral.ofNat n)) = .ok n := by
  simp [countOf, Numeral.uint64?_ofNat h]

@[simp]
theorem constantOf_text (value : Value) : constantOf value.text = .ok value := by
  simp [constantOf]

@[simp]
theorem allWords_map_word (names : List String) : allWords (names.map .word) = .ok names := by
  unfold allWords
  induction names with
  | nil => rfl
  | cons name rest ih =>
    simp only [List.map_cons, List.mapM_cons, ih]
    rfl

theorem mapM_constantOf (values : List Value) :
    (values.map fun value => Token.word value.text).mapM
      (fun token => do constantOf (← expectWord token)) = .ok values := by
  induction values with
  | nil => rfl
  | cons value rest ih =>
    simp only [List.map_cons, List.mapM_cons, ih]
    simp [expectWord, bind, Except.bind]
    rfl

namespace Naming

/-- The names under which the routines of a program are read. -/
def names (naming : Naming) (program : Program) : Renaming where
  callName name := unmarked (naming.routineName program name).1
  localName name := (naming.variableName name).1
  labelName name := (naming.labelName name).1

end Naming

/-- The operands of an instruction are read under its new names. -/
theorem readOperands_operands (naming : Naming) (program : Program) {instruction : Instruction}
    (h : ∀ n, instruction.count? = some n → n < UInt64.size) :
    readOperands instruction.opcode (naming.operands program instruction).1 =
      .ok (instruction.rename (naming.names program)) := by
  cases instruction with
  | pushConst value =>
    calc
      _ = do return Instruction.pushConst (← constantOf value.text) := rfl
      _ = _ := by
        rw [constantOf_text]
        rfl
  | call name argc =>
    calc
      _ = do
          return Instruction.call (unmarked (naming.routineName program name).1)
            (← countOf (String.ofList (Numeral.ofNat argc))) := rfl
      _ = _ := by
        rw [countOf_ofNat (h argc rfl)]
        rfl
  | jumpIfNotIn values name =>
    calc
      _ = do
          return Instruction.jumpIfNotIn
            (← (values.map fun value : Value => Token.word value.text).mapM fun token => do
              constantOf (← expectWord token)) (naming.labelName name).1 := rfl
      _ = _ := by
        rw [mapM_constantOf]
        rfl
  | ret n =>
    calc
      _ = do return Instruction.ret (← countOf (String.ofList (Numeral.ofNat n))) := rfl
      _ = _ := by
        rw [countOf_ofNat (h n rfl)]
        rfl
  | returnVars n names =>
    calc
      _ = do
          let n ← countOf (String.ofList (Numeral.ofNat n))
          return Instruction.returnVars n (← allWords (names.map .word)) := rfl
      _ = _ := by
        rw [countOf_ofNat (h n rfl), allWords_map_word]
        rfl
  | _ => rfl

/-- Instructions are read under their new names, in either spelling. -/
theorem readInstruction_operands (naming : Naming) (program : Program) (style : Style)
    {instruction : Instruction} (h : ∀ n, instruction.count? = some n → n < UInt64.size) :
    readInstruction (.word (instruction.opcode.spelling style))
        (naming.operands program instruction).1 =
      .ok (instruction.rename (naming.names program)) := by
  rw [readInstruction, Token.text, Opcode.ofWord?_spelling]
  exact readOperands_operands naming program h

/-! ## Written tokens are words -/

theorem Token.isWord_spelling (opcode : Opcode) (style : Style) :
    Token.IsWord (opcode.spelling style) := by
  cases opcode <;> cases style <;> decide

theorem Token.isWord_keyword (kind : RoutineKind) (style : Style) :
    Token.IsWord (kind.spelling style) := by
  cases kind <;> cases style <;> decide

@[simp]
theorem Naming.legible_countWord (n : Nat) : (Naming.countWord n).Legible := by
  obtain ⟨c, cs, hcons, -⟩ := Numeral.exists_ofNat_eq_cons n
  constructor
  · simp [hcons]
  · simpa using fun c hc => Token.isWordChar_of_isDigit (Numeral.isDigit_of_mem_ofNat hc)

namespace Naming

theorem isWord_generated {initial : Char} (h : Token.isWordChar initial) (n : Nat) :
    Token.IsWord (generated initial n) := by
  have hall : ∀ c ∈ alphabet, Token.isWordChar c := List.all_eq_true.1 (by decide)
  constructor
  · simp [generated]
  · simpa [generated, h] using fun c hc => hall c (mem_alphabet_of_mem_digits hc)

theorem isWord_chooseFrom {α : Type} [BEq α] [LawfulBEq α] {initial : Char}
    {table : List (α × String)} (h : Token.isWordChar initial)
    (htable : NumberedTable initial table) (key : α) : Token.IsWord (chooseFrom initial table key).1 := by
  obtain ⟨n, -, hn⟩ := (htable.chooseFrom key).exists_of_lookup (lookup_chooseFrom key)
  rw [hn]
  exact isWord_generated h n

variable {naming : Naming} (hnumbered : naming.Numbered)

include hnumbered

theorem isWord_variableName {name : String} (h : Token.IsWord name) :
    Token.IsWord (naming.variableName name).1 := by
  unfold variableName
  split
  · exact h
  · exact isWord_chooseFrom (by decide) hnumbered.locals name

theorem isWord_labelName {name : String} (h : Token.IsWord name) :
    Token.IsWord (naming.labelName name).1 := by
  unfold labelName
  split
  · exact h
  · exact isWord_chooseFrom (by decide) hnumbered.labels name

/-- The operands of an instruction with legible names can be written. -/
theorem legible_operands {program : Program} {instruction : Instruction}
    (h : instruction.Legible)
    (hcall : ∀ name, instruction.callName? = some name →
      Token.IsWord (naming.routineName program name).1) :
    ∀ token ∈ (naming.operands program instruction).1, token.Legible := by
  cases instruction with
  | pushConst value => simpa [operands] using Token.isWord_text value
  | pushFrom name | popTo name | delVar name | setImmutable name | unsetImmutable name =>
    simpa [operands] using isWord_variableName hnumbered (h.localName name rfl)
  | call name argc => simpa [operands] using hcall name rfl
  | label name | jump name | jumpIfFalse name =>
    simpa [operands] using isWord_labelName hnumbered (h.labelName name rfl)
  | jumpIfNotIn values name =>
    simpa [operands] using
      ⟨isWord_labelName hnumbered (h.labelName name rfl), fun v _ => Token.isWord_text v⟩
  | returnVars n names => simpa [operands, Instruction.returnedNames] using h.returned
  | _ => simp [operands]

end Naming

/-! ## Lines -/

theorem isLine_instructionLine {naming : Naming} (hnumbered : naming.Numbered) {program : Program}
    {instruction : Instruction} (h : instruction.Legible)
    (hcall : ∀ name, instruction.callName? = some name →
      Token.IsWord (naming.routineName program name).1) :
    IsLine (instructionLine naming program instruction).1 ∧
      Token.ofLine? (instructionLine naming program instruction).1 =
        some (.word (instruction.opcode.spelling naming.style) ::
          (naming.operands program instruction).1) := by
  have hlegible : ∀ token ∈ Token.word (instruction.opcode.spelling naming.style) ::
      (naming.operands program instruction).1, token.Legible :=
    List.forall_mem_cons.2
      ⟨Token.isWord_spelling _ _, Naming.legible_operands hnumbered h hcall⟩
  have hline : IsLine naming.style.indentation := by cases naming.style <;> decide
  have hblank : ∀ c ∈ naming.style.indentation, Text.isBlank c :=
    List.all_eq_true.1 (by cases naming.style <;> decide)
  constructor
  · exact hline.append (Token.isLine_spaced fun token hmem => (hlegible token hmem).unbroken)
  · rw [instructionLine, Token.ofLine?_blanks hblank, Token.ofLine?_spaced hlegible]

namespace Reader

/-- Reading goes on line by line. -/
theorem run_append (reader : Reader) (line : Nat) (first rest : List (List Char)) :
    reader.run line (first ++ rest) =
      (reader.run line first).bind fun next => next.run (line + first.length) rest := by
  induction first generalizing reader line with
  | nil => rfl
  | cons cs first ih =>
    rw [List.cons_append, run, run]
    cases reader.step line cs with
    | error e => rfl
    | ok next =>
      have hlength : line + (cs :: first).length = line + 1 + first.length := by
        simp only [List.length_cons]
        omega
      rw [hlength]
      exact ih next (line + 1)

/-- A line with tokens is read unless everything was read before. -/
theorem step_of_tokens {reader : Reader} {line : Nat} {cs : List Char} {first : Token}
    {operands : List Token} (h : Token.ofLine? cs = some (first :: operands))
    (hreader : ∀ routines, reader ≠ done routines) :
    reader.step line cs = reader.stepTokens line first operands := by
  unfold step
  split
  · next routines => exact absurd rfl (hreader routines)
  · rw [h]

theorem run_cons_of_step {reader next : Reader} {line : Nat} {cs : List Char}
    (h : reader.step line cs = .ok next) (rest : List (List Char)) :
    reader.run line (cs :: rest) = next.run (line + 1) rest := by
  rw [run, h]
  rfl

/-- The line of an instruction is read as the instruction under its new names. -/
theorem step_instructionLine {naming : Naming} (hnumbered : naming.Numbered) {program : Program}
    {instruction : Instruction} (h : instruction.Legible)
    (hcall : ∀ name, instruction.callName? = some name →
      Token.IsWord (naming.routineName program name).1)
    (routines : List Routine) (header : Header) (code : List Instruction) (line : Nat) :
    (within routines header code).step line (instructionLine naming program instruction).1 =
      .ok (within routines header (instruction.rename (naming.names program) :: code)) := by
  have hopen : Style.isClosing (instruction.opcode.spelling naming.style) = false := by
    cases instruction.opcode <;> cases naming.style <;> decide
  rw [step_of_tokens (isLine_instructionLine hnumbered h hcall).2 (by simp), stepTokens,
    Token.text, if_neg (by simp [hopen]), readInstruction_operands naming program _ h.count]
  rfl

/-- The lines of instructions are read in turn. -/
theorem run_instructionLines {naming : Naming} (hnumbered : naming.Numbered) {program : Program}
    {instructions : List Instruction} (h : ∀ instruction ∈ instructions, instruction.Legible)
    (hcall : ∀ instruction ∈ instructions, ∀ name, instruction.callName? = some name →
      Token.IsWord (naming.routineName program name).1)
    (routines : List Routine) (header : Header) (code : List Instruction) (line : Nat) :
    (within routines header code).run line
        (instructions.map fun instruction => (instructionLine naming program instruction).1) =
      .ok (within routines header
        ((instructions.map (Instruction.rename (naming.names program))).reverse ++ code)) := by
  induction instructions generalizing code line with
  | nil => rfl
  | cons instruction rest ih =>
    rw [List.forall_mem_cons] at h hcall
    rw [List.map_cons, run_cons_of_step (step_instructionLine hnumbered h.1 hcall.1 ..),
      ih h.2 hcall.2]
    simp

end Reader

/-! ## Routines -/

/-- The names of a routine, its parameters and its instructions can be written. -/
structure Routine.Legible (routine : Routine) : Prop where
  name : Token.IsWord routine.name
  params : ∀ name ∈ routine.params, Token.IsWord name
  code : ∀ instruction ∈ routine.code, instruction.Legible

instance (routine : Routine) : Decidable routine.Legible :=
  decidable_of_iff
    (Token.IsWord routine.name ∧ (∀ name ∈ routine.params, Token.IsWord name) ∧
      ∀ instruction ∈ routine.code, instruction.Legible)
    ⟨fun ⟨hname, hparams, hcode⟩ => ⟨hname, hparams, hcode⟩,
      fun h => ⟨h.name, h.params, h.code⟩⟩

/-- A listed routine can be written under the names of a session. -/
structure Listed.Legible (naming : Naming) (entry : Listed) : Prop where
  name : Token.IsWord entry.name
  params : ∀ name ∈ entry.routine.params, Token.IsWord name
  code : ∀ instruction ∈ entry.routine.code, instruction.Legible
  calls : ∀ instruction ∈ entry.routine.code, ∀ name, instruction.callName? = some name →
    Token.IsWord (naming.routineName entry.program name).1

namespace Naming

/-- The names under which a listed routine is read. -/
def namesOf (naming : Naming) (entry : Listed) : Renaming :=
  (naming.keepResults entry.routine).names entry.program

/-- A routine is read for a listed one. -/
structure Reads (naming : Naming) (entry : Listed) (routine : Routine) : Prop where
  name : routine.name = unmarked entry.name
  renamed : entry.routine.IsRenamed (naming.namesOf entry) routine

/-- The lines of a listed routine. -/
def linesOf (naming : Naming) (entry : Listed) : List (List Char) :=
  (routineLines naming entry.name entry.program entry.routine).1

end Naming

/-- The line of a header is read. -/
theorem readHeader_words (line : Nat) (kind : RoutineKind) (style : Style) (name : String)
    (params : List String) :
    readHeader line (.word (kind.spelling style)) (.word name :: params.map .word) =
      .ok { line, kind, name := unmarked name, params } := by
  simp only [readHeader, expectWord, nextWord, RoutineKind.ofWord?_spelling, allWords_map_word,
    Except.map, bind, Except.bind, pure, Except.pure]

theorem Naming.Settled.labelName {naming : Naming} {program : Program} {routine : Routine}
    (h : naming.Settled program routine) {name : String} (hname : name ∈ routine.labelNames) :
    (naming.labelName name).2 = naming := by
  obtain ⟨instruction, hmem, hlabel⟩ := hname
  have hoperands := h.code instruction hmem
  cases instruction <;> simp_all [Instruction.labelName?, Instruction.jumpLabel?, Naming.operands]

/-- Calls are written with words, whichever variables keep their names. -/
theorem Listed.Legible.isWord_call {naming : Naming} {entry : Listed} (h : entry.Legible naming) :
    ∀ instruction ∈ entry.routine.code.toList, ∀ name, instruction.callName? = some name →
      Token.IsWord ((naming.keepResults entry.routine).routineName entry.program name).1 := by
  intro instruction hmem name hname
  rw [Naming.routineName_keepResults]
  exact h.calls instruction (Array.mem_toList_iff.1 hmem) name hname

namespace Naming

/-- The tokens of the header of a listed routine. -/
def headerOf (naming : Naming) (entry : Listed) : List Token :=
  .word (entry.routine.kind.spelling naming.style) :: .word entry.name ::
    (entry.routine.params.map (naming.namesOf entry).localName).map .word

theorem Numbered.keepResults {naming : Naming} (h : naming.Numbered) (routine : Routine) :
    (naming.keepResults routine).Numbered :=
  ⟨h.routines, h.locals, h.labels⟩

section

variable {naming : Naming} (hnumbered : naming.Numbered) {entry : Listed}
  (hsettled : (naming.keepResults entry.routine).Settled entry.program entry.routine)
  (hlegible : entry.Legible naming)

include hsettled in
theorem linesOf_eq : naming.linesOf entry =
    spaced (naming.headerOf entry) ::
      entry.routine.code.toList.map (fun instruction =>
        (instructionLine (naming.keepResults entry.routine) entry.program instruction).1) ++
      [naming.style.closing.toList, []] :=
  routineLines_of_settled hsettled entry.name

include hnumbered hlegible in
theorem legible_headerOf : ∀ token ∈ naming.headerOf entry, token.Legible := by
  have hparams : ∀ name ∈ entry.routine.params,
      Token.IsWord ((naming.keepResults entry.routine).variableName name).1 := fun name hmem =>
    isWord_variableName (hnumbered.keepResults entry.routine) (hlegible.params name hmem)
  simpa [headerOf] using
    ⟨Token.isWord_keyword entry.routine.kind naming.style, hlegible.name, hparams⟩

include hnumbered hsettled hlegible in
theorem isLine_linesOf : ∀ line ∈ naming.linesOf entry, IsLine line := by
  rw [linesOf_eq hsettled, List.cons_append, List.forall_mem_cons]
  refine ⟨Token.isLine_spaced fun token hmem =>
    (legible_headerOf hnumbered hlegible token hmem).unbroken, fun line hline => ?_⟩
  rcases List.mem_append.1 hline with hline | hline
  · obtain ⟨instruction, hmem, rfl⟩ := List.mem_map.1 hline
    exact (isLine_instructionLine (hnumbered.keepResults entry.routine)
      (hlegible.code instruction (Array.mem_toList_iff.1 hmem))
      (hlegible.isWord_call instruction hmem)).1
  · have hclosing : IsLine naming.style.closing.toList := by cases naming.style <;> decide
    simp only [List.mem_cons, List.not_mem_nil, or_false] at hline
    rcases hline with rfl | rfl
    · exact hclosing
    · decide

end

end Naming

namespace Reader

/-- The header of a listed routine is read. -/
theorem step_headerOf {naming : Naming} (hnumbered : naming.Numbered) {entry : Listed}
    (hlegible : entry.Legible naming) (routines : List Routine) (line : Nat) :
    (between routines).step line (spaced (naming.headerOf entry)) =
      .ok (within routines
        { line, kind := entry.routine.kind, name := unmarked entry.name,
          params := entry.routine.params.map (naming.namesOf entry).localName } []) := by
  have hkind : entry.routine.kind.spelling naming.style ≠ ObjectText.terminator := by
    cases entry.routine.kind <;> cases naming.style <;> decide
  have htokens := Token.ofLine?_spaced (Naming.legible_headerOf hnumbered hlegible)
  rw [Naming.headerOf] at htokens ⊢
  rw [step_of_tokens htokens (by simp), stepTokens, Token.text, if_neg hkind, readHeader_words]
  rfl

/-- The closing word completes a routine. -/
theorem step_closing (routines : List Routine) (header : Header) (code : List Instruction)
    (style : Style) (line : Nat) :
    (within routines header code).step line style.closing.toList =
      complete routines header code := by
  have hword : Token.IsWord style.closing ∧ Style.isClosing style.closing := by
    cases style <;> decide
  rw [step_of_tokens (Token.ofLine?_toList hword.1) (by simp), stepTokens, Token.text,
    if_pos hword.2]
  rfl

/-- A blank line is skipped. -/
theorem run_blank (routines : List Routine) (line : Nat) :
    (between routines).run line [[]] = .ok (between routines) := by
  rw [run, step, Token.ofLine?]
  · rfl
  · simp

/-- The lines of a listed routine are read as one routine. -/
theorem exists_run_linesOf {naming : Naming} (hnumbered : naming.Numbered) {entry : Listed}
    (hsettled : (naming.keepResults entry.routine).Settled entry.program entry.routine)
    (hlegible : entry.Legible naming) :
    ∃ routine, naming.Reads entry routine ∧ ∀ routines line,
      unmarked entry.name ∉ routines.map Routine.name →
      (between routines).run line (naming.linesOf entry) = .ok (between (routine :: routines)) := by
  have hcode : ∀ instruction ∈ entry.routine.code.toList, instruction.Legible :=
    fun instruction hmem => hlegible.code instruction (Array.mem_toList_iff.1 hmem)
  have hlabels : Set.InjOn (naming.namesOf entry).labelName entry.routine.labelNames :=
    fun _ hfirst _ hsecond heq => Naming.labelName_inj (hnumbered.keepResults entry.routine)
      (hsettled.labelName hfirst) (hsettled.labelName hsecond) heq
  obtain ⟨routine, hnew, hname, hrenamed⟩ :=
    Routine.exists_new_rename hlabels (unmarked entry.name)
  refine ⟨routine, ⟨hname, hrenamed⟩, fun routines line hfresh => ?_⟩
  have hcomplete : complete routines
      { line, kind := entry.routine.kind, name := unmarked entry.name,
        params := entry.routine.params.map (naming.namesOf entry).localName }
      (entry.routine.code.toList.map (Instruction.rename (naming.namesOf entry))).reverse =
      .ok (between (routine :: routines)) := by
    rw [complete, List.reverse_reverse, hnew]
    simp only
    rw [if_neg (by rwa [hname])]
  rw [Naming.linesOf_eq hsettled, List.cons_append,
    run_cons_of_step (step_headerOf hnumbered hlegible routines line), run_append,
    run_instructionLines (hnumbered.keepResults entry.routine) hcode hlegible.isWord_call]
  simp only [Except.bind, List.append_nil]
  exact (run_cons_of_step ((step_closing ..).trans hcomplete) [[]]).trans (run_blank ..)

end Reader

/-! ## Objects -/

/-- A program of given routines has no links and the standard builtins. -/
theorem Program.parts_of_new {routines : List Routine} {program : Program}
    (h : new routines = .ok program) : program.moduleName = "main" ∧
      program.builtins = BuiltinTable.standard ∧ program.links = [] ∧
      program.routines = routines := by
  unfold new at h
  split at h
  · cases h
  · obtain rfl := Except.ok.inj h
    exact ⟨rfl, rfl, rfl, rfl⟩

/-- Routines with distinct names make up a program. -/
theorem Program.exists_new {routines : List Routine}
    (h : (routines.map Routine.name).Nodup) :
    ∃ program, new routines = .ok program := by
  have hfresh : firstRepeated? [] (routines.map Routine.name) = none := by
    rw [firstRepeated?_eq_none_iff]
    exact ⟨h, by simp⟩
  unfold new
  split
  · next hname => simp [hfresh] at hname
  · exact ⟨_, rfl⟩

namespace Naming

/-- Listed routines that can be written under distinct names are read in turn. -/
theorem exists_run_listed {naming : Naming} (hnumbered : naming.Numbered) {listed : List Listed}
    (hsettled : ∀ entry ∈ listed,
      (naming.keepResults entry.routine).Settled entry.program entry.routine)
    (hlegible : ∀ entry ∈ listed, entry.Legible naming)
    (hnames : (listed.map fun entry => unmarked entry.name).Nodup) :
    ∃ routines, List.Forall₂ naming.Reads listed routines ∧ ∀ before line,
      (∀ entry ∈ listed, unmarked entry.name ∉ before.map Routine.name) →
      (Reader.between before).run line (listed.flatMap naming.linesOf) =
        .ok (.between (routines.reverse ++ before)) := by
  induction listed with
  | nil => exact ⟨[], .nil, fun _ _ _ => rfl⟩
  | cons entry rest ih =>
    rw [List.forall_mem_cons] at hsettled hlegible
    rw [List.map_cons, List.nodup_cons] at hnames
    obtain ⟨routines, hreads, hrest⟩ := ih hsettled.2 hlegible.2 hnames.2
    obtain ⟨routine, hfirst, hrun⟩ :=
      Reader.exists_run_linesOf hnumbered hsettled.1 hlegible.1
    refine ⟨routine :: routines, .cons hfirst hreads, fun before line hfresh => ?_⟩
    rw [List.forall_mem_cons] at hfresh
    have hothers : ∀ other ∈ rest, unmarked other.name ∉ (routine :: before).map Routine.name := by
      intro other hother
      rw [List.map_cons, List.mem_cons, not_or, hfirst.name]
      refine ⟨fun heq => hnames.1 ?_, hfresh.2 other hother⟩
      rw [← heq]
      exact List.mem_map_of_mem hother
    rw [List.flatMap_cons, Reader.run_append, hrun before line hfresh.1]
    simp only [Except.bind]
    rw [hrest _ _ hothers]
    simp

theorem Reads.map_name {naming : Naming} {listed : List Listed} {routines : List Routine}
    (h : List.Forall₂ naming.Reads listed routines) :
    routines.map Routine.name = listed.map fun entry => unmarked entry.name := by
  induction h with
  | nil => rfl
  | cons hfirst _ ih => rw [List.map_cons, List.map_cons, hfirst.name, ih]

/-- The lines of an object are found again in its text. -/
theorem EndsSession.splitLines_writeObject {program : Program} {style : Style} {final : Naming}
    (h : EndsSession program style final)
    (hlegible : ∀ entry ∈ final.listing (program.collect []), entry.Legible final) :
    splitLines (writeObject program style).toList = objectLines program style := by
  have hframe : IsLine ObjectText.header.toList ∧ IsLine ObjectText.terminator.toList := by decide
  rw [writeObject, String.toList_ofList, splitLines_flatMap]
  rw [h.lines]
  intro line hline
  simp only [List.cons_append, List.mem_cons, List.mem_append, List.mem_flatMap,
    List.not_mem_nil, or_false] at hline
  rcases hline with rfl | ⟨entry, hentry, hline⟩ | rfl
  · exact hframe.1
  · exact isLine_linesOf h.numbered (h.settled entry hentry) (hlegible entry hentry) line hline
  · exact hframe.2

/-- A written object is read as the listed routines under the names with which the writing
ends. -/
theorem EndsSession.exists_readObject {program : Program} {style : Style} {final : Naming}
    (h : EndsSession program style final)
    (hlegible : ∀ entry ∈ final.listing (program.collect []), entry.Legible final)
    (hnames : ((final.listing (program.collect [])).map fun entry => unmarked entry.name).Nodup) :
    ∃ reread, readObject (writeObject program style) = .ok reread ∧
      reread.moduleName = "main" ∧ reread.builtins = BuiltinTable.standard ∧ reread.links = [] ∧
      List.Forall₂ final.Reads (final.listing (program.collect [])) reread.routines := by
  obtain ⟨routines, hreads, hrun⟩ := exists_run_listed h.numbered h.settled hlegible hnames
  have hheader (line : Nat) : Reader.start.step line ObjectText.header.toList =
      .ok (.between []) := by
    rw [Reader.step_of_tokens (Token.ofLine?_toList (by decide)) (by simp)]
    rfl
  have hterminator (line : Nat) : (Reader.between routines.reverse).step line
      ObjectText.terminator.toList = .ok (.done routines.reverse) := by
    rw [Reader.step_of_tokens (Token.ofLine?_toList (by decide)) (by simp)]
    rfl
  have hlines : Reader.start.run 1 (objectLines program style) = .ok (.done routines.reverse) := by
    have hlisted := hrun [] 2 (by simp)
    rw [List.append_nil] at hlisted
    rw [h.lines, List.cons_append, Reader.run_cons_of_step (hheader 1), Reader.run_append]
    refine (congrArg (Except.bind · _) hlisted).trans ?_
    exact Reader.run_cons_of_step (hterminator _) []
  obtain ⟨reread, hnew⟩ := Program.exists_new
    ((Reads.map_name hreads).symm ▸ hnames : (routines.map Routine.name).Nodup)
  obtain ⟨hmodule, hbuiltins, hlinks, rfl⟩ := Program.parts_of_new hnew
  refine ⟨reread, ?_, hmodule, hbuiltins, hlinks, hreads⟩
  simp only [readObject, h.splitLines_writeObject hlegible, hlines, hnew, Reader.finish,
    List.reverse_reverse, bind, Except.bind, Except.mapError, Reader.located]

end Naming

end Gobstones
