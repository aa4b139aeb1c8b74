import Gobstones.Proofs.Object.Stopping
import Gobstones.Proofs.Program.Resolution
/-!
# Sources of what is read

This module says where the parts of a program come from: every header and every instruction is
read from the tokens of one line.  So all names in a program that was read consist of characters
of words, although the name of a routine may be empty.

Main definitions:

- {lit}`Instruction.Operands`: the operands from which an instruction is read.
- {lit}`Instruction.ReadFrom`, {lit}`Header.ReadFrom` and {lit}`Routine.ReadFrom`: what is read
  from given lines.

Main results:

- Theorem {lit}`operands_of_readInstruction`: what is read as an instruction.
- Theorem {lit}`Instruction.Operands.legible`: an instruction that was read can be written.
- Theorem {lit}`readFrom_of_readObject`: every routine of a program is read from its text.
-/

namespace Gobstones

open ObjectText

/-! ## Operands of instructions -/

/-- The operands from which an instruction is read. -/
inductive Instruction.Operands : Instruction → List Token → Prop
  | pushConst {text : String} {value : Value} (h : constantOf text = .ok value) :
      Operands (.pushConst value) [.word text]
  | pushFrom (name : String) : Operands (.pushFrom name) [.word name]
  | popTo (name : String) : Operands (.popTo name) [.word name]
  | delVar (name : String) : Operands (.delVar name) [.word name]
  | setImmutable (name : String) : Operands (.setImmutable name) [.word name]
  | unsetImmutable (name : String) : Operands (.unsetImmutable name) [.word name]
  | call (name : String) {count : String} {argc : Nat} (h : countOf count = .ok argc) :
      Operands (.call (unmarked name) argc) [.word name, .word count]
  | raise (message : Token) : Operands (.raise message.text) [message]
  | label (name : String) : Operands (.label name) [.word name]
  | jump (name : String) : Operands (.jump name) [.word name]
  | jumpIfFalse (name : String) : Operands (.jumpIfFalse name) [.word name]
  | jumpIfNotIn (name : String) {tokens : List Token} {values : List Value}
      (h : (tokens.mapM fun token => do constantOf (← expectWord token)) = .ok values) :
      Operands (.jumpIfNotIn values name) (.word name :: tokens)
  | ret {count : String} {n : Nat} (h : countOf count = .ok n) : Operands (.ret n) [.word count]
  | returnVars {count : String} {n : Nat} (h : countOf count = .ok n) (names : List String) :
      Operands (.returnVars n names) (.word count :: names.map .word)
  | enter : Operands .enter []
  | leave : Operands .leave []

theorem eq_of_singleWord {opcode : Opcode} {operands : List Token} {text : String}
    (h : singleWord opcode operands = .ok text) : operands = [.word text] := by
  obtain ⟨⟨word, rest⟩, hword, h⟩ := exists_of_bind_eq_ok h
  obtain ⟨u, hmore, h⟩ := exists_of_bind_eq_ok h
  obtain rfl := Except.ok.inj h
  rw [eq_cons_of_nextWord hword, eq_nil_of_noMore hmore]

/-- What an opcode and its operands are read as. -/
theorem operands_of_readOperands {opcode : Opcode} {operands : List Token}
    {instruction : Instruction} (h : readOperands opcode operands = .ok instruction) :
    instruction.opcode = opcode ∧ instruction.Operands operands := by
  cases opcode with
  | pushConst =>
    obtain ⟨text, htext, h⟩ := exists_of_bind_eq_ok h
    obtain ⟨value, hvalue, h⟩ := exists_of_bind_eq_ok h
    obtain rfl := Except.ok.inj h
    obtain rfl := eq_of_singleWord htext
    exact ⟨rfl, .pushConst hvalue⟩
  | pushFrom | popTo | delVar | setImmutable | unsetImmutable | label | jump | jumpIfFalse =>
    obtain ⟨name, hname, h⟩ := exists_of_bind_eq_ok h
    obtain rfl := Except.ok.inj h
    obtain rfl := eq_of_singleWord hname
    exact ⟨rfl, by constructor⟩
  | call =>
    obtain ⟨⟨name, rest⟩, hname, h⟩ := exists_of_bind_eq_ok h
    obtain ⟨⟨count, others⟩, hcount, h⟩ := exists_of_bind_eq_ok h
    obtain ⟨argc, hargc, h⟩ := exists_of_bind_eq_ok h
    obtain ⟨u, hmore, h⟩ := exists_of_bind_eq_ok h
    obtain rfl := Except.ok.inj h
    rw [eq_cons_of_nextWord hname, eq_cons_of_nextWord hcount, eq_nil_of_noMore hmore]
    exact ⟨rfl, .call name hargc⟩
  | raise =>
    cases operands with
    | nil => cases h
    | cons message rest =>
      obtain ⟨u, hmore, h⟩ := exists_of_bind_eq_ok h
      obtain rfl := Except.ok.inj h
      obtain rfl := eq_nil_of_noMore hmore
      exact ⟨rfl, .raise message⟩
  | jumpIfNotIn =>
    obtain ⟨⟨name, rest⟩, hname, h⟩ := exists_of_bind_eq_ok h
    obtain ⟨values, hvalues, h⟩ := exists_of_bind_eq_ok h
    obtain rfl := Except.ok.inj h
    rw [eq_cons_of_nextWord hname]
    exact ⟨rfl, .jumpIfNotIn name hvalues⟩
  | ret =>
    obtain ⟨⟨count, rest⟩, hcount, h⟩ := exists_of_bind_eq_ok h
    obtain ⟨n, hn, h⟩ := exists_of_bind_eq_ok h
    obtain ⟨u, hmore, h⟩ := exists_of_bind_eq_ok h
    obtain rfl := Except.ok.inj h
    rw [eq_cons_of_nextWord hcount, eq_nil_of_noMore hmore]
    exact ⟨rfl, .ret hn⟩
  | returnVars =>
    obtain ⟨⟨count, rest⟩, hcount, h⟩ := exists_of_bind_eq_ok h
    obtain ⟨n, hn, h⟩ := exists_of_bind_eq_ok h
    obtain ⟨names, hnames, h⟩ := exists_of_bind_eq_ok h
    obtain rfl := Except.ok.inj h
    rw [eq_cons_of_nextWord hcount, eq_map_word_of_allWords hnames]
    exact ⟨rfl, .returnVars hn names⟩
  | enter | leave =>
    obtain ⟨u, hmore, h⟩ := exists_of_bind_eq_ok h
    obtain rfl := Except.ok.inj h
    obtain rfl := eq_nil_of_noMore hmore
    exact ⟨rfl, by constructor⟩

/-- What the tokens of a line are read as. -/
theorem operands_of_readInstruction {first : Token} {operands : List Token}
    {instruction : Instruction} (h : readInstruction first operands = .ok instruction) :
    Opcode.ofWord? first.text = some instruction.opcode ∧ instruction.Operands operands := by
  unfold readInstruction at h
  split at h
  · cases h
  · next opcode hopcode =>
    obtain ⟨rfl, hoperands⟩ := operands_of_readOperands h
    exact ⟨hopcode, hoperands⟩

theorem lt_of_countOf {text : String} {n : Nat} (h : countOf text = .ok n) : n < UInt64.size := by
  unfold countOf at h
  split at h
  · next hvalue => exact Except.ok.inj h ▸ Numeral.lt_of_uint64? hvalue
  · cases h

theorem isWordChar_of_mem_unmarked {name : String} (h : ∀ c ∈ name.toList, Token.isWordChar c) :
    ∀ c ∈ (unmarked name).toList, Token.isWordChar c := by
  unfold unmarked
  split
  · next rest heq => simpa using fun c hc => h c (by simp [heq, hc])
  · exact h

namespace Instruction.Operands

variable {instruction : Instruction} {operands : List Token} (h : instruction.Operands operands)
  (hoperands : ∀ token ∈ operands, token.Legible)

include h hoperands

/-- An instruction that was read from legible operands is legible itself. -/
theorem legible : instruction.Legible where
  count n hn := by
    cases h with
    | call name hcount | ret hcount | returnVars hcount names =>
      exact Option.some.inj hn ▸ lt_of_countOf hcount
    | _ => cases hn
  localName name hname := by
    cases h with
    | pushFrom written | popTo written | delVar written | setImmutable written
    | unsetImmutable written =>
      exact Option.some.inj hname ▸ hoperands (.word written) List.mem_cons_self
    | _ => cases hname
  labelName name hname := by
    cases h with
    | label written | jump written | jumpIfFalse written | jumpIfNotIn written hvalues =>
      exact Option.some.inj hname ▸ hoperands (.word written) List.mem_cons_self
    | _ => cases hname
  returned name hname := by
    cases h with
    | returnVars hcount names =>
      exact hoperands (.word name) (List.mem_cons_of_mem _ (List.mem_map_of_mem hname))
    | _ => cases hname

/-- A called name consists of characters of words, but it may be empty. -/
theorem isWordChar_callName {name : String} (hname : instruction.callName? = some name) :
    ∀ c ∈ name.toList, Token.isWordChar c := by
  cases h with
  | call written hcount =>
    obtain rfl := Option.some.inj hname
    have hwritten : Token.IsWord written := hoperands _ List.mem_cons_self
    exact isWordChar_of_mem_unmarked hwritten.2
  | _ => cases hname

end Instruction.Operands

/-! ## Lines of routines -/

/-- An instruction that is read from one of the lines. -/
def Instruction.ReadFrom (lines : List (List Char)) (instruction : Instruction) : Prop :=
  ∃ cs ∈ lines, ∃ first operands, Token.ofLine? cs = some (first :: operands) ∧
    readInstruction first operands = .ok instruction

/-- A header that is read from one of the lines. -/
def Header.ReadFrom (lines : List (List Char)) (header : Header) : Prop :=
  ∃ cs ∈ lines, ∃ line first operands, Token.ofLine? cs = some (first :: operands) ∧
    readHeader line first operands = .ok header

/-- A routine whose header and instructions are read from the lines. -/
structure Routine.ReadFrom (lines : List (List Char)) (routine : Routine) : Prop where
  header : ∃ header : Header, header.ReadFrom lines ∧ routine.kind = header.kind ∧
    routine.name = header.name ∧ routine.params = header.params
  code : ∀ instruction ∈ routine.code, instruction.ReadFrom lines

section

variable {lines : List (List Char)}

theorem Instruction.ReadFrom.append {instruction : Instruction} (h : instruction.ReadFrom lines)
    (more : List (List Char)) : instruction.ReadFrom (lines ++ more) := by
  obtain ⟨cs, hcs, htokens⟩ := h
  exact ⟨cs, List.mem_append_left more hcs, htokens⟩

/-- The operands from which an instruction is read are legible. -/
theorem Instruction.ReadFrom.exists_operands {instruction : Instruction}
    (h : instruction.ReadFrom lines) :
    ∃ operands, instruction.Operands operands ∧ ∀ token ∈ operands, token.Legible := by
  obtain ⟨cs, -, first, operands, htokens, hinstruction⟩ := h
  exact ⟨operands, (operands_of_readInstruction hinstruction).2,
    (List.forall_mem_cons.1 (Token.legible_of_ofLine? htokens)).2⟩

theorem Header.ReadFrom.append {header : Header} (h : header.ReadFrom lines)
    (more : List (List Char)) : header.ReadFrom (lines ++ more) := by
  obtain ⟨cs, hcs, htokens⟩ := h
  exact ⟨cs, List.mem_append_left more hcs, htokens⟩

theorem Routine.ReadFrom.append {routine : Routine} (h : routine.ReadFrom lines)
    (more : List (List Char)) : routine.ReadFrom (lines ++ more) := by
  obtain ⟨⟨header, hheader, hparts⟩, hcode⟩ := h
  exact ⟨⟨header, hheader.append more, hparts⟩, fun instruction hmem =>
    (hcode instruction hmem).append more⟩

end

namespace Reader

/-- All that the reader has read comes from the lines that were read. -/
structure Sourced (lines : List (List Char)) (reader : Reader) : Prop where
  routines : ∀ routine ∈ reader.routines, routine.ReadFrom lines
  current : ∀ routines header code, reader = within routines header code →
    header.ReadFrom lines ∧ ∀ instruction ∈ code, instruction.ReadFrom lines

/-- What was read before still comes from the lines. -/
theorem Sourced.append {lines : List (List Char)} {reader : Reader} (h : reader.Sourced lines)
    (more : List (List Char)) : reader.Sourced (lines ++ more) where
  routines routine hmem := (h.routines routine hmem).append more
  current routines header code heq :=
    ⟨(h.current routines header code heq).1.append more, fun instruction hmem =>
      ((h.current routines header code heq).2 instruction hmem).append more⟩

/-- A line is the source of what is read from it. -/
theorem Sourced.step {before : List (List Char)} {reader next : Reader}
    (h : reader.Sourced before) {cs : List Char}
    (hstep : reader.step (before.length + 1) cs = .ok next) : next.Sourced (before ++ [cs]) := by
  have hbefore := h.append [cs]
  by_cases hdone : ∃ routines, reader = done routines
  · obtain ⟨routines, rfl⟩ := hdone
    obtain rfl := Except.ok.inj hstep
    exact hbefore
  rcases goes_of_step (fun routines heq => hdone ⟨routines, heq⟩) hstep with
    ⟨-, rfl⟩ | ⟨first, operands, htokens, hgoes⟩
  · exact hbefore
  cases hgoes with
  | header => exact ⟨List.forall_mem_nil _, by simp⟩
  | terminator hfirst => exact ⟨hbefore.routines, by simp⟩
  | @opens routines first operands header hfirst hheader =>
    refine ⟨hbefore.routines, fun _ _ _ heq => ?_⟩
    obtain ⟨rfl, rfl, rfl⟩ := within.inj heq
    exact ⟨⟨cs, by simp, _, first, operands, htokens, hheader⟩, by simp⟩
  | @instruction routines header code first operands instruction hfirst hinstruction =>
    refine ⟨hbefore.routines, fun _ _ _ heq => ?_⟩
    obtain ⟨rfl, rfl, rfl⟩ := within.inj heq
    obtain ⟨hheader, hcode⟩ := hbefore.current _ _ _ rfl
    exact ⟨hheader,
      List.forall_mem_cons.2 ⟨⟨cs, by simp, first, operands, htokens, hinstruction⟩, hcode⟩⟩
  | @closes routines header code first routine hfirst hroutine hname =>
    obtain ⟨hheader, hcode⟩ := hbefore.current _ _ _ rfl
    obtain ⟨hkind, hroutineName, hparams, hbody⟩ := Routine.parts_of_new hroutine
    have hread : routine.ReadFrom (before ++ [cs]) := by
      refine ⟨⟨header, hheader, hkind, hroutineName, hparams⟩, fun instruction hmem => ?_⟩
      rw [← Array.mem_toList_iff, hbody, List.mem_reverse] at hmem
      exact hcode instruction hmem
    exact ⟨List.forall_mem_cons.2 ⟨hread, hbefore.routines⟩, by simp⟩

theorem sourced_of_run {lines : List (List Char)} {reader : Reader}
    (h : start.run 1 lines = .ok reader) : reader.Sourced lines :=
  run_induction ⟨List.forall_mem_nil _, by simp⟩
    (fun _ _ _ _ hsourced hstep => hsourced.step hstep) h

end Reader

/-- A program that was read consists of routines that were read from the lines of its text. -/
theorem readFrom_of_readObject {text : String} {program : Program}
    (h : readObject text = .ok program) :
    program.links = [] ∧ program.builtins = BuiltinTable.standard ∧
      ∀ routine ∈ program.routines, routine.ReadFrom (lines text) := by
  rcases readObject_cases text with ⟨error, -, hread⟩ | ⟨_, _, -, -, hread⟩ |
    ⟨routines, other, hrun, hnew, hread⟩
  · cases h.symm.trans hread
  · cases h.symm.trans hread
  · obtain rfl := Except.ok.inj (h.symm.trans hread)
    obtain ⟨-, hbuiltins, hlinks, hroutines⟩ := Program.parts_of_new hnew
    refine ⟨hlinks, hbuiltins, fun routine hmem => ?_⟩
    rw [hroutines, List.mem_reverse] at hmem
    exact (Reader.sourced_of_run hrun).routines routine hmem

end Gobstones
