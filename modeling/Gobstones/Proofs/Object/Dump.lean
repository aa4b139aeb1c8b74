import Mathlib.Data.Finset.Max
import Gobstones.Proofs.Object.Sources
import Gobstones.Proofs.Object.Variables
import Gobstones.Proofs.Object.Verbose
/-!
# Dumped texts

This module says for which texts the verbose text of what was read is a fixed point: it is read
as the same routines again, and they are written as the same text.  The reader takes a dollar sign
from every called name, and the writer gives one back only if a routine has that name.  So all
depends on the called names that stand for nothing.

Main definitions:

- {lit}`Program.calledNames` and {lit}`Program.illegibleNames`: the names that a program calls, and
  those of them that are not read as they are written.
- {lit}`Program.AsRead`: what every program has that was read.
- {lit}`Program.verboseNames`: the words of verbose style.

Main results:

- Theorem {lit}`Program.asRead_of_readObject`: what the names of a program that was read look like.
- Theorem {lit}`Program.exists_objectLines_verbose`: the lines of verbose text.
- Theorem {lit}`Program.writeObject_verbose_of_perm`: the order of the routines does not show.
- Theorem {lit}`Program.AsRead.exists_called`: for which call a call was written.
- Theorem {lit}`Program.readObject_dumped_iff`: the programs whose verbose text is a fixed point.
-/

namespace Gobstones
namespace Program

open ObjectText (lines)

/-! ## Programs that were read -/

/-- The names that the instructions of a program call. -/
def calledNames (program : Program) : List String :=
  program.routines.flatMap fun routine => routine.code.toList.filterMap Instruction.callName?

theorem mem_calledNames {program : Program} {name : String} :
    name ∈ program.calledNames ↔ ∃ routine ∈ program.routines, ∃ instruction ∈ routine.code,
      instruction.callName? = some name := by
  simp [calledNames]

/-- The called names that are not read as they are written. -/
def illegibleNames (program : Program) : Finset String :=
  program.calledNames.toFinset.filter fun name => ¬program.LegibleCall name

theorem mem_illegibleNames {program : Program} {name : String} :
    name ∈ program.illegibleNames ↔ name ∈ program.calledNames ∧ ¬program.LegibleCall name := by
  rw [illegibleNames, Finset.mem_filter, List.mem_toFinset]

/-- What every program has that was read: no links, the standard builtins, and names that consist
of characters of words.  The names of routines may be empty. -/
structure AsRead (program : Program) : Prop where
  links : program.links = []
  builtins : program.builtins = BuiltinTable.standard
  markable : ∀ routine ∈ program.routines, routine.Markable
  called : ∀ name ∈ program.calledNames, ∀ c ∈ name.toList, Token.isWordChar c

/-- The parts of a routine that was read can be written. -/
theorem markable_of_readFrom {lines : List (List Char)} {routine : Routine}
    (h : routine.ReadFrom lines) : routine.Markable := by
  obtain ⟨⟨header, ⟨cs, -, _, first, operands, htokens, hheader⟩, -, hname, hparams⟩, hcode⟩ := h
  have hlegible := (List.forall_mem_cons.1 (Token.legible_of_ofLine? htokens)).2
  obtain ⟨_, _, name, params, -, -, rfl, rfl⟩ := readHeader_eq_ok hheader
  rw [List.forall_mem_cons, List.forall_mem_map] at hlegible
  refine ⟨?_, ?_, fun instruction hmem => ?_⟩
  · rw [hname]
    exact isWordChar_of_mem_unmarked hlegible.1.2
  · rw [hparams]
    exact hlegible.2
  · obtain ⟨operands, hoperands, hlegible⟩ := (hcode instruction hmem).exists_operands
    exact hoperands.legible hlegible

theorem asRead_of_readObject {text : String} {program : Program}
    (h : readObject text = .ok program) : program.AsRead := by
  obtain ⟨hlinks, hbuiltins, hread⟩ := readFrom_of_readObject h
  refine ⟨hlinks, hbuiltins, fun routine hmem => markable_of_readFrom (hread routine hmem), ?_⟩
  intro name hname
  obtain ⟨routine, hroutine, instruction, hinstruction, hcall⟩ := mem_calledNames.1 hname
  obtain ⟨operands, hoperands, hlegible⟩ :=
    ((hread routine hroutine).code instruction hinstruction).exists_operands
  exact hoperands.isWordChar_callName hlegible hcall

/-! ## Verbose text -/

/-- The words of verbose style.  Only routines are marked. -/
@[simps]
def verboseNames (program : Program) : Renaming where
  callName := program.verboseName
  localName name := name
  labelName name := name

theorem verboseName_eq {program : Program} (hlinks : program.links = []) (name : String) :
    program.verboseName name =
      if program.builtins.contains name ∨ program.routine? name = none then name
      else "$" ++ name :=
  routineName_verbose rfl rfl hlinks name

theorem words_verbose {program : Program} {naming : Naming} (hstyle : naming.style = .verbose)
    (hroot : naming.root = program.moduleName) (hlinks : program.links = []) :
    naming.words program = program.verboseNames := by
  simp only [Naming.words, verboseNames, routineName_eq_verboseName hstyle hroot hlinks,
    variableName_verbose hstyle, labelName_verbose hstyle]

/-- The lines of verbose text are those of the routines, in the order of their written names. -/
theorem exists_objectLines_verbose {program : Program} (hlinks : program.links = [])
    (hbuiltins : program.builtins = BuiltinTable.standard)
    (hmarkable : ∀ routine ∈ program.routines, routine.Markable) :
    ∃ sorted : List Routine, sorted.Perm program.routines ∧
      (sorted.Pairwise fun first second =>
        program.verboseName first.name < program.verboseName second.name) ∧
      objectLines program .verbose = ObjectText.header.toList ::
        sorted.flatMap (fun routine =>
          routine.linesUnder .verbose (program.verboseName routine.name) program.verboseNames) ++
        [ObjectText.terminator.toList] := by
  obtain ⟨final, hfinal⟩ := Naming.exists_endsSession program .verbose
  have hname := routineName_eq_verboseName hfinal.style hfinal.root hlinks
  have hperm : (final.listing (program.collect [])).Perm
      (program.routines.map (final.entry program)) :=
    entries_of_links hlinks final ▸ Naming.listing_perm
      (nodup_entries_verbose hfinal.style hfinal.root hlinks hbuiltins hmarkable)
  obtain ⟨hroutines, hsorted⟩ := routines_of_listed_verbose hfinal.style hfinal.root hlinks hperm
    (final.ascending_listing _)
  refine ⟨_, hroutines, hsorted, ?_⟩
  rw [hfinal.lines, List.flatMap_map]
  congr 2
  refine List.flatMap_congr fun entry hentry => ?_
  obtain ⟨routine, -, rfl⟩ := List.mem_map.1 (hperm.mem_iff.1 hentry)
  have hcontinues := Naming.continues_routineLines final (final.entry program routine).name program
    routine
  change (routineLines final (final.entry program routine).name program routine).1 = _
  rw [Naming.routineLines_eq, hfinal.style, words_verbose (hcontinues.style.trans hfinal.style)
    (hcontinues.root.trans hfinal.root) hlinks]
  change routine.linesUnder .verbose (final.routineName program routine.name).1 _ = _
  rw [hname]
  rfl

/-- Programs with the same routines are written as the same text, whatever their order. -/
theorem writeObject_verbose_of_perm {program other : Program} (hprogram : program.AsRead)
    (hother : other.AsRead) (hperm : other.routines.Perm program.routines) :
    writeObject other .verbose = writeObject program .verbose := by
  have hroutine (name : String) : other.routine? name = none ↔ program.routine? name = none := by
    simp only [routine?, List.find?_eq_none, hperm.mem_iff]
  have hname : other.verboseName = program.verboseName := by
    funext name
    simp only [verboseName_eq hother.links, verboseName_eq hprogram.links, hother.builtins,
      hprogram.builtins, hroutine]
  obtain ⟨sorted, hsorted, hascending, hlines⟩ :=
    exists_objectLines_verbose hprogram.links hprogram.builtins hprogram.markable
  obtain ⟨others, hothers, hothersAscending, hotherLines⟩ :=
    exists_objectLines_verbose hother.links hother.builtins hother.markable
  rw [hname] at hothersAscending
  obtain rfl : others = sorted := by
    refine List.Perm.eq_of_pairwise (fun first second _ _ hlt hgt => ?_) hothersAscending hascending
      (hothers.trans (hperm.trans hsorted.symm))
    exact absurd hgt (String.lt_asymm hlt)
  rw [writeObject, writeObject, hotherLines, hlines, verboseNames, verboseNames, hname]

namespace AsRead

variable {program : Program} (h : program.AsRead)

include h

/-- A called name is written with characters of words, but it may be empty. -/
theorem isWordChar_verboseName {name : String} (hname : ∀ c ∈ name.toList, Token.isWordChar c) :
    ∀ c ∈ (program.verboseName name).toList, Token.isWordChar c := by
  rw [verboseName_eq h.links]
  split
  · exact hname
  · exact (isWord_dollar hname).2

/-- The tokens of a header stay in one piece. -/
theorem unbroken_header {routine : Routine} (hmem : routine ∈ program.routines) :
    ∀ token ∈ Token.word (routine.kind.spelling .verbose) ::
      .word (program.verboseName routine.name) ::
      (routine.params.map program.verboseNames.localName).map .word, token.Unbroken := by
  have hmarkable := h.markable routine hmem
  have hparams : ∀ param ∈ routine.params, Token.Unbroken (.word param) := fun param hparam =>
    (hmarkable.params param hparam).2
  simpa [verboseNames] using ⟨(Token.isWord_keyword routine.kind .verbose).2,
    h.isWordChar_verboseName hmarkable.name, hparams⟩

/-- The tokens of an instruction stay in one piece. -/
theorem unbroken_instruction {routine : Routine} (hmem : routine ∈ program.routines)
    {instruction : Instruction} (hinstruction : instruction ∈ routine.code) :
    ∀ token ∈ Token.word (instruction.opcode.spelling .verbose) ::
      (instruction.rename program.verboseNames).tokens, token.Unbroken := by
  have hlegible := (h.markable routine hmem).code instruction hinstruction
  have hword {text : String} (htext : Token.IsWord text) : Token.Unbroken (.word text) := htext.2
  have hcount (n : Nat) : (Naming.countWord n).Unbroken := (Naming.legible_countWord n).unbroken
  refine List.forall_mem_cons.2 ⟨hword (Token.isWord_spelling _ _), ?_⟩
  cases instruction with
  | pushConst value =>
    simpa [Instruction.rename, Instruction.tokens] using hword (Token.isWord_text value)
  | pushFrom name | popTo name | delVar name | setImmutable name | unsetImmutable name =>
    simpa [Instruction.rename, Instruction.tokens] using hword (hlegible.localName name rfl)
  | call name argc =>
    have hname : Token.Unbroken (.word (program.verboseName name)) :=
      h.isWordChar_verboseName (h.called name (mem_calledNames.2 ⟨routine, hmem, _, hinstruction, rfl⟩))
    simpa [Instruction.rename, Instruction.tokens] using ⟨hname, hcount argc⟩
  | raise message => simp [Instruction.rename, Instruction.tokens, Token.Unbroken]
  | label name | jump name | jumpIfFalse name =>
    simpa [Instruction.rename, Instruction.tokens] using hword (hlegible.labelName name rfl)
  | jumpIfNotIn values name =>
    simpa [Instruction.rename, Instruction.tokens] using
      ⟨hword (hlegible.labelName name rfl), fun value _ => hword (Token.isWord_text value)⟩
  | ret n => simpa [Instruction.rename, Instruction.tokens] using hcount n
  | returnVars n names =>
    simpa [Instruction.rename, Instruction.tokens] using
      ⟨hcount n, fun name hname => hword (hlegible.returned name hname)⟩
  | enter | leave => simp [Instruction.rename, Instruction.tokens]

/-- The lines of verbose text: header and terminator, and for every routine its header, its
instructions, its closing line and a blank one. -/
theorem mem_objectLines_cases {cs : List Char} (hcs : cs ∈ objectLines program .verbose) :
    cs ∈ [ObjectText.header.toList, ObjectText.terminator.toList, Style.verbose.closing.toList, []] ∨
    ∃ routine ∈ program.routines,
      cs = spaced (.word (routine.kind.spelling .verbose) ::
        .word (program.verboseName routine.name) ::
        (routine.params.map program.verboseNames.localName).map .word) ∨
      ∃ instruction ∈ routine.code, cs = Style.verbose.indentation ++
        spaced (.word (instruction.opcode.spelling .verbose) ::
          (instruction.rename program.verboseNames).tokens) := by
  obtain ⟨sorted, hsorted, -, hlines⟩ :=
    exists_objectLines_verbose h.links h.builtins h.markable
  rw [hlines, List.cons_append, List.mem_cons, List.mem_append, List.mem_flatMap,
    List.mem_singleton] at hcs
  rcases hcs with rfl | ⟨routine, hmem, hcs⟩ | rfl
  · exact .inl (by simp)
  · rw [hsorted.mem_iff] at hmem
    rw [Routine.linesUnder, List.cons_append, List.mem_cons, List.mem_append, List.mem_map] at hcs
    rcases hcs with rfl | ⟨instruction, hinstruction, rfl⟩ | hcs
    · exact .inr ⟨routine, hmem, .inl rfl⟩
    · exact .inr ⟨routine, hmem, .inr ⟨instruction, Array.mem_toList_iff.1 hinstruction, rfl⟩⟩
    · refine .inl ?_
      simp only [List.mem_cons, List.not_mem_nil, or_false] at hcs ⊢
      tauto
  · exact .inl (by simp)

/-- The lines of verbose text are found again. -/
theorem lines_writeObject : lines (writeObject program .verbose) = objectLines program .verbose := by
  have hindentation : IsLine Style.verbose.indentation := by decide
  have hframe : ∀ cs ∈ [ObjectText.header.toList, ObjectText.terminator.toList,
      Style.verbose.closing.toList, []], IsLine cs := by
    decide
  rw [lines, writeObject, String.toList_ofList, splitLines_flatMap]
  intro cs hcs
  rcases h.mem_objectLines_cases hcs with hcs | ⟨routine, hmem, rfl | ⟨instruction, hinstruction, rfl⟩⟩
  · exact hframe cs hcs
  · exact Token.isLine_spaced (h.unbroken_header hmem)
  · exact hindentation.append (Token.isLine_spaced (h.unbroken_instruction hmem hinstruction))

/-- Of the lines of verbose text, those of instructions alone start with an opcode. -/
theorem exists_instruction {cs : List Char} (hcs : cs ∈ objectLines program .verbose)
    {first : Token} {operands : List Token} (htokens : Token.ofLine? cs = some (first :: operands))
    {opcode : Opcode} (hopcode : Opcode.ofWord? first.text = some opcode) :
    ∃ routine ∈ program.routines, ∃ instruction ∈ routine.code, instruction.opcode = opcode ∧
      operands = (instruction.rename program.verboseNames).tokens.filter (· ≠ .word "") := by
  have hblank : ∀ c ∈ Style.verbose.indentation, Text.isBlank c := List.all_eq_true.1 (by decide)
  rcases h.mem_objectLines_cases hcs with hcs | ⟨routine, hmem, rfl | ⟨instruction, hinstruction, rfl⟩⟩
  · -- The lines that are the same in every object start with no opcode.
    have hframe : ∀ cs ∈ [ObjectText.header.toList, ObjectText.terminator.toList,
        Style.verbose.closing.toList, []], ∀ tokens ∈ Token.ofLine? cs, ∀ token ∈ tokens.head?,
        Opcode.ofWord? token.text = none := by
      decide +kernel
    simp [hframe cs hcs _ htokens first rfl] at hopcode
  · have hkeyword : Opcode.ofWord? (routine.kind.spelling .verbose) = none := by
      cases routine.kind <;> decide
    rw [Token.ofLine?_spaced_of_unbroken (h.unbroken_header hmem), List.filter_cons_of_pos (by
      simpa using (Token.isWord_keyword routine.kind .verbose).1)] at htokens
    obtain ⟨rfl, -⟩ := List.cons.inj (Option.some.inj htokens)
    rw [Token.text, hkeyword] at hopcode
    cases hopcode
  · rw [Token.ofLine?_blanks hblank,
      Token.ofLine?_spaced_of_unbroken (h.unbroken_instruction hmem hinstruction),
      List.filter_cons_of_pos (by simpa using (Token.isWord_spelling _ _).1)] at htokens
    obtain ⟨rfl, rfl⟩ := List.cons.inj (Option.some.inj htokens)
    rw [Token.text, Opcode.ofWord?_spelling] at hopcode
    exact ⟨routine, hmem, instruction, hinstruction, Option.some.inj hopcode, rfl⟩

/-- A call that is read from verbose text was written for a call of a name that was not empty. -/
theorem exists_called {reread : Program}
    (hread : readObject (writeObject program .verbose) = .ok reread) {name : String}
    (hname : name ∈ reread.calledNames) :
    ∃ called ∈ program.calledNames, program.verboseName called ≠ "" ∧
      unmarked (program.verboseName called) = name := by
  obtain ⟨routine, hroutine, instruction, hinstruction, hcall⟩ := mem_calledNames.1 hname
  obtain ⟨-, -, hroutines⟩ := readFrom_of_readObject hread
  obtain ⟨cs, hcs, first, operands, htokens, hinstruction⟩ :=
    (hroutines routine hroutine).code instruction hinstruction
  obtain ⟨hopcode, hoperands⟩ := operands_of_readInstruction hinstruction
  rw [h.lines_writeObject] at hcs
  obtain ⟨source, hsource, original, horiginal, hsame, htext⟩ :=
    h.exists_instruction hcs htokens hopcode
  cases hoperands with
  | call word hcount =>
    obtain rfl := Option.some.inj hcall
    cases original with
    | call called argc =>
      have hcount : Naming.countWord argc ≠ .word "" := (Naming.legible_countWord argc).ne_empty
      refine ⟨called, mem_calledNames.2 ⟨source, hsource, _, horiginal, rfl⟩, ?_⟩
      -- Behind an empty word there would be the count alone, and no call is read from it.
      by_cases hempty : program.verboseName called = ""
      · simp [Instruction.rename, Instruction.tokens, hempty, hcount] at htext
      · obtain ⟨rfl, -⟩ : word = program.verboseName called ∧ .word _ = Naming.countWord argc := by
          simpa [Instruction.rename, Instruction.tokens, hempty, hcount] using htext
        exact ⟨hempty, rfl⟩
    | _ => cases hsame
  | _ => cases hcall

/-- A name that is not legible is read for one dollar sign more, which is not legible either. -/
theorem not_legibleCall_of_unmarked {name called : String} (hname : ¬program.LegibleCall name)
    (hchars : ∀ c ∈ called.toList, Token.isWordChar c) (hne : program.verboseName called ≠ "")
    (hread : unmarked (program.verboseName called) = name) :
    called = "$" ++ name ∧ ¬program.LegibleCall called := by
  rw [verboseName_eq h.links] at hne hread
  by_cases hplain : program.builtins.contains called ∨ program.routine? called = none
  · rw [if_pos hplain] at hne hread
    by_cases hhead : called.toList.head? = some '$'
    · have hcalled : called = "$" ++ name := by
        cases hcons : called.toList with
        | nil => simp [hcons] at hhead
        | cons c rest =>
          obtain rfl : c = '$' := by simpa [hcons] using hhead
          rw [← hread, unmarked, hcons, ← String.toList_inj, hcons]
          simp
      have hbuiltin : ¬program.builtins.contains called := fun hbuiltin =>
        (BuiltinTable.isWord_of_contains (h.builtins ▸ hbuiltin)).2 hhead
      refine ⟨hcalled, ?_⟩
      rw [LegibleCall, hplain.resolve_left hbuiltin]
      simp [hbuiltin, hhead]
    · rw [unmarked_of_head hhead] at hread
      subst hread
      have hword : Token.IsWord called := ⟨by simpa using hne, hchars⟩
      exact absurd (.inr (.inr ⟨hword, hhead⟩)) hname
  · rw [if_neg hplain, unmarked_dollar] at hread
    subst hread
    rw [not_or] at hplain
    exact absurd (.inr (.inl (Option.isSome_iff_ne_none.2 hplain.2))) hname

/-- If the verbose text is read as the same routines, an illegible name is read for a longer one. -/
theorem exists_longer_illegible {reread : Program}
    (hread : readObject (writeObject program .verbose) = .ok reread)
    (hperm : reread.routines.Perm program.routines) {name : String}
    (hname : name ∈ program.illegibleNames) :
    ∃ called ∈ program.illegibleNames, name.length < called.length := by
  obtain ⟨hcalled, hillegible⟩ := mem_illegibleNames.1 hname
  have hrecalled : name ∈ reread.calledNames := by
    simpa only [mem_calledNames, hperm.mem_iff] using hcalled
  obtain ⟨called, hmem, hne, hunmarked⟩ := h.exists_called hread hrecalled
  obtain ⟨rfl, hcalled⟩ :=
    h.not_legibleCall_of_unmarked hillegible (h.called called hmem) hne hunmarked
  refine ⟨_, mem_illegibleNames.2 ⟨hmem, hcalled⟩, ?_⟩
  rw [String.length_append]
  exact Nat.lt_add_of_pos_left (by decide)

/-- If the verbose text is read as the same routines, all called names are legible. -/
theorem legibleCall_of_reread {reread : Program}
    (hread : readObject (writeObject program .verbose) = .ok reread)
    (hperm : reread.routines.Perm program.routines) :
    ∀ name ∈ program.calledNames, program.LegibleCall name := by
  intro name hmem
  by_contra hname
  -- No illegible name can be the longest one.
  obtain ⟨longest, hlongest, hmax⟩ := program.illegibleNames.exists_max_image String.length
    ⟨name, mem_illegibleNames.2 ⟨hmem, hname⟩⟩
  obtain ⟨called, hcalled, hlt⟩ := h.exists_longer_illegible hread hperm hlongest
  exact absurd (hmax called hcalled) (Nat.not_le.2 hlt)

end AsRead

/-- The verbose text of a program that was read is read as the same routines, which are written as
the same text again, exactly if every called name is a builtin, a routine of the program, or another
word without a dollar sign in front. -/
theorem readObject_dumped_iff {text : String} {program : Program}
    (h : readObject text = .ok program) :
    (∃ reread, readObject (writeObject program .verbose) = .ok reread ∧
      reread.routines.Perm program.routines ∧
      writeObject reread .verbose = writeObject program .verbose) ↔
    ∀ name ∈ program.calledNames, program.LegibleCall name := by
  have hprogram := asRead_of_readObject h
  constructor
  · rintro ⟨reread, hread, hperm, -⟩
    exact hprogram.legibleCall_of_reread hread hperm
  · intro hlegible
    obtain ⟨reread, hread, hperm, -⟩ := exists_readObject_verbose hprogram.links
      hprogram.builtins hprogram.markable fun routine hroutine instruction hinstruction name hname =>
        hlegible name (mem_calledNames.2 ⟨routine, hroutine, instruction, hinstruction, hname⟩)
    exact ⟨reread, hread, hperm,
      writeObject_verbose_of_perm hprogram (asRead_of_readObject hread) hperm⟩

end Program

namespace Marks

/-- Names with marks, and a routine without a name.  All calls are legible. -/
def text : String :=
  "\n".intercalate ["GBO/1.0 ; by hand", "F $$P $n X1", "\"v\" $n", "    \"return\" +01", "X",
    "procedure $", "end", "", "E $program", "c $$P\t+2;$", " c $ 0", "call $PutStone 1",
    "call $Unknown 0", "b end", "x 1 $x", "X", "%%"]

/-- A call of a routine that does not exist, but it would without one of the marks. -/
def doubled : String :=
  "GBO/1.0\nprocedure P\n    return 0\nend\n\nentrypoint program\n    call $$P 0\n" ++
    "    returnVars 0\nend\n\n%%\n"

/-- A call of a routine that does not exist and has no name. -/
def nameless : String :=
  "GBO/1.0\nentrypoint program\n    call $ 0\nend\n\n%%\n"

end Marks

namespace Program

theorem readObject_dumped_marks :
    ∃ program, readObject Marks.text = .ok program ∧
      program.calledNames = ["$P", "", "PutStone", "Unknown"] ∧
      ∃ reread, readObject (writeObject program .verbose) = .ok reread ∧
        reread.routines.Perm program.routines ∧
        writeObject reread .verbose = writeObject program .verbose := by
  have htext : (readObject Marks.text).toOption.any fun program =>
      decide (program.calledNames = ["$P", "", "PutStone", "Unknown"] ∧
        ∀ name ∈ program.calledNames, program.LegibleCall name) := by
    decide +kernel
  obtain ⟨program, hread, htest⟩ := exists_of_any_toOption htext
  obtain ⟨hcalled, hlegible⟩ := of_decide_eq_true htest
  exact ⟨program, hread, hcalled, (readObject_dumped_iff hread).2 hlegible⟩

/-- A mark is lost in a call of an undefined name, and then the call may be one of a routine.  If
nothing else is left of the name, the text is not read at all. -/
theorem not_readObject_dumped :
    (∃ program reread, readObject Marks.doubled = .ok program ∧
      readObject (writeObject program .verbose) = .ok reread ∧
      program.calledNames = ["$P"] ∧ program.routine? "$P" = none ∧
      reread.calledNames = ["P"] ∧ (reread.routine? "P").isSome ∧
      ¬reread.routines.Perm program.routines) ∧
    ∃ program, readObject Marks.nameless = .ok program ∧
      readObject (writeObject program .verbose) = .error ⟨3, .missingArgument "call" 2⟩ := by
  have hdoubled : (readObject Marks.doubled).toOption.any fun program =>
      (readObject (writeObject program .verbose)).toOption.any fun reread =>
        decide (program.calledNames = ["$P"] ∧ (program.routine? "$P").isNone ∧
          reread.calledNames = ["P"] ∧ (reread.routine? "P").isSome) := by
    decide +kernel
  have hnameless : (readObject Marks.nameless).toOption.any fun program =>
      errorOf? (readObject (writeObject program .verbose)) =
        some ⟨3, .missingArgument "call" 2⟩ := by
    decide +kernel
  constructor
  · obtain ⟨program, hprogram, htest⟩ := exists_of_any_toOption hdoubled
    obtain ⟨reread, hreread, htest⟩ := exists_of_any_toOption htest
    obtain ⟨hcalled, hundefined, hrecalled, hdefined⟩ := of_decide_eq_true htest
    refine ⟨program, reread, hprogram, hreread, hcalled, Option.isNone_iff_eq_none.1 hundefined,
      hrecalled, hdefined, fun hperm => ?_⟩
    have hmem : "$P" ∈ reread.calledNames ↔ "$P" ∈ program.calledNames := by
      simp only [mem_calledNames, hperm.mem_iff]
    simp [hcalled, hrecalled] at hmem
  · obtain ⟨program, hprogram, htest⟩ := exists_of_any_toOption hnameless
    exact ⟨program, hprogram, eq_error_of_errorOf? (of_decide_eq_true htest)⟩

end Program
end Gobstones
