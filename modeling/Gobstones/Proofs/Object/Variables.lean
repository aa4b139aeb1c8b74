import Gobstones.Proofs.Object.Behaviour
import Gobstones.Proofs.Object.Requests
/-!
# Words of variables

This module shows how a compact session writes the variables of a routine: all lines of
the routine have one word for each variable, its own name if the routine returns it, and a
generated word otherwise.  Variables stay apart, except that a returned variable may be
named like the word that is generated for another one; nothing prevents that, and both
are one variable afterwards.

Main definitions:

- {lit}`Naming.words`: the words of a session.
- {lit}`Routine.linesUnder`: the lines of a routine under given words.

Main results:

- Theorem {lit}`Naming.routineLines_eq`: a routine is written under the words of the session
  after it.
- Theorem {lit}`Naming.variables_apart`: which variables have one word.
- Theorem {lit}`Naming.not_variables_apart`: a returned variable that is taken for another one.
-/

namespace Gobstones

/-! ## Lines under given words -/

/-- The operands of an instruction with its names as they are. -/
def Instruction.tokens : Instruction → List Token
  | pushConst value => [.word value.text]
  | pushFrom name | popTo name | delVar name | setImmutable name | unsetImmutable name =>
    [.word name]
  | call name argc => [.word name, Naming.countWord argc]
  | raise message => [.quoted message]
  | label name | jump name | jumpIfFalse name => [.word name]
  | jumpIfNotIn values name => .word name :: values.map fun value => .word value.text
  | ret n => [Naming.countWord n]
  | returnVars n names => Naming.countWord n :: names.map .word
  | enter | leave => []

namespace Routine

/-- The lines of a routine under a written name, with new names in them. -/
def linesUnder (routine : Routine) (style : Style) (name : String) (names : Renaming) :
    List (List Char) :=
  spaced (.word (routine.kind.spelling style) :: .word name ::
      (routine.params.map names.localName).map .word) ::
    routine.code.toList.map (fun instruction => style.indentation ++
      spaced (.word (instruction.opcode.spelling style) :: (instruction.rename names).tokens)) ++
    [style.closing.toList, []]

/-- The variables that a routine returns. -/
def returnedVariables (routine : Routine) : Set String :=
  {name | ∃ instruction ∈ routine.code, ∃ typed ∈ instruction.returnedNames,
    Polyname.base typed = name}

end Routine

namespace Naming

/-- The words under which a session writes the names in a program. -/
def words (naming : Naming) (program : Program) : Renaming where
  callName name := (naming.routineName program name).1
  localName name := (naming.variableName name).1
  labelName name := (naming.labelName name).1

variable {naming : Naming} {program : Program} {routine : Routine}

theorem operands_eq_tokens (naming : Naming) (program : Program) (instruction : Instruction) :
    (naming.operands program instruction).1 =
      (instruction.rename (naming.words program)).tokens := by
  cases instruction <;> rfl

theorem keepResults_of_kept {other : Naming}
    (h : naming.kept = (other.keepResults routine).kept) : naming.keepResults routine = naming := by
  cases naming
  subst h
  rfl

/-- The session after a routine keeps the names that the routine returns. -/
theorem keepResults_routineLines (naming : Naming) (name : String) (program : Program)
    (routine : Routine) :
    (routineLines naming name program routine).2.keepResults routine =
      (routineLines naming name program routine).2 :=
  keepResults_of_kept ((Stable.body program routine).kept (naming.keepResults routine))

/-- The session after a routine has chosen all its names. -/
theorem settled_routineLines (naming : Naming) (name : String) (program : Program)
    (routine : Routine) :
    (routineLines naming name program routine).2.Settled program routine := by
  have hsettled := (routineLines_recalled (.refl (routineLines naming name program routine).2)).2
  rwa [keepResults_routineLines] at hsettled

/-- A routine is written under the words of the session after it. -/
theorem routineLines_eq (naming : Naming) (name : String) (program : Program)
    (routine : Routine) :
    (routineLines naming name program routine).1 = routine.linesUnder naming.style name
      ((routineLines naming name program routine).2.words program) := by
  obtain ⟨hsame, hsettled⟩ :=
    routineLines_recalled (.refl (routineLines naming name program routine).2)
  have hstyle := (continues_routineLines naming name program routine).style
  rw [← hsame, routineLines_of_settled hsettled, keepResults_routineLines, Routine.linesUnder]
  simp only [instructionLine, operands_eq_tokens, hstyle]
  rfl

/-! ## Words of variables -/

section

variable (hkeeps : naming.keepResults routine = naming)

include hkeeps

theorem mem_kept_iff {name : String} : name ∈ naming.kept ↔ name ∈ routine.returnedVariables := by
  have hmem : name ∈ (naming.keepResults routine).kept ↔ name ∈ routine.returnedVariables :=
    mem_kept
  rwa [hkeeps] at hmem

/-- A returned variable is written under its own name. -/
theorem variableName_of_returned {name : String} (h : name ∈ routine.returnedVariables) :
    (naming.variableName name).1 = name := by
  rw [variableName_of_mem_kept ((mem_kept_iff hkeeps).2 h)]

/-- Another variable of a routine has an entry in the table. -/
theorem lookup_variableName (hstyle : naming.style = .compact)
    (hsettled : naming.Settled program routine) {name : String} (hname : name ∈ routine.localNames)
    (h : name ∉ routine.returnedVariables) :
    naming.locals.lookup name = some (naming.variableName name).1 := by
  have hchosen : (naming.variableName name).2 = naming := by
    have hchosen := Settled.variableName (hkeeps ▸ hsettled) hname
    rwa [hkeeps] at hchosen
  rcases variableName_cases hchosen with ⟨hkept, -⟩ | ⟨-, hlookup⟩
  · rw [hstyle, mem_kept_iff hkeeps] at hkept
    exact absurd hkept (by simp [h])
  · exact hlookup

/-- The variables of a routine stay apart exactly if no returned one is named like the word that
another one has. -/
theorem injOn_words_iff (hnumbered : naming.Numbered) (hstyle : naming.style = .compact)
    (hsettled : naming.Settled program routine) :
    Set.InjOn (naming.words program).localName routine.localNames ↔
      ∀ name ∈ routine.localNames, name ∉ routine.returnedVariables →
        (naming.words program).localName name ∉ routine.returnedVariables := by
  have hreturned {name : String} (h : name ∈ routine.returnedVariables) :
      (naming.words program).localName name = name := variableName_of_returned hkeeps h
  have hlocal {name : String} (h : name ∈ routine.returnedVariables) :
      name ∈ routine.localNames := by
    obtain ⟨instruction, hmem, htyped⟩ := h
    exact .inr ⟨instruction, hmem, .inr htyped⟩
  constructor
  · intro hinj name hname hfree hword
    have heq := hinj (hlocal hword) hname (hreturned hword)
    exact hfree (heq ▸ hword)
  · intro hapart first hfirst second hsecond heq
    by_cases hkept : first ∈ routine.returnedVariables <;>
      by_cases hkept' : second ∈ routine.returnedVariables
    · rwa [hreturned hkept, hreturned hkept'] at heq
    · rw [hreturned hkept] at heq
      exact absurd (heq ▸ hkept) (hapart second hsecond hkept')
    · rw [hreturned hkept'] at heq
      exact absurd (heq ▸ hkept') (hapart first hfirst hkept)
    · have hlookup := lookup_variableName hkeeps hstyle hsettled hfirst hkept
      have hlookup' := lookup_variableName hkeeps hstyle hsettled hsecond hkept'
      exact (hnumbered.locals.name_eq_iff hlookup hlookup').1 heq

end

/-- At any point of a compact session, a routine is written with one word for each variable.
Variables that it returns keep their names, and the others have generated words.  So variables
have one word only if one of them is returned and is named like the word that was generated for
the other, and all stay apart if no returned one is named like a generated word. -/
theorem variables_apart (root : String) (requests : List Request) (name : String)
    (program : Program) (routine : Routine) :
    let written := routineLines ((new .compact root).after requests) name program routine
    let words := written.2.words program
    written.1 = routine.linesUnder .compact name words ∧
      (∀ x ∈ routine.returnedVariables, words.localName x = x) ∧
      (∀ x ∈ routine.localNames, x ∉ routine.returnedVariables →
        ∃ n, words.localName x = generated 'V' n) ∧
      (Set.InjOn words.localName routine.localNames ↔
        ∀ x ∈ routine.localNames, x ∉ routine.returnedVariables →
          words.localName x ∉ routine.returnedVariables) ∧
      ((∀ n, generated 'V' n ∉ routine.returnedVariables) →
        Set.InjOn words.localName routine.localNames) := by
  intro written words
  let naming := (new .compact root).after requests
  have hcompact : naming.style = .compact := ((new .compact root).continues_after requests).style
  have hstyle : written.2.style = .compact :=
    (continues_routineLines naming name program routine).style.trans hcompact
  have hnumbered : written.2.Numbered :=
    ((numbered_new .compact root).after requests).routineLines name program routine
  have hkeeps : written.2.keepResults routine = written.2 :=
    keepResults_routineLines naming name program routine
  have hsettled := settled_routineLines naming name program routine
  have hgenerated : ∀ x ∈ routine.localNames, x ∉ routine.returnedVariables →
      ∃ n, words.localName x = generated 'V' n := by
    intro x hx hfree
    obtain ⟨n, -, hn⟩ := hnumbered.locals.exists_of_lookup
      (lookup_variableName hkeeps hstyle hsettled hx hfree)
    exact ⟨n, hn⟩
  have hapart := injOn_words_iff hkeeps hnumbered hstyle hsettled
  refine ⟨?_, fun x hx => variableName_of_returned hkeeps hx, hgenerated, hapart, fun hplain => ?_⟩
  · rw [← hcompact]
    exact routineLines_eq naming name program routine
  · refine hapart.2 fun x hx hfree => ?_
    obtain ⟨n, hn⟩ := hgenerated x hx hfree
    rw [hn]
    exact hplain n

end Naming

namespace Shadow

/-- Return the first of two variables, under the first name that is generated for variables. -/
def main : Routine where
  kind := .entrypoint
  name := "program"
  params := []
  code := #[.pushConst (.int 2), .popTo "V", .pushConst (.int 1), .popTo "x",
    .returnVars 1 ["V@Int"]]
  targets := Array.replicate 5 none
  resolved := rfl

/-- The same with names that stay apart, after some other variable. -/
def apart : Routine where
  kind := .entrypoint
  name := "program"
  params := ["other"]
  code := #[.pushFrom "other", .popTo "sum", .pushConst (.int 1), .popTo "x",
    .returnVars 1 ["sum@Int"]]
  targets := Array.replicate 5 none
  resolved := rfl

/-- The program that returns the shadowed variable. -/
def program : Program where
  moduleName := "main"
  routines := [main]
  builtins := BuiltinTable.standard
  links := []
  distinct := by decide

end Shadow

namespace Naming

/-- Of two variables, one is taken for the other: a name that is kept is generated again. -/
theorem not_variables_apart :
    let written := routineLines (new .compact "main") "$program" Shadow.program Shadow.main
    let words := written.2.words Shadow.program
    Shadow.main.Legible ∧ "V" ∈ Shadow.main.localNames ∧ "x" ∈ Shadow.main.localNames ∧
      words.localName "V" = words.localName "x" ∧
      ¬Set.InjOn words.localName Shadow.main.localNames ∧
      writeObject Shadow.program .compact =
        "GBO/1.0\nE $program\np 2\na V\np 1\na V\nx 1 V@Int\nX\n\n%%\n" := by
  intro written words
  have hreturned : "V" ∈ Shadow.main.localNames :=
    .inr ⟨.returnVars 1 ["V@Int"], by simp [Shadow.main], .inr ⟨"V@Int", by decide, by decide⟩⟩
  have hpopped : "x" ∈ Shadow.main.localNames :=
    .inr ⟨.popTo "x", by simp [Shadow.main], .inl rfl⟩
  have hsame : words.localName "V" = words.localName "x" := by decide +kernel
  refine ⟨by decide, hreturned, hpopped, hsame, fun hinj => ?_, by decide +kernel⟩
  exact absurd (hinj hreturned hpopped hsame) (by decide)

/-- Names that do not look generated stay apart, also in a session that has named variables
before. -/
theorem variables_apart_shadow :
    let written := routineLines ((new .compact "main").after [.variableName "x"]) "$program"
      Shadow.program Shadow.apart
    let words := written.2.words Shadow.program
    (∀ n, generated 'V' n ∉ Shadow.apart.returnedVariables) ∧
      Set.InjOn words.localName Shadow.apart.localNames ∧ words.localName "sum" = "sum" ∧
      ∃ n, words.localName "other" = generated 'V' n := by
  intro written words
  have hreturned {name : String} (h : name ∈ Shadow.apart.returnedVariables) : name = "sum" := by
    obtain ⟨instruction, hmem, typed, htyped, rfl⟩ := h
    have hall : ∀ instruction ∈ Shadow.apart.code, ∀ typed ∈ instruction.returnedNames,
        Polyname.base typed = "sum" := by decide
    exact hall instruction hmem typed htyped
  have hplain (n : Nat) : generated 'V' n ∉ Shadow.apart.returnedVariables := by
    intro hmem
    have hlooks := looksGenerated_generated 'V' n
    rw [hreturned hmem] at hlooks
    exact absurd hlooks (by decide)
  have hsum : "sum" ∈ Shadow.apart.returnedVariables :=
    ⟨.returnVars 1 ["sum@Int"], by simp [Shadow.apart], "sum@Int", by decide, by decide⟩
  obtain ⟨-, hkept, hfree, -, hapart⟩ :=
    variables_apart "main" [.variableName "x"] "$program" Shadow.program Shadow.apart
  exact ⟨hplain, hapart hplain, hkept "sum" hsum, hfree "other" (.inl (by decide))
    fun h => absurd (hreturned h) (by decide)⟩

end Naming
end Gobstones
