import Mathlib.Data.List.Chain
import Gobstones.Proofs.Text.Numeral
import Gobstones.Value.Literal
/-!
# The grammar of literals

This module gives the grammar of literals and shows that exactly its texts are read, each
as the value that it derives.  Commas split a tuple by counting open parentheses, where a
closing parenthesis that nothing opened does not count.  A text with such a parenthesis
is split at places that no derivation knows, but then a part of it is no literal.

Main definitions:

- {lit}`Value.IsLiteral`: the grammar, with {lit}`Value.IsScalar`, {lit}`Value.IsElement` and
  {lit}`Value.AreItems` for the parts of a literal.
- {lit}`Text.Balanced`: every parenthesis is opened and closed.
- {lit}`Text.CommasSeparate`: every comma stands between two elements.

Main results:

- Theorem {lit}`Value.ofChars?_eq_some_iff`: exactly the texts of the grammar are read.
- Theorem {lit}`Value.IsLiteral.balanced` and {lit}`Value.IsLiteral.commasSeparate`: what a
  literal looks like from outside.
-/

namespace Gobstones

namespace Text

/-! ## Trimming -/

/-- Trimming takes blanks away at both ends. -/
theorem exists_trim (cs : List Char) :
    ∃ before after, allBlank before ∧ allBlank after ∧ cs = before ++ trim cs ++ after := by
  refine ⟨cs.takeWhile isBlank, ((trimStart cs).reverse.takeWhile isBlank).reverse, ?_, ?_, ?_⟩
  · exact List.all_takeWhile
  · rw [allBlank, List.all_reverse]
    exact List.all_takeWhile
  · rw [List.append_assoc, trim, trimEnd, ← List.reverse_append, List.takeWhile_append_dropWhile,
      List.reverse_reverse, trimStart, List.takeWhile_append_dropWhile]

/-- A text that neither starts nor ends with a blank. -/
structure Bounded (cs : List Char) : Prop where
  head : ∃ c, cs.head? = some c ∧ isBlank c = false
  last : ∃ c, cs.getLast? = some c ∧ isBlank c = false

theorem dropWhile_isBlank_append {blanks : List Char} (h : allBlank blanks) {c : Char}
    (hc : isBlank c = false) (cs : List Char) :
    (blanks ++ c :: cs).dropWhile isBlank = c :: cs := by
  rw [List.dropWhile_append_of_pos (by simpa [allBlank] using h), List.dropWhile_cons_of_neg]
  simp [hc]

/-- The blanks around a text are trimmed. -/
theorem trim_padded {before cs after : List Char} (hbefore : allBlank before) (h : Bounded cs)
    (hafter : allBlank after) : trim (before ++ cs ++ after) = cs := by
  obtain ⟨⟨first, hfirst, hfirstBlank⟩, last, hlast, hlastBlank⟩ := h
  obtain ⟨rest, rfl⟩ := List.head?_eq_some_iff.1 hfirst
  obtain ⟨front, hfront⟩ := List.getLast?_eq_some_iff.1 hlast
  have hstart : trimStart (before ++ first :: rest ++ after) = first :: rest ++ after := by
    rw [trimStart, List.append_assoc, List.cons_append,
      dropWhile_isBlank_append hbefore hfirstBlank]
  have hreverse : (first :: rest ++ after).reverse = after.reverse ++ last :: front.reverse := by
    rw [hfront]
    simp
  rw [trim, hstart, trimEnd, hreverse, dropWhile_isBlank_append (by simpa [allBlank] using hafter)
    hlastBlank, hfront]
  simp

/-! ## Parentheses -/

/-- The number of open parentheses behind a text, if no closing one is without an opening
one. -/
def nesting? (depth : Nat) : List Char → Option Nat
  | [] => some depth
  | c :: cs =>
    if c = '(' then nesting? (depth + 1) cs
    else if c = ')' then if depth = 0 then none else nesting? (depth - 1) cs
    else nesting? depth cs

/-- Every parenthesis of a text is opened and closed. -/
def Balanced (cs : List Char) : Prop :=
  nesting? 0 cs = some 0

instance (cs : List Char) : Decidable (Balanced cs) :=
  inferInstanceAs (Decidable (_ = _))

theorem nesting?_append (depth : Nat) (first second : List Char) :
    nesting? depth (first ++ second) = (nesting? depth first).bind (nesting? · second) := by
  induction first generalizing depth with
  | nil => rfl
  | cons c cs ih =>
    simp only [List.cons_append, nesting?, ih]
    split_ifs <;> rfl

/-! ## Commas -/

/-- A text without its blanks. -/
def tight (cs : List Char) : List Char :=
  cs.filter fun c => !isBlank c

theorem tight_append (first second : List Char) :
    tight (first ++ second) = tight first ++ tight second :=
  List.filter_append ..

theorem tight_of_allBlank {cs : List Char} (h : allBlank cs) : tight cs = [] :=
  List.filter_eq_nil_iff.2 fun c hc => by simp [List.all_eq_true.1 h c hc]

theorem tight_of_forall {cs : List Char} (h : ∀ c ∈ cs, isBlank c = false) : tight cs = cs :=
  List.filter_eq_self.2 fun c hc => by simp [h c hc]

theorem tight_comma (cs : List Char) : tight (',' :: cs) = ',' :: tight cs :=
  List.filter_cons_of_pos (by decide)

theorem tight_parens (cs : List Char) : tight ('(' :: cs ++ [')']) = '(' :: tight cs ++ [')'] := by
  rw [tight_append, tight, List.filter_cons_of_pos (by decide)]
  rfl

/-- A comma comes neither behind nor in front of a place where an element is missing. -/
def Fits (first second : Char) : Prop :=
  (second = ',' → first ≠ '(' ∧ first ≠ ',') ∧ (first = ',' → second ≠ ')' ∧ second ≠ ',')

instance (first second : Char) : Decidable (Fits first second) :=
  inferInstanceAs (Decidable (_ ∧ _))

/-- Every comma of a text stands between two elements, blanks aside.  The text counts as if
it were in parentheses, so that no comma starts or ends it. -/
def CommasSeparate (cs : List Char) : Prop :=
  ('(' :: tight cs ++ [')']).IsChain Fits

instance (cs : List Char) : Decidable (CommasSeparate cs) :=
  inferInstanceAs (Decidable (List.IsChain _ _))

/-- A text without a missing element, at its ends or inside. -/
structure Solid (cs : List Char) : Prop where
  chain : cs.IsChain Fits
  head : ∃ c, cs.head? = some c ∧ c ≠ ',' ∧ c ≠ ')'
  last : ∃ c, cs.getLast? = some c ∧ c ≠ ',' ∧ c ≠ '('

theorem Solid.chain_parens {cs : List Char} (h : Solid cs) :
    ('(' :: cs ++ [')']).IsChain Fits := by
  obtain ⟨hchain, ⟨first, hfirst, hcomma, -⟩, last, hlast, hcomma', -⟩ := h
  obtain ⟨rest, rfl⟩ := List.head?_eq_some_iff.1 hfirst
  rw [List.isChain_append]
  refine ⟨List.isChain_cons_cons.2 ⟨by simp [Fits, hcomma], hchain⟩, List.isChain_singleton _, ?_⟩
  rw [List.getLast?_cons_cons, hlast]
  simp [Fits, hcomma']

theorem Solid.parens {cs : List Char} (h : Solid cs) : Solid ('(' :: cs ++ [')']) where
  chain := h.chain_parens
  head := ⟨'(', rfl, by decide, by decide⟩
  last := ⟨')', List.getLast?_concat, by decide, by decide⟩

theorem Solid.comma {first second : List Char} (h : Solid first) (hsecond : Solid second) :
    Solid (first ++ ',' :: second) := by
  obtain ⟨hchain, ⟨a, ha, hopen⟩, b, hb, hclose⟩ := h
  obtain ⟨hchain', ⟨c, hc, hopen'⟩, d, hd, hclose'⟩ := hsecond
  obtain ⟨rest, rfl⟩ := List.head?_eq_some_iff.1 hc
  refine ⟨?_, ⟨a, by simp [ha], hopen⟩, d, ?_, hclose'⟩
  · rw [List.isChain_append, hb]
    refine ⟨hchain, List.isChain_cons_cons.2 ⟨by simp [Fits, hopen'], hchain'⟩, ?_⟩
    simp [Fits, hclose]
  · rw [List.getLast?_append_cons, List.getLast?_cons_cons, hd]

end Text

namespace Value

/-! ## The grammar -/

/-- The name of a boolean. -/
def flagName : Bool → String
  | true => "True"
  | false => "False"

/-- The texts of integers, and the names of the other scalars. -/
inductive IsScalar : List Char → Value → Prop
  | int {cs : List Char} {n : Int64} (h : Numeral.Denotes cs n.toInt) : IsScalar cs (.int n)
  | bool (b : Bool) : IsScalar (flagName b).toList (.bool b)
  | dir (d : Direction) : IsScalar d.name.toList (.dir d)
  | color (c : Color) : IsScalar c.name.toList (.color c)
  | numbered (c : Color) : IsScalar ("Color".toList ++ Numeral.ofNat c.index) (.color c)

mutual
/-- The texts that are literals of a value: elements, with blanks around them. -/
inductive IsLiteral : List Char → Value → Prop
  | padded {before cs after : List Char} {v : Value} (hbefore : Text.allBlank before)
    (h : IsElement cs v) (hafter : Text.allBlank after) : IsLiteral (before ++ cs ++ after) v

/-- The texts of scalars and of tuples, without blanks around them. -/
inductive IsElement : List Char → Value → Prop
  | scalar {cs : List Char} {v : Value} (h : IsScalar cs v) : IsElement cs v
  | unit {blanks : List Char} (h : Text.allBlank blanks) :
    IsElement ('(' :: blanks ++ [')']) (.tuple [])
  | tuple {cs : List Char} {items : List Value} (h : AreItems cs items) :
    IsElement ('(' :: cs ++ [')']) (.tuple items)

/-- The literals of at least one value, with commas between them. -/
inductive AreItems : List Char → List Value → Prop
  | last {cs : List Char} {v : Value} (h : IsLiteral cs v) : AreItems cs [v]
  | cons {cs rest : List Char} {v : Value} {items : List Value} (h : IsLiteral cs v)
    (hrest : AreItems rest items) : AreItems (cs ++ ',' :: rest) (v :: items)
end

/-! ## Scalars -/

/-- The characters of a scalar: none of them separates items or nests them. -/
def isPlain (c : Char) : Bool :=
  c ≠ ',' && c ≠ '(' && c ≠ ')'

theorem isPlain_of_isBlank {c : Char} (h : Text.isBlank c) : isPlain c := by
  simp only [isPlain, Bool.and_eq_true, decide_eq_true_eq]
  refine ⟨⟨?_, ?_⟩, ?_⟩ <;> rintro rfl <;> exact absurd h (by decide)

theorem isPlain_of_isDigit {c : Char} (h : c.isDigit) : isPlain c := by
  simp only [isPlain, Bool.and_eq_true, decide_eq_true_eq]
  refine ⟨⟨?_, ?_⟩, ?_⟩ <;> rintro rfl <;> exact absurd h (by decide)

theorem isBlank_of_isDigit {c : Char} (h : c.isDigit) : Text.isBlank c = false := by
  simp only [Char.isDigit, Bool.and_eq_true, decide_eq_true_eq, ge_iff_le,
    UInt32.le_iff_toNat_le] at h
  change 48 ≤ c.toNat ∧ c.toNat ≤ 57 at h
  simp only [Text.isBlank, Text.blankRanges, List.any_cons, List.any_nil, Bool.or_false,
    Bool.or_eq_false_iff, Bool.and_eq_false_iff, decide_eq_false_iff_not]
  omega

/-- A scalar is a run of characters that are neither blank nor separate or nest items. -/
theorem IsScalar.chars {cs : List Char} {v : Value} (h : IsScalar cs v) :
    cs ≠ [] ∧ ∀ c ∈ cs, isPlain c ∧ Text.isBlank c = false := by
  have hname {name : List Char}
      (h : name ≠ [] ∧ name.all (fun c => isPlain c && !Text.isBlank c) = true) :
      name ≠ [] ∧ ∀ c ∈ name, isPlain c ∧ Text.isBlank c = false := by
    simpa using h
  cases h with
  | int h =>
    obtain ⟨hne, hchars⟩ := h.isDigit_or
    refine ⟨hne, fun c hc => ?_⟩
    rcases hchars c hc with hdigit | rfl | rfl
    · exact ⟨isPlain_of_isDigit hdigit, isBlank_of_isDigit hdigit⟩
    · decide
    · decide
  | bool b => exact hname (by cases b <;> decide)
  | dir d => exact hname (by cases d <;> decide)
  | color c => exact hname (by cases c <;> decide)
  | numbered c => exact hname (by cases c <;> decide)

theorem ofName?_of_denotes {cs : List Char} {n : Int} (h : Numeral.Denotes cs n) :
    ofName? (String.ofList cs) = none := by
  obtain ⟨hne, hchars⟩ := h.isDigit_or
  have hname {name : String} (heq : String.ofList cs = name)
      (hletter : name.toList.head?.all (fun d => !(d.isDigit || d = '+' || d = '-')) = true) :
      False := by
    obtain ⟨c, rest, rfl⟩ := List.exists_cons_of_ne_nil hne
    subst heq
    have hc := hchars c List.mem_cons_self
    simp_all
  unfold ofName?
  split
  all_goals
    first
    | rfl
    | next heq => exact (hname heq (by decide)).elim

theorem isScalar_of_ofName? {name : String} {v : Value} (h : ofName? name = some v) :
    IsScalar name.toList v := by
  unfold ofName? at h
  split at h <;> cases h
  · exact .bool true
  · exact .bool false
  · exact .dir .north
  · exact .dir .east
  · exact .dir .south
  · exact .dir .west
  · exact .color .blue
  · exact .numbered .blue
  · exact .color .black
  · exact .numbered .black
  · exact .color .red
  · exact .numbered .red
  · exact .color .green
  · exact .numbered .green

/-- Exactly the texts of scalars are read as scalars. -/
theorem scalar?_eq_some_iff {cs : List Char} {v : Value} : scalar? cs = some v ↔ IsScalar cs v := by
  constructor
  · intro h
    unfold scalar? at h
    split at h
    · next w hname =>
      obtain rfl := Option.some.inj h
      simpa using isScalar_of_ofName? hname
    · obtain ⟨n, hn, rfl⟩ := Option.map_eq_some_iff.1 h
      exact .int (Numeral.int64?_eq_some_iff.1 hn)
  · intro h
    cases h with
    | int h => rw [scalar?, ofName?_of_denotes h, Numeral.int64?_eq_some_iff.2 h, Option.map_some]
    | bool b => cases b <;> rfl
    | dir d => cases d <;> rfl
    | color c => cases c <;> rfl
    | numbered c => cases c <;> rfl

/-! ## Splitting items -/

/-- A text that is taken over into a part as a whole where so many parentheses are open, and
that leaves as many open. -/
structure Closed (least : Nat) (cs : List Char) : Prop where
  split : ∀ depth, least ≤ depth → ∀ part rest,
    splitFrom depth part (cs ++ rest) = splitFrom depth (cs.reverse ++ part) rest
  nesting : ∀ depth, Text.nesting? depth cs = some depth

theorem Closed.mono {least most : Nat} {cs : List Char} (h : Closed least cs) (hle : least ≤ most) :
    Closed most cs :=
  ⟨fun depth hdepth => h.split depth (Nat.le_trans hle hdepth), h.nesting⟩

theorem Closed.append {least : Nat} {first second : List Char} (h : Closed least first)
    (hsecond : Closed least second) : Closed least (first ++ second) where
  split depth hdepth part rest := by
    rw [List.append_assoc, h.split depth hdepth, hsecond.split depth hdepth, List.reverse_append,
      List.append_assoc]
  nesting depth := by
    rw [Text.nesting?_append, h.nesting, Option.bind_some, hsecond.nesting]

/-- Characters that neither separate nor nest are taken over anywhere. -/
theorem closed_of_isPlain {cs : List Char} (h : ∀ c ∈ cs, isPlain c) : Closed 0 cs := by
  induction cs with
  | nil => exact ⟨fun _ _ _ _ => rfl, fun _ => rfl⟩
  | cons c cs ih =>
    rw [List.forall_mem_cons] at h
    obtain ⟨⟨hcomma, hopen⟩, hclose⟩ : (c ≠ ',' ∧ c ≠ '(') ∧ c ≠ ')' := by
      simpa [isPlain] using h.1
    refine ⟨fun depth hdepth part rest => ?_, fun depth => ?_⟩
    · rw [List.cons_append, splitFrom, if_neg (fun hc => hcomma hc.1), if_neg hopen,
        if_neg hclose, (ih h.2).split depth hdepth, List.reverse_cons, List.append_assoc]
      rfl
    · rw [Text.nesting?, if_neg hopen, if_neg hclose, (ih h.2).nesting]

theorem closed_of_allBlank {cs : List Char} (h : Text.allBlank cs) : Closed 0 cs :=
  closed_of_isPlain fun c hc => isPlain_of_isBlank (List.all_eq_true.1 h c hc)

/-- Inside parentheses a comma is taken over, too. -/
theorem closed_comma : Closed 1 [','] where
  split depth hdepth part rest := by
    have hne : depth ≠ 0 := by omega
    simp [splitFrom, hne]
  nesting depth := by simp [Text.nesting?]

/-- Parentheses hide what is between them. -/
theorem Closed.parens {cs : List Char} (h : Closed 1 cs) : Closed 0 ('(' :: cs ++ [')']) where
  split depth _ part rest := by
    have hopen : splitFrom depth part ('(' :: (cs ++ ')' :: rest)) =
        splitFrom (depth + 1) ('(' :: part) (cs ++ ')' :: rest) := by
      simp [splitFrom]
    have hclose (part : List Char) :
        splitFrom (depth + 1) part (')' :: rest) = splitFrom depth (')' :: part) rest := by
      simp [splitFrom]
    rw [List.append_assoc, List.cons_append, List.singleton_append, hopen,
      h.split (depth + 1) (by omega), hclose]
    simp
  nesting depth := by
    have hopen : Text.nesting? depth ('(' :: cs ++ [')']) =
        (Text.nesting? (depth + 1) cs).bind (Text.nesting? · [')']) := by
      rw [← Text.nesting?_append]
      simp [Text.nesting?]
    rw [hopen, h.nesting]
    simp [Text.nesting?]

mutual
/-- A literal is taken over as a whole. -/
theorem IsLiteral.closed {cs : List Char} {v : Value} : IsLiteral cs v → Closed 0 cs
  | .padded hbefore h hafter =>
    ((closed_of_allBlank hbefore).append h.closed).append (closed_of_allBlank hafter)

theorem IsElement.closed {cs : List Char} {v : Value} : IsElement cs v → Closed 0 cs
  | .scalar h => closed_of_isPlain fun c hc => (h.chars.2 c hc).1
  | .unit h => ((closed_of_allBlank h).mono (Nat.zero_le 1)).parens
  | .tuple h => h.closed.parens

theorem AreItems.closed {cs : List Char} {items : List Value} : AreItems cs items → Closed 1 cs
  | .last h => h.closed.mono (Nat.zero_le 1)
  | .cons h hrest => (h.closed.mono (Nat.zero_le 1)).append (closed_comma.append hrest.closed)
end

theorem Closed.splitItems {cs : List Char} (h : Closed 0 cs) : splitItems cs = [cs] := by
  have hsplit := h.split 0 (Nat.le_refl 0) [] []
  simpa [Value.splitItems, splitFrom] using hsplit

theorem Closed.splitItems_comma {cs : List Char} (h : Closed 0 cs) (rest : List Char) :
    Value.splitItems (cs ++ ',' :: rest) = cs :: Value.splitItems rest := by
  rw [Value.splitItems, h.split 0 (Nat.le_refl 0)]
  simp [Value.splitItems, splitFrom]

theorem splitFrom_ne_nil (depth : Nat) (part cs : List Char) : splitFrom depth part cs ≠ [] := by
  induction cs generalizing depth part with
  | nil => simp [splitFrom]
  | cons c cs ih =>
    simp only [splitFrom]
    split_ifs
    · simp
    all_goals exact ih _ _

/-- Whatever the parts of a text are, with commas between them they are the text. -/
theorem intercalate_splitFrom (depth : Nat) (part cs : List Char) :
    [','].intercalate (splitFrom depth part cs) = part.reverse ++ cs := by
  induction cs generalizing depth part with
  | nil => simp [splitFrom]
  | cons c cs ih =>
    simp only [splitFrom]
    split_ifs with hcomma
    · obtain ⟨first, others, hparts⟩ := List.exists_cons_of_ne_nil (splitFrom_ne_nil 0 [] cs)
      have hrest := ih 0 []
      rw [hparts] at hrest ⊢
      rw [List.intercalate_cons_cons, hrest, hcomma.1]
      simp
    all_goals simp [ih]

/-! ## Reading literals -/

/-- A text is read without the blanks around it, and a tuple part by part. -/
theorem ofChars?_eq (cs : List Char) :
    ofChars? cs =
      match unparenthesize? (Text.trim cs) with
      | none => scalar? (Text.trim cs)
      | some inner =>
        if Text.allBlank inner then some (.tuple [])
        else ((splitItems inner).mapM ofChars?).map .tuple := by
  rw [ofChars?]
  split
  · next hnone => rw [hnone]
  · next inner hsome =>
    simp only [hsome]
    split
    · rfl
    · rw [List.mapM_subtype (g := ofChars?) (fun _ _ => rfl), List.unattach_attach]

theorem unparenthesize?_eq_some_iff {cs inner : List Char} :
    unparenthesize? cs = some inner ↔ cs = '(' :: inner ++ [')'] := by
  constructor
  · intro h
    unfold unparenthesize? at h
    split at h
    · next rest =>
      split at h
      · next hlast =>
        obtain rfl := Option.some.inj h
        obtain ⟨front, rfl⟩ := List.getLast?_eq_some_iff.1 hlast
        simp
      · cases h
    · cases h
  · rintro rfl
    simp [unparenthesize?]

/-- Parts that are read as literals, with commas between them, are items. -/
theorem areItems_of_mapM {parts : List (List Char)} (hne : parts ≠ []) {items : List Value}
    (h : ∀ part ∈ parts, ∀ v, ofChars? part = some v → IsLiteral part v)
    (hitems : parts.mapM ofChars? = some items) : AreItems ([','].intercalate parts) items := by
  induction parts generalizing items with
  | nil => exact absurd rfl hne
  | cons part rest ih =>
    rw [List.forall_mem_cons] at h
    rw [List.mapM_cons] at hitems
    simp only [Option.bind_eq_bind, Option.bind_eq_some_iff] at hitems
    obtain ⟨v, hv, others, hothers, hitems⟩ := hitems
    obtain rfl := Option.some.inj hitems
    cases rest with
    | nil =>
      obtain rfl := Option.some.inj hothers
      simpa using AreItems.last (h.1 v hv)
    | cons next rest =>
      rw [List.intercalate_cons_cons, List.append_assoc]
      exact .cons (h.1 v hv) (ih (by simp) h.2 hothers)

/-- What is read as a literal is one. -/
theorem isLiteral_of_ofChars? {cs : List Char} {v : Value} (h : ofChars? cs = some v) :
    IsLiteral cs v := by
  obtain ⟨before, after, hbefore, hafter, hcs⟩ := Text.exists_trim cs
  rw [hcs]
  refine .padded hbefore ?_ hafter
  rw [ofChars?_eq] at h
  split at h
  · exact .scalar (scalar?_eq_some_iff.1 h)
  · next inner hinner =>
    rw [unparenthesize?_eq_some_iff.1 hinner]
    split at h
    · next hblank =>
      obtain rfl := Option.some.inj h
      exact .unit hblank
    · obtain ⟨items, hitems, rfl⟩ := Option.map_eq_some_iff.1 h
      have hsplit : [','].intercalate (splitItems inner) = inner := intercalate_splitFrom 0 [] inner
      rw [← hsplit]
      refine .tuple (areItems_of_mapM (splitFrom_ne_nil 0 [] inner) (fun part hpart w hw => ?_) hitems)
      have hshorter : part.length < cs.length :=
        Nat.lt_of_le_of_lt (length_le_of_mem_splitItems hpart)
          (Nat.lt_of_lt_of_le (length_lt_of_unparenthesize? hinner) (Text.length_trim_le cs))
      exact isLiteral_of_ofChars? hw
termination_by cs.length

theorem IsElement.bounded {cs : List Char} {v : Value} (h : IsElement cs v) : Text.Bounded cs := by
  cases h with
  | scalar h =>
    obtain ⟨hne, hchars⟩ := h.chars
    exact ⟨⟨cs.head hne, List.head?_eq_some_head hne, (hchars _ (List.head_mem hne)).2⟩,
      cs.getLast hne, List.getLast?_eq_some_getLast hne, (hchars _ (List.getLast_mem hne)).2⟩
  | unit | tuple =>
    exact ⟨⟨'(', rfl, by decide⟩, ')', List.getLast?_concat, by decide⟩

theorem IsLiteral.allBlank_eq_false {cs : List Char} {v : Value} (h : IsLiteral cs v) :
    Text.allBlank cs = false := by
  obtain ⟨-, h, -⟩ := h
  obtain ⟨c, hc, hblank⟩ := h.bounded.head
  refine List.all_eq_false.2 ⟨c, ?_, by simp [hblank]⟩
  simp [List.mem_of_mem_head? hc]

theorem AreItems.allBlank_eq_false {cs : List Char} {items : List Value} (h : AreItems cs items) :
    Text.allBlank cs = false := by
  cases h with
  | last h => exact h.allBlank_eq_false
  | cons h hrest =>
    have hfirst := h.allBlank_eq_false
    rw [Text.allBlank] at hfirst ⊢
    rw [List.all_append, hfirst, Bool.false_and]

mutual
/-- A literal is read as its value. -/
theorem IsLiteral.ofChars?_eq_some {cs : List Char} {v : Value} :
    IsLiteral cs v → ofChars? cs = some v
  | .padded hbefore h hafter => h.ofChars?_eq_some hbefore hafter

theorem IsElement.ofChars?_eq_some {before cs after : List Char} {v : Value}
    (h : IsElement cs v) (hbefore : Text.allBlank before) (hafter : Text.allBlank after) :
    ofChars? (before ++ cs ++ after) = some v := by
  rw [ofChars?_eq, Text.trim_padded hbefore h.bounded hafter]
  match h with
  | .scalar h =>
    have hnone : unparenthesize? cs = none := by
      refine Option.eq_none_iff_forall_ne_some.2 fun inner hinner => ?_
      rw [unparenthesize?_eq_some_iff.1 hinner] at h
      exact absurd (h.chars.2 '(' (by simp)).1 (by decide)
    rw [hnone]
    exact scalar?_eq_some_iff.2 h
  | .unit h =>
    rw [unparenthesize?_eq_some_iff.2 rfl]
    simp only [h, if_true]
  | .tuple h =>
    rw [unparenthesize?_eq_some_iff.2 rfl]
    simp only [h.allBlank_eq_false, h.mapM_splitItems, Option.map_some]
    rfl

theorem AreItems.mapM_splitItems {cs : List Char} {items : List Value} :
    AreItems cs items → (splitItems cs).mapM ofChars? = some items
  | .last h => by
    rw [h.closed.splitItems, List.mapM_cons, h.ofChars?_eq_some]
    rfl
  | .cons h hrest => by
    rw [h.closed.splitItems_comma, List.mapM_cons, h.ofChars?_eq_some, hrest.mapM_splitItems]
    rfl
end

/-- Exactly the texts of the grammar are read, each as the value that it is a literal of. -/
theorem ofChars?_eq_some_iff {cs : List Char} {v : Value} : ofChars? cs = some v ↔ IsLiteral cs v :=
  ⟨isLiteral_of_ofChars?, IsLiteral.ofChars?_eq_some⟩

/-! ## The shape of literals -/

theorem solid_of_isPlain {cs : List Char} (hne : cs ≠ []) (h : ∀ c ∈ cs, isPlain c) :
    Text.Solid cs := by
  have hplain : ∀ c ∈ cs, (c ≠ ',' ∧ c ≠ '(') ∧ c ≠ ')' := by simpa [isPlain] using h
  refine ⟨?_, ⟨cs.head hne, List.head?_eq_some_head hne, ?_⟩,
    cs.getLast hne, List.getLast?_eq_some_getLast hne, (hplain _ (List.getLast_mem hne)).1⟩
  · refine (List.pairwise_of_forall_mem_list fun c hc d hd => ?_).isChain
    simp [Text.Fits, hplain c hc, hplain d hd]
  · exact ⟨(hplain _ (List.head_mem hne)).1.1, (hplain _ (List.head_mem hne)).2⟩

mutual
/-- No element is missing in a literal. -/
theorem IsLiteral.solid {cs : List Char} {v : Value} : IsLiteral cs v → Text.Solid (Text.tight cs)
  | .padded hbefore h hafter => by
    rw [Text.tight_append, Text.tight_append, Text.tight_of_allBlank hbefore,
      Text.tight_of_allBlank hafter, List.nil_append, List.append_nil]
    exact h.solid

theorem IsElement.solid {cs : List Char} {v : Value} : IsElement cs v → Text.Solid (Text.tight cs)
  | .scalar h => by
    rw [Text.tight_of_forall fun c hc => (h.chars.2 c hc).2]
    exact solid_of_isPlain h.chars.1 fun c hc => (h.chars.2 c hc).1
  | .unit h => by
    rw [Text.tight_parens, Text.tight_of_allBlank h]
    exact ⟨by decide, ⟨'(', rfl, by decide⟩, ')', rfl, by decide⟩
  | .tuple h => by
    rw [Text.tight_parens]
    exact h.solid.parens

theorem AreItems.solid {cs : List Char} {items : List Value} :
    AreItems cs items → Text.Solid (Text.tight cs)
  | .last h => h.solid
  | .cons h hrest => by
    rw [Text.tight_append, Text.tight_comma]
    exact h.solid.comma hrest.solid
end

/-- Every parenthesis of a literal is opened and closed. -/
theorem IsLiteral.balanced {cs : List Char} {v : Value} (h : IsLiteral cs v) : Text.Balanced cs :=
  h.closed.nesting 0

/-- Every comma of a literal stands between two elements. -/
theorem IsLiteral.commasSeparate {cs : List Char} {v : Value} (h : IsLiteral cs v) :
    Text.CommasSeparate cs :=
  h.solid.chain_parens

/-- Exactly the texts of the grammar are read, each as the value that it is a literal of.  None
of them has a parenthesis without its counterpart, a missing element or a comma at its end. -/
theorem ofText?_eq_some_iff :
    (∀ text v, ofText? text = some v ↔ IsLiteral text.toList v) ∧
      ∀ text v, ofText? text = some v →
        Text.Balanced text.toList ∧ Text.CommasSeparate text.toList := by
  refine ⟨fun _ _ => ofChars?_eq_some_iff, fun text v h => ?_⟩
  have hliteral : IsLiteral text.toList v := ofChars?_eq_some_iff.1 h
  exact ⟨hliteral.balanced, hliteral.commasSeparate⟩

theorem ofText?_eq_some_iff_nested :
    IsLiteral " ( +007 ,(Color2,(  )),\t-1)".toList
        (.tuple [.int 7, .tuple [.color .red, .tuple []], .int (-1)]) ∧
      Text.Balanced " ( +007 ,(Color2,(  )),\t-1)".toList ∧
      Text.CommasSeparate " ( +007 ,(Color2,(  )),\t-1)".toList ∧
      ∀ v, ¬IsLiteral "(1),(2)".toList v := by
  have hread : ofText? " ( +007 ,(Color2,(  )),\t-1)" =
      some (.tuple [.int 7, .tuple [.color .red, .tuple []], .int (-1)]) := by
    decide +kernel
  have hrefused : ofText? "(1),(2)" = none := by
    decide +kernel
  obtain ⟨hgrammar, hshape⟩ := ofText?_eq_some_iff
  refine ⟨(hgrammar _ _).1 hread, (hshape _ _ hread).1, (hshape _ _ hread).2, fun v hv => ?_⟩
  rw [← hgrammar, hrefused] at hv
  cases hv

end Value
end Gobstones
