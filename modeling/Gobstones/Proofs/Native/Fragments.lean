import Gobstones.Proofs.Native.Calls
/-!
# Fragments of native code

This module follows the short pieces of code that the instructions of a routine consist
of: pushing words, reading and writing variables, and jumping on the word on top of the
stack.

Main results:

- Theorem {lit}`leads_pushWord`: a word is pushed.
- Theorem {lit}`leads_readCode`: a variable is read.
- Theorems {lit}`leads_popMem` and {lit}`leads_storeSentinel`: a variable is written.
- Theorem {lit}`leads_jumpUnlessListed`: a word is looked up in a list.
-/

namespace Gobstones
namespace Native

open RoutineCompiler (jumpUnlessListed)

variable {code : NativeCode} {v : View} {n m : Nat} {Q : View → Nat → Prop}
variable {instrs : List Instr} {rest : List Word} {k : Int64}

/-! ## Words -/

/-- A word is pushed. -/
theorem leads_pushWord {word : Int64} (hat : code.At n (pushWord word))
    (hrest : ∀ v', v.Agrees v' → v'.live = .int word :: v.live →
      code.Leads v' (n + (pushWord word).length) Q) : code.Leads v n Q := by
  rcases v with ⟨⟨rax, rcx, rdx, rbx, rsp, rbp, rsi, rdi, r8, r9, r10, r11, r12, r13, r14, r15⟩,
    flags, live, dead, cells, results⟩
  unfold pushWord at hat hrest
  split at hat
  · next hfits =>
    rw [if_pos hfits] at hrest
    refine .block hat rfl (hrest _ ?_ ?_)
    · exact ⟨⟨rfl, rfl, rfl, rfl⟩, rfl, rfl, rfl, rfl, rfl, rfl⟩
    · exact congrArg (fun word => Word.int word :: live) hfits
  · next hlarge =>
    rw [if_neg hlarge] at hrest
    refine .block hat rfl (hrest _ ?_ rfl)
    exact ⟨⟨rfl, rfl, rfl, rfl⟩, rfl, rfl, rfl, rfl, rfl, rfl⟩

/-- The word in {lit}`rax` is compared with another one. -/
theorem leads_compareWord {word : Int64} (hat : code.At n (compareWord word))
    (hrax : v.regs.rax = .int k)
    (hrest : ∀ v', v.Agrees v' → v'.live = v.live → v'.regs.rax = .int k →
      v'.flags = some (.ofDifference k word) → code.Leads v' (n + (compareWord word).length) Q) :
    code.Leads v n Q := by
  rcases v with ⟨⟨rax, rcx, rdx, rbx, rsp, rbp, rsi, rdi, r8, r9, r10, r11, r12, r13, r14, r15⟩,
    flags, live, dead, cells, results⟩
  dsimp only at hrax
  subst hrax
  unfold compareWord at hat hrest
  split at hat
  · next hfits =>
    rw [if_pos hfits] at hrest
    refine .block hat rfl (hrest _ ?_ rfl rfl ?_)
    · exact ⟨⟨rfl, rfl, rfl, rfl⟩, rfl, rfl, rfl, rfl, rfl, rfl⟩
    · exact congrArg (fun word => some (Flags.ofDifference k word)) hfits
  · next hlarge =>
    rw [if_neg hlarge] at hrest
    refine .block hat rfl (hrest _ ?_ rfl rfl rfl)
    exact ⟨⟨rfl, rfl, rfl, rfl⟩, rfl, rfl, rfl, rfl, rfl, rfl⟩

/-! ## Lists of words -/

/-- The word in {lit}`rax` is looked up in a list: one jump is taken if it is found, and another
one if it is not. -/
theorem leads_lookup {words : List Int64} {matched target : Label} (hlinked : code.Linked)
    (hat : code.At n (words.flatMap (fun word => compareWord word ++ [Instr.jcc .e matched]) ++
      [Instr.jmp target, .bind matched])) (hrax : v.regs.rax = .int k)
    (hplace : code.place target = some m)
    (hfound : k ∈ words → ∀ v', v.Agrees v' → v'.live = v.live →
      code.Leads v' (n + (words.flatMap (fun word => compareWord word ++ [Instr.jcc .e matched]) ++
        [Instr.jmp target, .bind matched]).length) Q)
    (hmissed : k ∉ words → ∀ v', v.Agrees v' → v'.live = v.live → code.Leads v' m Q) :
    code.Leads v n Q := by
  induction words generalizing v n with
  | nil => exact .jmp (hat 0 _ rfl) hplace (hmissed (by simp) v (.refl v) rfl)
  | cons word words ih =>
    rw [List.flatMap_cons, List.append_assoc, List.append_assoc] at hat hfound
    obtain ⟨hcompare, hat⟩ := NativeCode.at_append_iff.1 hat
    rw [List.singleton_append] at hat
    obtain ⟨hjcc, hat⟩ := NativeCode.at_cons_iff.1 hat
    have hend (segment : List Instr) :
        n + (compareWord word ++ ([Instr.jcc .e matched] ++ segment)).length =
        n + (compareWord word).length + 1 + segment.length := by
      simp
      omega
    rw [hend] at hfound
    refine leads_compareWord hcompare hrax fun v' hagrees hlive hrax' hflags => ?_
    by_cases heq : k = word
    · obtain ⟨-, hlast⟩ := NativeCode.at_append_iff.1 hat
      have hbind := hlast 1 _ rfl
      have hmatched := hlinked.place_eq hjcc rfl hbind
      refine .taken hjcc hflags (by simp [Flags.holds, Flags.ofDifference, heq]) hmatched ?_
      have hleads := hfound (by simp [heq]) v' hagrees hlive
      rw [List.length_append, ← Nat.add_assoc] at hleads
      exact hleads
    · refine .passed hjcc hflags (by simp [Flags.holds, Flags.ofDifference, heq]) ?_
      refine ih hat hrax' (fun hmem v'' hagrees' hlive' => ?_) fun hmem v'' hagrees' hlive' => ?_
      · exact hfound (List.mem_cons_of_mem _ hmem) v'' (hagrees.trans hagrees') (hlive'.trans hlive)
      · exact hmissed (by simp [heq, hmem]) v'' (hagrees.trans hagrees') (hlive'.trans hlive)

/-- The word on top of the stack is looked up in a list. -/
theorem leads_jumpUnlessListed {words : List Int64} {matched target : Label} (hlinked : code.Linked)
    (hat : code.At n (jumpUnlessListed words matched target)) (hlive : v.live = .int k :: rest)
    (hplace : code.place target = some m)
    (hfound : k ∈ words → ∀ v', v.Agrees v' → v'.live = rest →
      code.Leads v' (n + (jumpUnlessListed words matched target).length) Q)
    (hmissed : k ∉ words → ∀ v', v.Agrees v' → v'.live = rest → code.Leads v' m Q) :
    code.Leads v n Q := by
  rcases v with ⟨⟨rax, rcx, rdx, rbx, rsp, rbp, rsi, rdi, r8, r9, r10, r11, r12, r13, r14, r15⟩,
    flags, live, dead, cells, results⟩
  dsimp only at hlive
  subst hlive
  unfold jumpUnlessListed at hat hfound
  rw [List.cons_append] at hat hfound
  obtain ⟨hpop, hat⟩ := NativeCode.at_cons_iff.1 hat
  refine .instr hpop rfl (leads_lookup hlinked hat rfl hplace ?_ ?_)
  · intro hmem v' hagrees hlive
    have hleads := hfound hmem v' (.trans ?_ hagrees) hlive
    · rw [List.length_cons, Nat.add_comm _ 1, ← Nat.add_assoc] at hleads
      exact hleads
    · exact ⟨⟨rfl, rfl, rfl, rfl⟩, rfl, rfl, rfl, rfl, rfl, rfl⟩
  · intro hmem v' hagrees hlive
    refine hmissed hmem v' (.trans ?_ hagrees) hlive
    exact ⟨⟨rfl, rfl, rfl, rfl⟩, rfl, rfl, rfl, rfl, rfl, rfl⟩

/-- A jump on the word on top of the stack. -/
theorem leads_jumpIfFalse {label : Label}
    (hat : code.At n [.pop .rax, .test .rax .rax, .jcc .e label]) (hlive : v.live = .int k :: rest)
    (hplace : code.place label = some m)
    (htrue : k ≠ 0 → ∀ v', v.Agrees v' → v'.live = rest → code.Leads v' (n + 3) Q)
    (hfalse : k = 0 → ∀ v', v.Agrees v' → v'.live = rest → code.Leads v' m Q) :
    code.Leads v n Q := by
  rcases v with ⟨⟨rax, rcx, rdx, rbx, rsp, rbp, rsi, rdi, r8, r9, r10, r11, r12, r13, r14, r15⟩,
    flags, live, dead, cells, results⟩
  dsimp only at hlive
  subst hlive
  refine .block (hat.slice 0 2) rfl ?_
  by_cases hk : k = 0
  · refine .taken (hat 2 _ rfl) rfl ?_ hplace (hfalse hk _ ?_ rfl)
    · simp [Flags.holds, Flags.ofBits, hk]
    · exact ⟨⟨rfl, rfl, rfl, rfl⟩, rfl, rfl, rfl, rfl, rfl, rfl⟩
  · refine .passed (hat 2 _ rfl) rfl ?_ (htrue hk _ ?_ rfl)
    · simp [Flags.holds, Flags.ofBits, hk]
    · exact ⟨⟨rfl, rfl, rfl, rfl⟩, rfl, rfl, rfl, rfl, rfl, rfl⟩

/-! ## Variables -/

section Variables

variable {layout : FrameLayout} {above frame below : List Word} {name : String} {mem : Memory}
variable {locals : Locals} {stubs : List (String × Label)} {w : Word}

/-- A variable without a value and a variable with one are held by integers. -/
theorem FrameLayout.HoldsValue.exists_int {value : Option Value}
    (h : FrameLayout.HoldsValue value w) : ∃ k, w = .int k := by
  cases value with
  | none => exact ⟨sentinel, h⟩
  | some value =>
    rcases h with ⟨k, -, hk⟩
    exact ⟨k, hk⟩

/-- A word of a frame is read: it is pushed, unless it is the sentinel. -/
theorem leads_readWord (hv : v.Framed layout above frame below) (hlayout : layout.Separates)
    (hlinked : code.Linked) (hcode : ReadCode layout stubs name instrs) (hat : code.At n instrs)
    (hword : ∀ slot, layout.slot? name = some slot →
      frame[slot.index layout.locals]? = some (.int k)) :
    (k ≠ sentinel → ∀ Q, (∀ v', v.Agrees v' → v'.live = .int k :: v.live →
        code.Leads v' (n + instrs.length) Q) → code.Leads v n Q) ∧
      (k = sentinel → ∃ label m, ((FaultCause.uninitialized name).message, label) ∈ stubs ∧
        code.place label = some m ∧ ∀ Q, (∀ v', v.Agrees v' → v'.live = v.live →
          code.Leads v' m Q) → code.Leads v n Q) := by
  rcases hcode with ⟨mem, label, hmem, hstub, rfl⟩
  rcases hv.exists_slot hlayout hmem with ⟨slot, address, hslot, haddress, hread, -⟩
  have hload : v.perform (.load .rax mem) = some (v.setReg .rax (.int k)) :=
    View.perform_load (by simp) haddress (hread _ (hword slot hslot))
  have hjcc : code.instrs[n + 3]? = some (.jcc .e label) := hat 3 _ rfl
  refine ⟨fun hk Q hrest => ?_, fun hk => ?_⟩
  · refine .instr (hat 0 _ rfl) hload (.block (hat.slice 1 2) rfl (.passed hjcc rfl ?_ ?_))
    · change decide (k = sentinel) = false
      exact decide_eq_false hk
    · refine .instr (hat 4 _ rfl) rfl (hrest _ ?_ rfl)
      exact ⟨⟨rfl, rfl, rfl, rfl⟩, rfl, rfl, rfl, rfl, rfl, rfl⟩
  · rcases hlinked.exists_place hjcc rfl with ⟨j, -, hplace⟩
    refine ⟨label, j + 1, hstub, hplace, fun Q hrest => ?_⟩
    refine .instr (hat 0 _ rfl) hload (.block (hat.slice 1 2) rfl (.taken hjcc rfl ?_ hplace ?_))
    · change decide (k = sentinel) = true
      exact decide_eq_true hk
    · refine hrest _ ?_ rfl
      exact ⟨⟨rfl, rfl, rfl, rfl⟩, rfl, rfl, rfl, rfl, rfl, rfl⟩

/-- A variable is read: its word is pushed, unless the variable has no value. -/
theorem leads_readCode (hv : v.Framed layout above frame below) (hlayout : layout.Separates)
    (hlinked : code.Linked) (hcode : ReadCode layout stubs name instrs) (hat : code.At n instrs)
    (hholds : layout.Holds locals frame) :
    ∃ k, FrameLayout.HoldsValue (locals.get? name) (.int k) ∧
      (k ≠ sentinel → ∀ Q, (∀ v', v.Agrees v' → v'.live = .int k :: v.live →
        code.Leads v' (n + instrs.length) Q) → code.Leads v n Q) ∧
      (k = sentinel → ∃ label m, ((FaultCause.uninitialized name).message, label) ∈ stubs ∧
        code.place label = some m ∧ ∀ Q, (∀ v', v.Agrees v' → v'.live = v.live →
          code.Leads v' m Q) → code.Leads v n Q) := by
  have hshape := hcode
  obtain ⟨mem, -, hmem, -⟩ := hshape
  obtain ⟨slot, hslot, -⟩ := slot_of_memory hmem
  obtain ⟨w, hw, hvalue⟩ := hholds name slot hslot
  obtain ⟨k, rfl⟩ := hvalue.exists_int
  refine ⟨k, hvalue, leads_readWord hv hlayout hlinked hcode hat fun other hother => ?_⟩
  obtain rfl := Option.some.inj (hslot.symm.trans hother)
  exact hw

/-- The word on top of the stack is popped into a variable. -/
theorem exists_popMem (hv : v.Framed layout (w :: above) frame below) (hlayout : layout.Separates)
    (hmem : layout.memory name = .ok mem) :
    ∃ slot v', layout.slot? name = some slot ∧ v.perform (.popMem mem) = some v' ∧ v.Agrees v' ∧
      v'.live = above ++ frame.set (slot.index layout.locals) w ++ below := by
  let popped : View := { v with live := above ++ frame ++ below, dead := w :: v.dead }
  have hpop : v.pop? = some (w, popped) := by
    rw [View.pop?, hv.live]
    rfl
  have hpopped : popped.Framed layout above frame below := hv.of_live rfl rfl rfl
  rcases hpopped.exists_slot hlayout hmem with ⟨slot, address, hslot, haddress, -, hwrite⟩
  have hview : v.perform (.popMem mem) = some { popped with
      live := above ++ frame.set (slot.index layout.locals) w ++ below } := by
    simp only [View.perform, Instr.setsStackPointer, hpop, haddress, hwrite, bind, Option.bind]
    rfl
  exact ⟨slot, _, hslot, hview, ⟨⟨rfl, rfl, rfl, rfl⟩, rfl, rfl, rfl, rfl, rfl, rfl⟩, rfl⟩

/-- The word on top of the stack is popped into a variable. -/
theorem leads_popMem (hv : v.Framed layout (w :: above) frame below) (hlayout : layout.Separates)
    (hmem : layout.memory name = .ok mem) (hinstr : code.instrs[n]? = some (.popMem mem)) :
    ∃ slot, layout.slot? name = some slot ∧ ((∀ v', v.Agrees v' →
      v'.live = above ++ frame.set (slot.index layout.locals) w ++ below →
        code.Leads v' (n + 1) Q) → code.Leads v n Q) := by
  rcases exists_popMem hv hlayout hmem with ⟨slot, v', hslot, hview, hagrees, hlive⟩
  exact ⟨slot, hslot, fun hrest => .instr hinstr hview (hrest v' hagrees hlive)⟩

/-- A word is stored in a variable. -/
theorem exists_storeVariable (hv : v.Framed layout above frame below) (hlayout : layout.Separates)
    (hmem : layout.memory name = .ok mem) (src : Register) :
    ∃ slot v', layout.slot? name = some slot ∧ v.perform (.store mem src) = some v' ∧ v.Agrees v' ∧
      v'.live = above ++ frame.set (slot.index layout.locals) (v.reg src) ++ below := by
  rcases hv.exists_slot hlayout hmem with ⟨slot, address, hslot, haddress, -, hwrite⟩
  exact ⟨slot, _, hslot, View.perform_store haddress (hwrite _),
    ⟨⟨rfl, rfl, rfl, rfl⟩, rfl, rfl, rfl, rfl, rfl, rfl⟩, rfl⟩

/-- The value of a variable is forgotten. -/
theorem leads_storeSentinel (hv : v.Framed layout above frame below) (hlayout : layout.Separates)
    (hmem : layout.memory name = .ok mem)
    (hat : code.At n [.movImm .rax sentinel, .store mem .rax]) :
    ∃ slot, layout.slot? name = some slot ∧ ((∀ v', v.Agrees v' →
      v'.live = above ++ frame.set (slot.index layout.locals) (.int sentinel) ++ below →
        code.Leads v' (n + 2) Q) → code.Leads v n Q) := by
  let loaded := v.adopt (v.cpu.setReg .rax (.int sentinel))
  have hloaded : loaded.Framed layout above frame below := hv.of_live hv.live rfl rfl
  rcases exists_storeVariable hloaded hlayout hmem .rax with ⟨slot, v', hslot, hview, hagrees, hlive⟩
  refine ⟨slot, hslot, fun hrest => .instr (hat 0 _ rfl) rfl
    (.instr (hat 1 _ rfl) hview (hrest v' (.trans ?_ hagrees) hlive))⟩
  exact ⟨⟨rfl, rfl, rfl, rfl⟩, rfl, rfl, rfl, rfl, rfl, rfl⟩

end Variables

end Native
end Gobstones
