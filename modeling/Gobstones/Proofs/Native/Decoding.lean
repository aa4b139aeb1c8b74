import Gobstones.Proofs.Native.Linking
/-!
# Decoding machine instructions

This module reads machine code back.  The decoder follows the rules by which a processor
takes an instruction apart: an extension byte may come first, then the opcode, which some
registers are part of, the operand byte, whose mode says whether it means a register or a
memory operand with a displacement, an index byte where the operand byte asks for one, and
an immediate operand.  The decoder knows nothing about the encoding.

Main definitions:

- {lit}`Extension` and {lit}`readExtension`: the extension byte, which may be missing.
- {lit}`Operand` and {lit}`readOperand`: the operand byte and what it announces.
- {lit}`decode`: the instruction at the front of machine code, and the bytes behind it.

Main results:

- Theorem {lit}`readOperand_memoryOperand`: memory operands are read back.
- Theorem {lit}`decode_encode`: instructions are read back, whatever follows them.
- Theorem {lit}`Instr.uniquely_decodable`: the machine code of straight instructions says
  which instructions they are.
-/

namespace Gobstones
namespace Native

/-! ## Operand numbers -/

/-- The register of a number. -/
def Register.ofNumber : UInt8 → Register
  | 0 => .rax
  | 1 => .rcx
  | 2 => .rdx
  | 3 => .rbx
  | 4 => .rsp
  | 5 => .rbp
  | 6 => .rsi
  | 7 => .rdi
  | 8 => .r8
  | 9 => .r9
  | 10 => .r10
  | 11 => .r11
  | 12 => .r12
  | 13 => .r13
  | 14 => .r14
  | _ => .r15

/-- The register of a high bit and the low three bits of a byte. -/
def Register.ofBits (high : Bool) (low : UInt8) : Register :=
  .ofNumber ((if high then 8 else 0) ||| (low &&& 7))

/-- The condition of a number, where instructions have it. -/
def Condition.ofNumber? : UInt8 → Option Condition
  | 0x2 => some .b
  | 0x3 => some .ae
  | 0x4 => some .e
  | 0x5 => some .ne
  | 0xC => some .l
  | 0xD => some .ge
  | 0xE => some .le
  | 0xF => some .g
  | _ => none

/-- The arithmetic operation of a number, where instructions have it. -/
def AluOp.ofNumber? : UInt8 → Option AluOp
  | 0 => some .add
  | 1 => some .or
  | 4 => some .and
  | 5 => some .sub
  | 6 => some .xor
  | 7 => some .cmp
  | _ => none

/-! ## Numbers in machine code -/

/-- Read a byte as a number with a sign. -/
def readByte : List UInt8 → Option (Int32 × List UInt8)
  | byte :: rest => some (byte.toInt8.toInt32, rest)
  | [] => none

/-- Read four bytes as a word. -/
def readWord : List UInt8 → Option (UInt32 × List UInt8)
  | a :: b :: c :: d :: rest => some (wordOfBytes a b c d, rest)
  | _ => none

/-- Read four bytes as a number with a sign. -/
def readInt32 (bytes : List UInt8) : Option (Int32 × List UInt8) :=
  (readWord bytes).map fun (word, rest) => (word.toInt32, rest)

/-- Read eight bytes as a number with a sign. -/
def readInt64 (bytes : List UInt8) : Option (Int64 × List UInt8) := do
  let (low, bytes) ← readWord bytes
  let (high, bytes) ← readWord bytes
  return ((ofHalves low high).toInt64, bytes)

/-! ## The decoder -/

/-- The extension of an instruction: whether there is an extension byte, whether the operands
are wide, and the high bits of the register operand, of the index register, and of the
register or base operand. -/
structure Extension where
  present : Bool
  wide : Bool
  reg : Bool
  index : Bool
  base : Bool
deriving DecidableEq, Repr

/-- The extension of an instruction without an extension byte. -/
def Extension.absent : Extension :=
  { present := false, wide := false, reg := false, index := false, base := false }

/-- The extension in an extension byte. -/
def Extension.ofByte (byte : UInt8) : Extension :=
  { present := true
    wide := byte &&& 8 ≠ 0
    reg := byte &&& 4 ≠ 0
    index := byte &&& 2 ≠ 0
    base := byte &&& 1 ≠ 0 }

/-- Read the extension byte if there is one. -/
def readExtension : List UInt8 → Extension × List UInt8
  | [] => (.absent, [])
  | byte :: rest => if byte &&& 0xF0 = 0x40 then (.ofByte byte, rest) else (.absent, byte :: rest)

/-- What an operand byte announces. -/
inductive Operand where
  | register (r : Register)
  | memory (mem : Memory)
deriving DecidableEq, Repr

/-- Read the base register of a memory operand.  The bits of {lit}`rsp` announce an index
byte, in which the same bits mean that there is no index register.  In mode zero, the bits of
{lit}`rbp` mean that there is no base register. -/
def readBase (ext : Extension) (mode bits : UInt8) (bytes : List UInt8) :
    Option (Register × List UInt8) :=
  if bits = 4 then
    match bytes with
    | [] => none
    | byte :: rest =>
      if ext.index || (byte >>> 3) &&& 7 ≠ 4 then none
      else if mode = 0 ∧ byte &&& 7 = 5 then none
      else some (.ofBits ext.base byte, rest)
  else if mode = 0 ∧ bits = 5 then none
  else some (.ofBits ext.base bits, bytes)

/-- Read the displacement of a memory operand. -/
def readDisplacement (mode : UInt8) (bytes : List UInt8) : Option (Int32 × List UInt8) :=
  if mode = 0 then some (0, bytes) else if mode = 1 then readByte bytes else readInt32 bytes

/-- Read an operand byte and the bytes that it announces.  It holds the bits of a register or
of a digit, too. -/
def readOperand (ext : Extension) : List UInt8 → Option (UInt8 × Operand × List UInt8)
  | [] => none
  | byte :: bytes =>
    let mode := byte >>> 6
    let field := (byte >>> 3) &&& 7
    let bits := byte &&& 7
    if mode = 3 then some (field, .register (.ofBits ext.base bits), bytes)
    else do
      let (base, bytes) ← readBase ext mode bits bytes
      let (disp, bytes) ← readDisplacement mode bytes
      return (field, .memory { base, disp }, bytes)

/-- The instruction of an opcode with an operand byte. -/
def instrOf (ext : Extension) (opcode field : UInt8) : Operand → Option Instr
  | .register r =>
    match opcode, ext.wide with
    | 0x89, true => some (.mov r (.ofBits ext.reg field))
    | 0x8B, true => some (.mov (.ofBits ext.reg field) r)
    | 0x85, true => some (.test r (.ofBits ext.reg field))
    | 0xF7, true => if field = 3 then some (.neg r) else if field = 7 then some (.idiv r) else none
    | 0xFF, _ => if field = 6 then some (.push r) else none
    | 0x8F, _ => if field = 0 then some (.pop r) else none
    | _, true =>
      if opcode &&& 0xC7 = 0x01 then
        (AluOp.ofNumber? (opcode >>> 3)).map (.alu · r (.ofBits ext.reg field))
      else none
    | _, false => none
  | .memory mem =>
    match opcode, ext.wide with
    | 0x89, true => some (.store mem (.ofBits ext.reg field))
    | 0x89, false => some (.store32 mem (.ofBits ext.reg field))
    | 0x8B, true => some (.load (.ofBits ext.reg field) mem)
    | 0x8B, false => some (.load32 (.ofBits ext.reg field) mem)
    | 0x8D, true => some (.lea (.ofBits ext.reg field) mem)
    | 0xFF, _ => if field = 6 then some (.pushMem mem) else none
    | 0x8F, _ => if field = 0 then some (.popMem mem) else none
    | _, _ => none

/-- The instruction of an opcode behind the escape byte, with an operand byte.  Without an
extension byte, the bits of {lit}`rsp` and those above mean the second bytes of the first four
registers as byte operands. -/
def escapedInstrOf (ext : Extension) (opcode field : UInt8) : Operand → Option Instr
  | .register r =>
    if opcode &&& 0xF0 = 0x90 then
      if !ext.present && 4 ≤ r.number then none
      else (Condition.ofNumber? (opcode &&& 0x0F)).map (.setcc · r)
    else
      match opcode, ext.wide with
      | 0xAF, true => some (.imul (.ofBits ext.reg field) r)
      | 0xB6, true => some (.movzx (.ofBits ext.reg field) r)
      | _, _ => none
  | .memory _ => none

/-- The instruction of an opcode with an operand byte and an immediate operand of one byte. -/
def byteInstrOf (ext : Extension) (opcode field : UInt8) (operand : Operand) (byte : UInt8) :
    Option Instr :=
  match opcode, ext.wide, operand with
  | 0x83, true, .register r => (AluOp.ofNumber? field).map (.aluImm · r byte.toInt8.toInt32)
  | 0xC1, true, .register r =>
    if field = 4 then some (.shl r byte) else if field = 5 then some (.shr r byte) else none
  | _, _, _ => none

/-- The instruction of an opcode with an operand byte and an immediate operand of four
bytes. -/
def wordInstrOf (ext : Extension) (opcode field : UInt8) (operand : Operand) (imm : Int32) :
    Option Instr :=
  match opcode, ext.wide, operand with
  | 0x81, true, .register r => (AluOp.ofNumber? field).map (.aluImm · r imm)
  | _, _, _ => none

/-- Decode an instruction with an operand byte and nothing behind it. -/
def decodeOperand (ext : Extension) (opcode : UInt8) (bytes : List UInt8) :
    Option (Instr × List UInt8) := do
  let (field, operand, bytes) ← readOperand ext bytes
  (instrOf ext opcode field operand).map (·, bytes)

/-- Decode an instruction behind the escape byte. -/
def decodeEscaped (ext : Extension) : List UInt8 → Option (Instr × List UInt8)
  | [] => none
  | opcode :: bytes => do
    let (field, operand, bytes) ← readOperand ext bytes
    (escapedInstrOf ext opcode field operand).map (·, bytes)

/-- Decode an instruction with an operand byte and an immediate operand of one byte. -/
def decodeWithByte (ext : Extension) (opcode : UInt8) (bytes : List UInt8) :
    Option (Instr × List UInt8) := do
  let (field, operand, bytes) ← readOperand ext bytes
  let byte ← bytes.head?
  (byteInstrOf ext opcode field operand byte).map (·, bytes.tail)

/-- Decode an instruction with an operand byte and an immediate operand of four bytes. -/
def decodeWithWord (ext : Extension) (opcode : UInt8) (bytes : List UInt8) :
    Option (Instr × List UInt8) := do
  let (field, operand, bytes) ← readOperand ext bytes
  let (imm, bytes) ← readInt32 bytes
  (wordInstrOf ext opcode field operand imm).map (·, bytes)

/-- Decode an instruction behind its extension. -/
def decodeOpcode (ext : Extension) (opcode : UInt8) (bytes : List UInt8) :
    Option (Instr × List UInt8) :=
  if opcode &&& 0xF8 = 0x50 then some (.push (.ofBits ext.base opcode), bytes)
  else if opcode &&& 0xF8 = 0x58 then some (.pop (.ofBits ext.base opcode), bytes)
  else if opcode &&& 0xF8 = 0xB8 then
    if ext.wide then
      (readInt64 bytes).map fun (imm, bytes) => (.movImm (.ofBits ext.base opcode) imm, bytes)
    else none
  else
    match opcode with
    | 0x99 => if ext.wide then some (.cqo, bytes) else none
    | 0xC3 => some (.ret, bytes)
    | 0x6A => (readByte bytes).map fun (imm, bytes) => (.pushImm imm, bytes)
    | 0x68 => (readInt32 bytes).map fun (imm, bytes) => (.pushImm imm, bytes)
    | 0x0F => decodeEscaped ext bytes
    | 0x83 => decodeWithByte ext opcode bytes
    | 0xC1 => decodeWithByte ext opcode bytes
    | 0x81 => decodeWithWord ext opcode bytes
    | _ => decodeOperand ext opcode bytes

/-- Decode the instruction at the front of machine code. -/
def decode (bytes : List UInt8) : Option (Instr × List UInt8) :=
  match readExtension bytes with
  | (_, []) => none
  | (ext, opcode :: bytes) => decodeOpcode ext opcode bytes

/-! ## Reading numbers back -/

@[simp] theorem Register.ofBits_low (r : Register) : Register.ofBits r.isHigh r.low = r := by
  cases r <;> rfl

theorem Register.low_lt (r : Register) : r.low < 8 := by
  cases r <;> decide

@[simp] theorem Condition.ofNumber?_number (cond : Condition) :
    Condition.ofNumber? cond.number = some cond := by
  cases cond <;> rfl

@[simp] theorem AluOp.ofNumber?_number (op : AluOp) : AluOp.ofNumber? op.number = some op := by
  cases op <;> rfl

theorem AluOp.number_lt (op : AluOp) : op.number < 8 := by
  cases op <;> decide

/-- A number that fits in a byte is the number of its low byte. -/
theorem toInt32_lowByte {n : Int32} (h : fitsByte n) : (lowByte n).toInt8.toInt32 = n := by
  obtain ⟨hge, hle⟩ : -128 ≤ n.toInt ∧ n.toInt ≤ 127 := by
    simpa [fitsByte, Int32.le_iff_toInt_le] using h
  have hlow : (lowByte n).toInt8 = n.toInt8 := by
    apply Int8.toBitVec_inj.1
    simp [lowByte, BitVec.signExtend_eq_setWidth_of_le]
  rw [hlow, ← Int32.toInt_inj, Int8.toInt_toInt32, Int32.toInt_toInt8]
  exact Int.bmod_eq_of_le (by omega) (by omega)

theorem readByte_lowByte {n : Int32} (h : fitsByte n) (rest : List UInt8) :
    readByte (lowByte n :: rest) = some (n, rest) := by
  rw [readByte, toInt32_lowByte h]

theorem readWord_wordBytes (word : UInt32) (rest : List UInt8) :
    readWord (wordBytes word ++ rest) = some (word, rest) := by
  simp only [wordBytes, List.cons_append, List.nil_append, readWord, wordOfBytes_wordBytes]

theorem readInt32_int32Bytes (n : Int32) (rest : List UInt8) :
    readInt32 (int32Bytes n ++ rest) = some (n, rest) := by
  rw [readInt32, int32Bytes, readWord_wordBytes]
  rfl

theorem setWidth_or_shiftLeft (b : BitVec 64) :
    (b.setWidth 32).setWidth 64 ||| ((b >>> 32).setWidth 32).setWidth 64 <<< 32 = b := by
  apply BitVec.eq_of_getLsbD_eq
  intro i hi
  simp only [BitVec.getLsbD_or, BitVec.getLsbD_shiftLeft, BitVec.getLsbD_setWidth,
    BitVec.getLsbD_ushiftRight]
  by_cases hlow : i < 32
  · simp [hlow, hi]
  · have hhigh : i - 32 < 32 := by omega
    have hsame : 32 + (i - 32) = i := by omega
    have hin : i - 32 < 64 := by omega
    simp [hlow, hi, hhigh, hin, hsame]

/-- A word is put together from its halves. -/
theorem ofHalves_halves (q : UInt64) : ofHalves (halves q).1 (halves q).2 = q := by
  apply UInt64.toBitVec_inj.1
  simp only [halves, ofHalves, UInt64.toBitVec_or, UInt64.toBitVec_shiftLeft,
    UInt32.toBitVec_toUInt64, UInt64.toBitVec_toUInt32, UInt64.toBitVec_shiftRight]
  exact setWidth_or_shiftLeft q.toBitVec

theorem readInt64_int64Bytes (n : Int64) (rest : List UInt8) :
    readInt64 (int64Bytes n ++ rest) = some (n, rest) := by
  simp only [readInt64, int64Bytes, quadBytes, List.append_assoc, readWord_wordBytes,
    Option.bind_eq_bind, Option.bind_some, ofHalves_halves]
  rfl

/-! ## Reading operands back -/

/-- The extension of an instruction with an extension byte and without an index register. -/
def Extension.given (wide reg base : Bool) : Extension :=
  { present := true, wide, reg, index := false, base }

/-- The extension of an instruction that has an extension byte only where it says something. -/
def Extension.needed (wide reg base : Bool) : Extension :=
  { Extension.given wide reg base with present := wide || reg || base }

theorem readExtension_extension (wide reg base : Bool) (rest : List UInt8) :
    readExtension (extension wide reg base :: rest) = (.given wide reg base, rest) := by
  cases wide <;> cases reg <;> cases base <;> rfl

theorem readExtension_absent {opcode : UInt8} (h : opcode &&& 0xF0 ≠ 0x40) (rest : List UInt8) :
    readExtension (opcode :: rest) = (.absent, opcode :: rest) := by
  rw [readExtension, if_neg h]

theorem readExtension_extensionIfNeeded (wide reg base : Bool) {opcode : UInt8}
    (h : opcode &&& 0xF0 ≠ 0x40) (rest : List UInt8) :
    readExtension (extensionIfNeeded wide reg base ++ opcode :: rest) =
      (.needed wide reg base, opcode :: rest) := by
  unfold extensionIfNeeded Extension.needed
  split
  · next hsome =>
    rw [List.singleton_append, readExtension_extension, hsome]
    rfl
  · next hnone =>
    rw [List.nil_append, readExtension_absent h]
    simp only [Bool.or_eq_true, not_or, Bool.not_eq_true] at hnone
    obtain ⟨⟨rfl, rfl⟩, rfl⟩ := hnone
    rfl

/-- The three parts of an operand byte. -/
theorem operandByte_parts {mode field bits : UInt8} (hmode : mode < 4) (hfield : field < 8)
    (hbits : bits < 8) :
    operandByte mode field bits >>> 6 = mode ∧ (operandByte mode field bits >>> 3) &&& 7 = field ∧
      operandByte mode field bits &&& 7 = bits := by
  have hall : ∀ (m : Fin 4) (f b : Fin 8),
      let byte := operandByte (.ofNat m) (.ofNat f) (.ofNat b)
      byte >>> 6 = .ofNat m ∧ (byte >>> 3) &&& 7 = .ofNat f ∧ byte &&& 7 = .ofNat b := by
    decide +kernel
  simpa using hall ⟨mode.toNat, hmode⟩ ⟨field.toNat, hfield⟩ ⟨bits.toNat, hbits⟩

theorem readOperand_registerOperand {ext : Extension} {field : UInt8} {r : Register}
    (hfield : field < 8) (hbase : ext.base = r.isHigh) (rest : List UInt8) :
    readOperand ext (registerOperand field r :: rest) = some (field, .register r, rest) := by
  obtain ⟨hmode, hf, hbits⟩ := operandByte_parts (by decide : (3 : UInt8) < 4) hfield r.low_lt
  simp only [readOperand, registerOperand, hmode, hf, hbits, if_true, hbase, Register.ofBits_low]

theorem displacement_fst_lt (mem : Memory) : (displacement mem).1 < 3 := by
  unfold displacement
  split
  · decide
  · split
    · exact (by decide : (1 : UInt8) < 3)
    · exact (by decide : (2 : UInt8) < 3)

/-- A base with the bits of {lit}`rbp` has a displacement. -/
theorem displacement_fst_ne {mem : Memory} (h : mem.base.low = 5) : (displacement mem).1 ≠ 0 := by
  unfold displacement
  rw [if_neg (by simp [h])]
  split
  · exact (by decide : (1 : UInt8) ≠ 0)
  · exact (by decide : (2 : UInt8) ≠ 0)

theorem readDisplacement_displacement (mem : Memory) (rest : List UInt8) :
    readDisplacement (displacement mem).1 ((displacement mem).2 ++ rest) =
      some (mem.disp, rest) := by
  unfold displacement readDisplacement
  split
  · next hnone => simp [hnone.1]
  · split
    · next hbyte => exact readByte_lowByte hbyte rest
    · exact readInt32_int32Bytes mem.disp rest

/-- The base register is in the index byte when its bits are those of {lit}`rsp`. -/
theorem readBase_indexByte {ext : Extension} {r : Register} (hlow : r.low = 4)
    (hbase : ext.base = r.isHigh) (hindex : ext.index = false) (mode : UInt8)
    (rest : List UInt8) :
    readBase ext mode 4 (indexByte r.low :: rest) = some (r, rest) := by
  have hr : Register.ofBits ext.base (indexByte r.low) = r := by
    calc Register.ofBits ext.base (indexByte r.low)
        = Register.ofBits r.isHigh r.low := by rw [hbase, hlow]; rfl
      _ = r := r.ofBits_low
  have hnone : (indexByte r.low >>> 3) &&& 7 = 4 := by rw [hlow]; rfl
  have hsome : indexByte r.low &&& 7 ≠ 5 := by rw [hlow]; decide
  simp [readBase, hindex, hnone, hsome, hr]

theorem readBase_low {ext : Extension} {r : Register} {mode : UInt8} (hlow : r.low ≠ 4)
    (hmode : r.low = 5 → mode ≠ 0) (hbase : ext.base = r.isHigh) (rest : List UInt8) :
    readBase ext mode r.low rest = some (r, rest) := by
  have hsome : ¬(mode = 0 ∧ r.low = 5) := fun h => hmode h.2 h.1
  simp only [readBase, if_neg hlow, if_neg hsome, hbase, Register.ofBits_low]

/-- A memory operand is read back, whichever bytes its base and its displacement need. -/
theorem readOperand_memoryOperand {ext : Extension} {field : UInt8} {mem : Memory}
    (hfield : field < 8) (hbase : ext.base = mem.base.isHigh) (hindex : ext.index = false)
    (rest : List UInt8) :
    readOperand ext (memoryOperand field mem ++ rest) = some (field, .memory mem, rest) := by
  have hlt : (displacement mem).1 < 4 :=
    UInt8.lt_trans (displacement_fst_lt mem) (by decide)
  have hne : (displacement mem).1 ≠ 3 := UInt8.ne_of_lt (displacement_fst_lt mem)
  unfold memoryOperand
  by_cases hlow : mem.base.low = 4
  · obtain ⟨hmode, hf, hbits⟩ := operandByte_parts hlt hfield (by decide : (4 : UInt8) < 8)
    simp only [if_pos hlow, List.cons_append, readOperand, hmode, hf, hbits, if_neg hne,
      readBase_indexByte hlow hbase hindex, readDisplacement_displacement, Option.bind_eq_bind,
      Option.bind_some]
    rfl
  · obtain ⟨hmode, hf, hbits⟩ := operandByte_parts hlt hfield mem.base.low_lt
    simp only [if_neg hlow, List.cons_append, readOperand, hmode, hf, hbits, if_neg hne,
      readBase_low hlow displacement_fst_ne hbase, readDisplacement_displacement,
      Option.bind_eq_bind, Option.bind_some]
    rfl

/-! ## Reading instructions back -/

theorem decode_extensionIfNeeded (wide reg base : Bool) {opcode : UInt8}
    (h : opcode &&& 0xF0 ≠ 0x40) (rest : List UInt8) :
    decode (extensionIfNeeded wide reg base ++ opcode :: rest) =
      decodeOpcode (.needed wide reg base) opcode rest := by
  rw [decode, readExtension_extensionIfNeeded wide reg base h]

/-- An opcode is followed by an operand byte and nothing else. -/
structure TakesOperand (opcode : UInt8) : Prop where
  ne_extension : opcode &&& 0xF0 ≠ 0x40
  decodeOpcode_eq : ∀ ext bytes, decodeOpcode ext opcode bytes = decodeOperand ext opcode bytes

section Forms

variable {wide : Bool} {opcode : UInt8} {reg base : Register} {mem : Memory}

theorem decode_operand {high low : Bool} {field : UInt8} {operand : Operand}
    {bytes rest : List UInt8} (h : TakesOperand opcode)
    (hread : readOperand (.needed wide high low) bytes = some (field, operand, rest)) :
    decode (extensionIfNeeded wide high low ++ opcode :: bytes) =
      (instrOf (.needed wide high low) opcode field operand).map (·, rest) := by
  rw [decode_extensionIfNeeded _ _ _ h.ne_extension, h.decodeOpcode_eq, decodeOperand, hread]
  rfl

theorem decode_formRegReg (h : TakesOperand opcode) (rest : List UInt8) :
    decode (formRegReg wide [opcode] reg base ++ rest) =
      (instrOf (.needed wide reg.isHigh base.isHigh) opcode reg.low (.register base)).map
        (·, rest) := by
  simp only [formRegReg, List.append_assoc, List.cons_append, List.nil_append]
  exact decode_operand h (readOperand_registerOperand reg.low_lt rfl rest)

theorem decode_formRegMem (h : TakesOperand opcode) (rest : List UInt8) :
    decode (formRegMem wide [opcode] reg mem ++ rest) =
      (instrOf (.needed wide reg.isHigh mem.base.isHigh) opcode reg.low (.memory mem)).map
        (·, rest) := by
  simp only [formRegMem, List.append_assoc, List.cons_append, List.nil_append]
  exact decode_operand h (readOperand_memoryOperand reg.low_lt rfl rfl rest)

theorem decode_formDigitReg {digit : UInt8} (h : TakesOperand opcode) (hdigit : digit < 8)
    (rest : List UInt8) :
    decode (formDigitReg wide opcode digit base ++ rest) =
      (instrOf (.needed wide false base.isHigh) opcode digit (.register base)).map
        (·, rest) := by
  simp only [formDigitReg, List.append_assoc, List.cons_append, List.nil_append]
  exact decode_operand h (readOperand_registerOperand hdigit rfl rest)

theorem decode_formDigitMem {digit : UInt8} (h : TakesOperand opcode) (hdigit : digit < 8)
    (rest : List UInt8) :
    decode (formDigitMem wide opcode digit mem ++ rest) =
      (instrOf (.needed wide false mem.base.isHigh) opcode digit (.memory mem)).map
        (·, rest) := by
  simp only [formDigitMem, List.append_assoc, List.cons_append]
  exact decode_operand h (readOperand_memoryOperand hdigit rfl rfl rest)

/-- Instructions with the escape byte and two registers. -/
theorem decode_escaped (rest : List UInt8) :
    decode (formRegReg wide [0x0F, opcode] reg base ++ rest) =
      (escapedInstrOf (.needed wide reg.isHigh base.isHigh) opcode reg.low (.register base)).map
        (·, rest) := by
  have hdecode (ext : Extension) (bytes : List UInt8) :
      decodeOpcode ext 0x0F bytes = decodeEscaped ext bytes := rfl
  simp only [formRegReg, List.append_assoc, List.cons_append, List.nil_append]
  rw [decode_extensionIfNeeded _ _ _ (by decide), hdecode]
  simp only [decodeEscaped]
  rw [readOperand_registerOperand reg.low_lt rfl]
  rfl

/-- Instructions with a digit, a register and an immediate operand of one byte. -/
theorem decode_withByte {digit byte : UInt8} (hdigit : digit < 8)
    (hopcode : opcode = 0x83 ∨ opcode = 0xC1) (rest : List UInt8) :
    decode (formDigitReg true opcode digit base ++ [byte] ++ rest) =
      (byteInstrOf (.needed true false base.isHigh) opcode digit (.register base) byte).map
        (·, rest) := by
  have hext : opcode &&& 0xF0 ≠ 0x40 := by rcases hopcode with rfl | rfl <;> decide
  have hdecode (ext : Extension) (bytes : List UInt8) :
      decodeOpcode ext opcode bytes = decodeWithByte ext opcode bytes := by
    rcases hopcode with rfl | rfl <;> rfl
  simp only [formDigitReg, List.append_assoc, List.cons_append, List.nil_append]
  rw [decode_extensionIfNeeded _ _ _ hext, hdecode, decodeWithByte,
    readOperand_registerOperand hdigit rfl]
  rfl

/-- Instructions with a digit, a register and an immediate operand of four bytes. -/
theorem decode_withWord {digit : UInt8} {imm : Int32} (hdigit : digit < 8) (rest : List UInt8) :
    decode (formDigitReg true 0x81 digit base ++ int32Bytes imm ++ rest) =
      (wordInstrOf (.needed true false base.isHigh) 0x81 digit (.register base) imm).map
        (·, rest) := by
  have hdecode (ext : Extension) (bytes : List UInt8) :
      decodeOpcode ext 0x81 bytes = decodeWithWord ext 0x81 bytes := rfl
  simp only [formDigitReg, List.append_assoc, List.cons_append, List.nil_append]
  rw [decode_extensionIfNeeded _ _ _ (by decide), hdecode, decodeWithWord,
    readOperand_registerOperand hdigit rfl]
  simp only [Option.bind_eq_bind, Option.bind_some, readInt32_int32Bytes]

end Forms

/-! ## Straight instructions -/

variable (rest : List UInt8)

theorem AluOp.takesOperand_opcode (op : AluOp) : TakesOperand op.opcode := by
  cases op <;> exact ⟨by decide, fun _ _ => rfl⟩

theorem decode_alu (op : AluOp) (dst src : Register) :
    decode (formRegReg true [op.opcode] src dst ++ rest) = some (.alu op dst src, rest) := by
  have hinstr : instrOf (.needed true src.isHigh dst.isHigh) op.opcode src.low (.register dst) =
      some (.alu op dst (.ofBits src.isHigh src.low)) := by
    cases op <;> rfl
  rw [decode_formRegReg op.takesOperand_opcode, hinstr, Register.ofBits_low]
  rfl

theorem decode_movImm (dst : Register) (imm : Int64) :
    decode (extension true false dst.isHigh :: (0xB8 + dst.low) :: int64Bytes imm ++ rest) =
      some (.movImm dst imm, rest) := by
  have hdecode (bytes : List UInt8) :
      decodeOpcode (.given true false dst.isHigh) (0xB8 + dst.low) bytes =
        (readInt64 bytes).map fun (imm, bytes) => (.movImm dst imm, bytes) := by
    cases dst <;> rfl
  simp only [List.cons_append, decode, readExtension_extension, hdecode, readInt64_int64Bytes]
  rfl

/-- The low byte of a register can be a byte operand of an instruction: the second bytes of
the first four registers are meant without an extension byte. -/
theorem decodeEscaped_setcc {ext : Extension} (cond : Condition) {dst : Register}
    (hbase : ext.base = dst.isHigh) (hpresent : 4 ≤ dst.number → ext.present = true) :
    decodeEscaped ext ((0x90 + cond.number) :: registerOperand 0 dst :: rest) =
      some (.setcc cond dst, rest) := by
  have hopcode : (0x90 + cond.number) &&& 0xF0 = 0x90 := by cases cond <;> rfl
  have hnumber : (0x90 + cond.number) &&& 0x0F = cond.number := by cases cond <;> rfl
  have hlow : ¬(!ext.present && decide (4 ≤ dst.number)) = true := by
    intro h
    obtain ⟨habsent, hle⟩ := Bool.and_eq_true_iff.1 h
    simp [hpresent (of_decide_eq_true hle)] at habsent
  simp only [decodeEscaped, readOperand_registerOperand (by decide : (0 : UInt8) < 8) hbase,
    escapedInstrOf, if_pos hopcode, if_neg hlow, hnumber, Condition.ofNumber?_number,
    Option.bind_eq_bind, Option.bind_some, Option.map_some]

theorem decode_setcc (distance : Int32) (cond : Condition) (dst : Register) :
    decode ((Instr.setcc cond dst).encode distance ++ rest) = some (.setcc cond dst, rest) := by
  have hdecode (ext : Extension) (bytes : List UInt8) :
      decodeOpcode ext 0x0F bytes = decodeEscaped ext bytes := rfl
  rw [Instr.encode]
  split
  · simp only [List.cons_append, List.nil_append, decode, readExtension_extension, hdecode]
    exact decodeEscaped_setcc rest cond rfl fun _ => rfl
  · next hlow =>
    have hhigh : Extension.absent.base = dst.isHigh := by
      cases dst <;> first | rfl | exact absurd (by decide) hlow
    simp only [List.cons_append, List.nil_append, decode,
      readExtension_absent (by decide : (0x0F : UInt8) &&& 0xF0 ≠ 0x40), hdecode]
    exact decodeEscaped_setcc rest cond hhigh fun hle => absurd hle hlow

theorem decode_aluImm (distance : Int32) (op : AluOp) (dst : Register) (imm : Int32) :
    decode ((Instr.aluImm op dst imm).encode distance ++ rest) =
      some (.aluImm op dst imm, rest) := by
  rw [Instr.encode]
  split
  · next hbyte =>
    rw [decode_withByte op.number_lt (.inl rfl)]
    simp [byteInstrOf, Extension.needed, Extension.given, toInt32_lowByte hbyte]
  · rw [decode_withWord op.number_lt]
    simp [wordInstrOf, Extension.needed, Extension.given]

theorem decode_pushImm (distance imm : Int32) :
    decode ((Instr.pushImm imm).encode distance ++ rest) = some (.pushImm imm, rest) := by
  have hbyte (bytes : List UInt8) : decode (0x6A :: bytes) =
      (readByte bytes).map fun (imm, bytes) => (.pushImm imm, bytes) := rfl
  have hword (bytes : List UInt8) : decode (0x68 :: bytes) =
      (readInt32 bytes).map fun (imm, bytes) => (.pushImm imm, bytes) := rfl
  rw [Instr.encode]
  split
  · next hfits =>
    simp only [List.cons_append, List.nil_append, hbyte, readByte_lowByte hfits]
    rfl
  · simp only [List.cons_append, hword, readInt32_int32Bytes]
    rfl

/-- Whether an instruction has no label. -/
def Instr.isStraight : Instr → Bool
  | jmp _ | jcc .. | call _ | bind _ => false
  | _ => true

/-- An instruction is read back from its bytes, whatever follows them. -/
theorem decode_encode {instr : Instr} (h : instr.isStraight) (distance : Int32) :
    decode (instr.encode distance ++ rest) = some (instr, rest) := by
  cases instr with
  | mov dst src | test dst src =>
    rw [Instr.encode, decode_formRegReg ⟨by decide, fun _ _ => rfl⟩]
    simp [instrOf, Extension.needed, Extension.given]
  | alu op dst src => exact decode_alu rest op dst src
  | load dst mem | store mem src | load32 dst mem | store32 mem src | lea dst mem =>
    rw [Instr.encode, decode_formRegMem ⟨by decide, fun _ _ => rfl⟩]
    simp [instrOf, Extension.needed, Extension.given]
  | neg r | idiv r =>
    rw [Instr.encode, decode_formDigitReg ⟨by decide, fun _ _ => rfl⟩ (by decide)]
    rfl
  | pushMem mem | popMem mem =>
    rw [Instr.encode, decode_formDigitMem ⟨by decide, fun _ _ => rfl⟩ (by decide)]
    rfl
  | shl r amount | shr r amount =>
    rw [Instr.encode, decode_withByte (by decide) (.inr rfl)]
    rfl
  | imul dst src =>
    rw [Instr.encode, decode_escaped]
    exact congrArg (fun dst => some (Instr.imul dst src, rest)) dst.ofBits_low
  | movzx dst src =>
    rw [Instr.encode, decode_escaped]
    exact congrArg (fun dst => some (Instr.movzx dst src, rest)) dst.ofBits_low
  | push r | pop r => cases r <;> rfl
  | cqo | ret => rfl
  | movImm dst imm => exact decode_movImm rest dst imm
  | aluImm op dst imm => exact decode_aluImm rest distance op dst imm
  | pushImm imm => exact decode_pushImm rest distance imm
  | setcc cond dst => exact decode_setcc rest distance cond dst
  | jmp | jcc | call | bind => cases h

/-! ## Machine code -/

theorem Instr.target?_eq_none {instr : Instr} (h : instr.isStraight) :
    instr.target? = none := by
  cases instr <;> first | rfl | cases h

theorem labelOffsets_straight {instrs : List Instr} (h : ∀ instr ∈ instrs, instr.isStraight)
    (offsets : Offsets) (offset : Nat) : labelOffsets offsets offset instrs = .ok offsets := by
  induction instrs generalizing offset with
  | nil => rfl
  | cons instr instrs ih =>
    have hrest := ih fun other hother => h other (List.mem_cons_of_mem _ hother)
    have hstraight := h instr List.mem_cons_self
    cases instr with
    | bind label => cases hstraight
    | _ => exact hrest _

theorem encodeFrom_straight {instrs : List Instr} (h : ∀ instr ∈ instrs, instr.isStraight)
    (offsets : Offsets) (code : Array UInt8) :
    encodeFrom offsets code instrs = .ok (code ++ (instrs.flatMap (Instr.encode 0)).toArray) := by
  induction instrs generalizing code with
  | nil => simp [encodeFrom]
  | cons instr instrs ih =>
    have hrest := ih fun other hother => h other (List.mem_cons_of_mem _ hother)
    rw [encodeFrom, Instr.target?_eq_none (h instr List.mem_cons_self)]
    refine (hrest _).trans (congrArg Except.ok (Array.toList_inj.1 ?_))
    simp

/-- Straight instructions can be linked, and their machine code is that of one instruction
after the other. -/
theorem link_straight {instrs : List Instr} (h : ∀ instr ∈ instrs, instr.isStraight)
    (labels : Nat) :
    link labels instrs = .ok {
      bytes := (instrs.flatMap (Instr.encode 0)).toArray
      offsets := Array.replicate labels none } := by
  rw [link_eq_ok_iff]
  constructor
  · exact labelOffsets_straight h _ 0
  · rw [encodeFrom_straight h, Array.empty_append]

/-- Instructions are read off their machine code one by one. -/
theorem eq_of_flatMap_encode {xs ys : List Instr} (hxs : ∀ instr ∈ xs, instr.isStraight)
    (hys : ∀ instr ∈ ys, instr.isStraight)
    (h : xs.flatMap (Instr.encode 0) = ys.flatMap (Instr.encode 0)) : xs = ys := by
  induction xs generalizing ys with
  | nil =>
    cases ys with
    | nil => rfl
    | cons y ys =>
      have hdecode := decode_encode (ys.flatMap (Instr.encode 0)) (hys y List.mem_cons_self) 0
      rw [← List.flatMap_cons, ← h] at hdecode
      cases hdecode
  | cons x xs ih =>
    have hdecode := decode_encode (xs.flatMap (Instr.encode 0)) (hxs x List.mem_cons_self) 0
    rw [← List.flatMap_cons, h] at hdecode
    cases ys with
    | nil => cases hdecode
    | cons y ys =>
      rw [List.flatMap_cons, decode_encode _ (hys y List.mem_cons_self)] at hdecode
      obtain ⟨rfl, hrest⟩ := Prod.mk.inj (Option.some.inj hdecode)
      rw [ih (fun instr hinstr => hxs instr (List.mem_cons_of_mem _ hinstr))
        (fun instr hinstr => hys instr (List.mem_cons_of_mem _ hinstr)) hrest.symm]

/-- Machine code is uniquely decodable: a straight instruction is read back from its bytes
whatever follows them, and lists of straight instructions, which can all be linked, are the
same if their machine code is. -/
theorem Instr.uniquely_decodable :
    (∀ instr : Instr, instr.isStraight → ∀ (distance : Int32) (rest : List UInt8),
      decode (instr.encode distance ++ rest) = some (instr, rest)) ∧
    ∀ xs ys : List Instr, (∀ instr ∈ xs, instr.isStraight) → (∀ instr ∈ ys, instr.isStraight) →
      ∀ m n : Nat, ∃ first second, link m xs = .ok first ∧ link n ys = .ok second ∧
        (first.bytes = second.bytes → xs = ys) := by
  refine ⟨fun instr h distance rest => decode_encode rest h distance, ?_⟩
  intro xs ys hxs hys m n
  exact ⟨_, _, link_straight hxs m, link_straight hys n,
    fun hbytes => eq_of_flatMap_encode hxs hys (Array.mk.inj hbytes)⟩

/-- Bases and displacements with rules of their own, and a byte operand that needs an
extension byte. -/
theorem Instr.uniquely_decodable_irregular :
    let code : List Instr := [.load .rax ⟨.rsp, 0⟩, .store ⟨.r12, -128⟩ .r9,
      .load32 .r8 ⟨.r13, 0⟩, .aluImm .cmp .r15 (-129), .setcc .g .rsi]
    let numbered : List Instr := [.load (.ofNumber 0) ⟨.ofNumber 4, 0⟩,
      .store ⟨.ofNumber 12, -128⟩ (.ofNumber 9), .load32 (.ofNumber 8) ⟨.ofNumber 13, 0⟩,
      .aluImm .cmp (.ofNumber 15) (-129), .setcc .g (.ofNumber 6)]
    decode ((Instr.setcc .g .rsi).encode 0 ++ [0xC3]) = some (.setcc .g .rsi, [0xC3]) ∧
      (∀ instr ∈ code, instr.isStraight = true) ∧
      (∀ instr ∈ numbered, instr.isStraight = true) ∧
      ∃ first second, link 0 code = .ok first ∧ link 3 numbered = .ok second ∧
        first.bytes = second.bytes ∧ code = numbered := by
  intro code numbered
  have hdecode := Instr.uniquely_decodable.1 (.setcc .g .rsi) rfl 0 [0xC3]
  have hcode : ∀ instr ∈ code, instr.isStraight = true := by decide
  have hnumbered : ∀ instr ∈ numbered, instr.isStraight = true := by decide
  obtain ⟨first, second, hfirst, hsecond, heq⟩ :=
    Instr.uniquely_decodable.2 code numbered hcode hnumbered 0 3
  have hbytes : first.bytes = second.bytes := by
    rw [link_straight hcode] at hfirst
    rw [link_straight hnumbered] at hsecond
    rw [← Except.ok.inj hfirst, ← Except.ok.inj hsecond]
    decide
  exact ⟨hdecode, hcode, hnumbered, first, second, hfirst, hsecond, hbytes, heq hbytes⟩

end Native
end Gobstones
