import Gobstones.Native.Run
import Gobstones.Proofs.Board.Encoding
/-!
# Boards and messages in memory

This module shows what the host reads from the memory of native code: the board whose
words lie behind the header, and the message whose words lie at the start of the result
buffer.

Main definitions:

- {lit}`Board.takeOver`: a board with the head and the cells of another one.
- {lit}`shownMessage`: what is left of a message in the result buffer.
- {lit}`shownBytes`: what the host reads of a result buffer after a failure.

Main results:

- Theorem {lit}`Board.updateFromBytes_of_words`: the head and the cells are taken over.
- Theorem {lit}`messageOf_messageWords`: a message is cut off after 511 bytes and in front
  of the first null character.
-/

namespace Gobstones

/-! ## Words and bytes -/

/-- The bytes of a 64-bit word are those that it was put together from. -/
theorem quadBytes_quadOfBytes (a b c d e f g h : UInt8) :
    quadBytes (quadOfBytes [a, b, c, d, e, f, g, h]) = [a, b, c, d, e, f, g, h] := by
  simp only [quadBytes, halves, wordBytes, quadOfBytes, List.take, List.foldr, List.cons_append,
    List.nil_append, List.cons.injEq, and_true]
  refine ⟨?_, ?_, ?_, ?_, ?_, ?_, ?_, ?_⟩ <;>
  · apply UInt8.toBitVec_inj.1
    ext i hi
    simp [hi] <;> grind

theorem length_flatMap_quadBytes (quads : List UInt64) :
    (quads.flatMap quadBytes).length = 8 * quads.length := by
  induction quads with
  | nil => rfl
  | cons q quads ih =>
    rw [List.flatMap_cons, List.length_append, ih, List.length_cons, quadBytes, wordBytes,
      wordBytes]
    simp only [List.length_append, List.length_cons, List.length_nil]
    omega

/-- Bytes are read back from 64-bit words, the last of which is filled up with zeros. -/
theorem flatMap_quadBytes (bytes : List UInt8) :
    ∃ k < 8, (quadsOfBytes bytes).flatMap quadBytes = bytes ++ List.replicate k 0 := by
  fun_induction quadsOfBytes bytes with
  | case1 a b c d e f g h rest ih =>
    obtain ⟨k, hk, ih⟩ := ih
    exact ⟨k, hk, by rw [List.flatMap_cons, quadBytes_quadOfBytes, ih]; rfl⟩
  | case2 => exact ⟨0, by decide, rfl⟩
  | case3 rest hshort hrest =>
    have hpos := List.length_pos_iff.2 hrest
    refine ⟨8 - rest.length, by omega, ?_⟩
    rw [List.flatMap_singleton]
    match rest, hshort, hrest with
    | [a], _, _ => exact quadBytes_quadOfBytes a 0 0 0 0 0 0 0
    | [a, b], _, _ => exact quadBytes_quadOfBytes a b 0 0 0 0 0 0
    | [a, b, c], _, _ => exact quadBytes_quadOfBytes a b c 0 0 0 0 0
    | [a, b, c, d], _, _ => exact quadBytes_quadOfBytes a b c d 0 0 0 0
    | [a, b, c, d, e], _, _ => exact quadBytes_quadOfBytes a b c d e 0 0 0
    | [a, b, c, d, e, f], _, _ => exact quadBytes_quadOfBytes a b c d e f 0 0
    | [a, b, c, d, e, f, g], _, _ => exact quadBytes_quadOfBytes a b c d e f g 0
    | a :: b :: c :: d :: e :: f :: g :: h :: rest, hshort, _ =>
      exact (hshort a b c d e f g h rest rfl).elim
    | [], _, hrest => exact (hrest rfl).elim

/-! ## Boards -/

namespace Board

/-- A board with the head and the cells of another one.  Its logs stay. -/
def takeOver (board other : Board) : Board :=
  { board with headX := other.headX, headY := other.headY, cells := other.cells }

/-- The head and the cells are taken over from as many words, whatever the first two words are. -/
theorem updateFromBytes_words {board : Board} {x y : UInt32} {counters : List UInt32}
    (hlength : counters.length = 4 * board.cells.size) (hx : x < board.width)
    (hy : y < board.height) (w h : UInt32) :
    board.updateFromBytes ((w :: h :: x :: y :: counters).flatMap wordBytes) =
      .ok { board with headX := x, headY := y, cells := (cellsOfWords counters).toArray } := by
  have hbytes : ((w :: h :: x :: y :: counters).flatMap wordBytes).length = board.nativeLength := by
    simp only [length_flatMap_wordBytes, List.length_cons, hlength, nativeLength, headerSize,
      cellSize]
    omega
  rw [updateFromBytes_eq, if_neg (not_not.2 hbytes), wordsOfBytes_flatMap]
  dsimp only
  rw [placeHead_eq, if_pos ?_]
  simpa [contains] using ⟨hx, hy⟩

/-- The head and the cells are taken over from the words of a board of the same size. -/
theorem updateFromBytes_of_words {board other : Board}
    (hcells : other.cells.size = board.cells.size)
    (hx : other.headX < board.width) (hy : other.headY < board.height) (w h : UInt32) :
    board.updateFromBytes ((w :: h :: other.headX :: other.headY ::
      other.cells.toList.flatMap Cell.counters).flatMap wordBytes) =
        .ok (board.takeOver other) := by
  have hlength : (other.cells.toList.flatMap Cell.counters).length = 4 * board.cells.size := by
    rw [length_flatMap_counters, Array.length_toList, hcells]
  rw [updateFromBytes_words hlength hx hy, cellsOfWords_flatMap]
  rfl

end Board

namespace Native

/-! ## Messages -/

/-- What is left of a message in the result buffer: whole characters of at most 511 bytes, up to
the first null character. -/
def shownMessage (message : String) : String :=
  String.ofList ((fittingChars (messageCapacity - 1) message.toList).takeWhile (· ≠ '\x00'))

theorem length_flatMap_fittingChars_le (room : Nat) (chars : List Char) :
    ((fittingChars room chars).flatMap String.utf8EncodeChar).length ≤ room := by
  induction chars generalizing room with
  | nil => exact Nat.zero_le _
  | cons c chars ih =>
    rw [fittingChars]
    split
    · next hfits =>
      have hrest := ih (room - c.utf8Size)
      rw [List.flatMap_cons, List.length_append, String.length_utf8EncodeChar]
      omega
    · exact Nat.zero_le _

/-- The words of a message fit into the room for messages. -/
theorem length_messageWords_le (message : String) :
    (messageWords message).length ≤ messageCapacity / 8 := by
  have hfits : (messageBytes message).length ≤ messageCapacity - 1 :=
    length_flatMap_fittingChars_le _ _
  obtain ⟨k, hk, hbytes⟩ := flatMap_quadBytes (messageBytes message ++ [0])
  have hlength := congrArg List.length hbytes
  rw [length_flatMap_quadBytes, List.length_append, List.length_append, List.length_replicate,
    List.length_singleton] at hlength
  have hcapacity : messageCapacity = 512 := rfl
  rw [messageWords, List.length_map]
  omega

/-- Only the null character has a zero byte, which is its only one. -/
theorem utf8EncodeChar_zero (c : Char) :
    c = '\x00' ∧ String.utf8EncodeChar c = [0] ∨
      c ≠ '\x00' ∧ ∀ byte ∈ String.utf8EncodeChar c, byte ≠ 0 := by
  by_cases hc : c = '\x00'
  · subst hc
    exact .inl ⟨rfl, rfl⟩
  · have hval : c.val.toNat ≠ 0 := fun hzero => hc (Char.ext (UInt32.toNat_inj.1 hzero))
    have hne (k : Nat) (hpos : 0 < k) (hlt : k < 256) : (0 : UInt8) ≠ UInt8.ofNat k := by
      intro heq
      have hnat := congrArg UInt8.toNat heq
      simp at hnat
      omega
    refine .inr ⟨hc, fun byte hbyte hzero => ?_⟩
    subst hzero
    unfold String.utf8EncodeChar at hbyte
    simp only at hbyte
    split at hbyte
    · simp only [List.mem_singleton] at hbyte
      exact hne _ (by omega) (by omega) hbyte
    split at hbyte
    · simp only [List.mem_cons, List.not_mem_nil, or_false] at hbyte
      rcases hbyte with heq | heq <;> exact hne _ (by omega) (by omega) heq
    split at hbyte
    · simp only [List.mem_cons, List.not_mem_nil, or_false] at hbyte
      rcases hbyte with heq | heq | heq <;> exact hne _ (by omega) (by omega) heq
    · simp only [List.mem_cons, List.not_mem_nil, or_false] at hbyte
      rcases hbyte with heq | heq | heq | heq <;> exact hne _ (by omega) (by omega) heq

theorem takeWhile_append_zero (bytes rest : List UInt8) :
    (bytes ++ 0 :: rest).takeWhile (· ≠ 0) = bytes.takeWhile (· ≠ 0) := by
  induction bytes with
  | nil => rfl
  | cons byte bytes ih => simp only [List.cons_append, List.takeWhile_cons, ih]

theorem takeWhile_flatMap_utf8 (chars : List Char) :
    (chars.flatMap String.utf8EncodeChar).takeWhile (· ≠ 0) =
      (chars.takeWhile (· ≠ '\x00')).flatMap String.utf8EncodeChar := by
  induction chars with
  | nil => rfl
  | cons c chars ih =>
    rcases utf8EncodeChar_zero c with ⟨rfl, hzero⟩ | ⟨hne, hbytes⟩
    · rw [List.flatMap_cons, hzero]
      rfl
    · rw [List.flatMap_cons, List.takeWhile_append_of_pos (by simpa using hbytes), ih,
        List.takeWhile_cons_of_pos (by simpa using hne), List.flatMap_cons]

/-- A string is read back from the bytes of its characters. -/
theorem fromUTF8?_flatMap (chars : List Char) :
    String.fromUTF8? ⟨(chars.flatMap String.utf8EncodeChar).toArray⟩ =
      some (String.ofList chars) := by
  have hbytes : (⟨(chars.flatMap String.utf8EncodeChar).toArray⟩ : ByteArray) =
      (String.ofList chars).toByteArray := by
    rw [String.toByteArray_ofList, List.utf8Encode]
    exact ByteArray.ext List.data_toByteArray.symm
  rw [hbytes, String.fromUTF8?, dif_pos (String.ofList chars).isValidUTF8]
  rfl

/-- The bytes of a result buffer up to the first zero byte. -/
def shownBytes (results : List Int64) : List UInt8 :=
  (results.flatMap fun word => quadBytes word.toUInt64).takeWhile (· ≠ 0)

/-- The bytes of what is left of a message are valid, whatever lies behind its words. -/
theorem fromUTF8?_shownBytes (message : String) (rest : List Int64) :
    String.fromUTF8? ⟨(shownBytes (messageWords message ++ rest)).toArray⟩ =
      some (shownMessage message) := by
  obtain ⟨k, -, hk⟩ := flatMap_quadBytes (messageBytes message ++ [0])
  have hwords : (messageWords message).flatMap (fun word => quadBytes word.toUInt64) =
      messageBytes message ++ [0] ++ List.replicate k 0 := by
    rw [messageWords, List.flatMap_map]
    simpa using hk
  simp only [shownBytes, List.flatMap_append, hwords, List.append_assoc, List.cons_append,
    takeWhile_append_zero]
  rw [messageBytes, takeWhile_flatMap_utf8, fromUTF8?_flatMap]
  rfl

/-- The host reads what is left of a message. -/
theorem messageOf_messageWords (message : String) (rest : List Int64) :
    NativeCode.messageOf (messageWords message ++ rest) = shownMessage message := by
  change (String.fromUTF8? ⟨(shownBytes (messageWords message ++ rest)).toArray⟩).getD "" = _
  rw [fromUTF8?_shownBytes, Option.getD_some]

end Native
end Gobstones
