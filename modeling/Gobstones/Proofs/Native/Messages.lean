import Mathlib.Data.List.TakeWhile
import Gobstones.Proofs.Native.Entry
import Gobstones.Proofs.Native.Guards
/-!
# Messages in the result buffer

This module says what the host receives of a message.  The stub of a message stores it over
whatever lies in the result buffer; the host reads the bytes up to the first zero byte, and
these are the longest part of whole characters that leaves room for the terminator, cut off
in front of the first null character.

Main definitions:

- {lit}`IsLongestStart`: the longest start of a message that fits into some bytes.

Main results:

- Theorem {lit}`isLongestStart_fittingChars`: a message is cut off as late as possible.
- Theorem {lit}`message_reported`: the host receives the message.
-/

namespace Gobstones
namespace Native

/-! ## Starts of messages -/

theorem utf8ByteSize_ofList (chars : List Char) :
    (String.ofList chars).utf8ByteSize = (chars.flatMap String.utf8EncodeChar).length := by
  rw [← String.size_toByteArray, String.toByteArray_ofList, List.utf8Encode, List.size_toByteArray]

/-- A text is the longest one that a message starts with and that takes no more than some bytes. -/
structure IsLongestStart (room : Nat) (message start : String) : Prop where
  starts : start.toList <+: message.toList
  fits : start.utf8ByteSize ≤ room
  longest : ∀ other : String, other.toList <+: message.toList → other.utf8ByteSize ≤ room →
    other.toList <+: start.toList

theorem fittingChars_prefix (room : Nat) (chars : List Char) :
    fittingChars room chars <+: chars := by
  induction chars generalizing room with
  | nil => exact List.prefix_refl _
  | cons c chars ih =>
    rw [fittingChars]
    split
    · exact List.cons_prefix_cons.2 ⟨rfl, ih _⟩
    · exact List.nil_prefix

/-- Characters that fit are not left out. -/
theorem prefix_fittingChars {room : Nat} {chars other : List Char} (hstarts : other <+: chars)
    (hfits : (other.flatMap String.utf8EncodeChar).length ≤ room) :
    other <+: fittingChars room chars := by
  induction chars generalizing room other with
  | nil =>
    obtain rfl := List.prefix_nil.1 hstarts
    exact List.nil_prefix
  | cons c chars ih =>
    rcases List.prefix_cons_iff.1 hstarts with rfl | ⟨rest, rfl, hrest⟩
    · exact List.nil_prefix
    · rw [List.flatMap_cons, List.length_append, String.length_utf8EncodeChar] at hfits
      have hfirst : c.utf8Size ≤ room := by omega
      rw [fittingChars, if_pos hfirst]
      exact List.cons_prefix_cons.2 ⟨rfl, ih hrest (by omega)⟩

/-- A message is cut off as late as possible. -/
theorem isLongestStart_fittingChars (room : Nat) (message : String) :
    IsLongestStart room message (String.ofList (fittingChars room message.toList)) where
  starts := by
    rw [String.toList_ofList]
    exact fittingChars_prefix room message.toList
  fits := by
    rw [utf8ByteSize_ofList]
    exact length_flatMap_fittingChars_le room message.toList
  longest other hstarts hfits := by
    rw [← String.ofList_toList (s := other), utf8ByteSize_ofList] at hfits
    rw [String.toList_ofList]
    exact prefix_fittingChars hstarts hfits

/-- A message that fits is not cut off. -/
theorem IsLongestStart.eq_of_fits {room : Nat} {message start : String}
    (h : IsLongestStart room message start) (hfits : message.utf8ByteSize ≤ room) :
    start = message :=
  String.toList_injective
    (h.starts.eq_of_length_le (h.longest message (List.prefix_refl _) hfits).length_le)

/-- A short message without null characters is shown as it is. -/
theorem shownMessage_eq_self {message : String} (hfits : message.utf8ByteSize < messageCapacity)
    (hnull : '\x00' ∉ message.toList) : shownMessage message = message := by
  have hstart := (isLongestStart_fittingChars (messageCapacity - 1) message).eq_of_fits
    (Nat.le_sub_one_of_lt hfits)
  have hchars : fittingChars (messageCapacity - 1) message.toList = message.toList := by
    rw [← String.toList_ofList (l := fittingChars _ _), hstart]
  rw [shownMessage, hchars, List.takeWhile_eq_self_iff.2, String.ofList_toList]
  intro c hc
  simpa using ne_of_mem_of_not_mem hc hnull

/-! ## Reports -/

/-- The host receives every message.  Its words fit into the room for messages, and wherever its
stub lies in code that can get back to the host, the stub stores them over the front of the result
buffer.  Whatever was there before, the host then finds valid bytes in front of the first zero
byte: those of the longest start of whole characters that leaves room for the terminator, cut off
in front of the first null character.  So a short message without null characters comes back as
it is. -/
theorem message_reported (message : String) :
    8 * (messageWords message).length ≤ messageCapacity ∧
      (∃ start, IsLongestStart (messageCapacity - 1) message start ∧
        (shownMessage message).toList = start.toList.takeWhile (· ≠ '\x00')) ∧
      (message.utf8ByteSize < messageCapacity → '\x00' ∉ message.toList →
        shownMessage message = message) ∧
      ∀ (code : NativeCode) (host : Host) (board : Board) (label : Label) (n : Nat)
        (p : Processor), code.At n (faultStub message label) → p.position = n + 1 →
          code.Recovers host p → messageCapacity ≤ 8 * p.results.size →
            ∃ fuel p', p.run fuel code.instrs code.place = .finished p' ∧
              p'.results.toList =
                messageWords message ++ p.results.toList.drop (messageWords message).length ∧
              String.fromUTF8? ⟨(shownBytes p'.results.toList).toArray⟩ =
                some (shownMessage message) ∧
              code.outcome board p' = .error (.fault (shownMessage message)) := by
  refine ⟨?_, ?_, shownMessage_eq_self, ?_⟩
  · have hwords := length_messageWords_le message
    have hcapacity : messageCapacity = 512 := rfl
    omega
  · refine ⟨_, isLongestStart_fittingChars _ message, ?_⟩
    rw [shownMessage, String.toList_ofList, String.toList_ofList]
  · intro code host board label n p hat hposition hrecovers hroom
    obtain ⟨k, p', v', hrun, hp', hend, hrax, hresults⟩ :=
      Setting.exists_run_faultStub hat hposition hrecovers.results hrecovers.checkpoint
        hrecovers.words hroom
    have hbuffer : p'.results.toList =
        messageWords message ++ p.results.toList.drop (messageWords message).length := by
      rw [hp'.results, hresults]
    have hstatus : p'.reg .rax = .int sentinel := (hp'.reg .rax).trans hrax
    refine ⟨k + 1, p', (Processor.run_add hrun).trans (run_finished hend 0), hbuffer, ?_, ?_⟩
    · rw [hbuffer, fromUTF8?_shownBytes]
    · simp only [NativeCode.outcome, hstatus, if_true, hbuffer, messageOf_messageWords]
      rfl

end Native

namespace Outcry

open Native

/-- A message whose last character leaves no room for the terminator. -/
def message : String :=
  String.ofList (List.replicate 256 'é')

/-- The stub of the message alone. -/
def code : NativeCode where
  instrs := (faultStub message 0).toArray
  labels := 1
  linked := { bytes := #[], offsets := #[] }
  results := []

/-- A processor at a stub at the front of some code, with other words in the result buffer. -/
def cpu (code : NativeCode) : Processor where
  regs := ((Host.idle.regs.set .rsi (.stack (-56))).set .r15 (.results 0)).set .rsp (.stack (-56))
  flags := none
  stack := (hostWords .idle code).reverse.toArray
  stale _ := .int 0
  board := #[]
  results := Array.replicate 70 (-1)
  position := 1

theorem recovers_cpu (code : NativeCode) : code.Recovers .idle (cpu code) where
  results := rfl
  checkpoint := rfl
  words i w hw := by
    have hlt : i < 7 := (List.getElem?_eq_some_iff.1 hw).1
    match i, hlt with
    | 0, _ | 1, _ | 2, _ | 3, _ | 4, _ | 5, _ | 6, _ => exact hw

theorem toList_message : message.toList = List.replicate 256 'é' :=
  String.toList_ofList

theorem shownMessage_message : shownMessage message = String.ofList (List.replicate 255 'é') := by
  have hshown : (fittingChars (messageCapacity - 1) (List.replicate 256 'é')).takeWhile
      (· ≠ '\x00') = List.replicate 255 'é' := by
    decide +kernel
  rw [shownMessage, toList_message, hshown]

theorem length_messageWords_message : (messageWords message).length = 64 := by
  have hquads : (quadsOfBytes ((fittingChars (messageCapacity - 1)
      (List.replicate 256 'é')).flatMap String.utf8EncodeChar ++ [0])).length = 64 := by
    decide +kernel
  rw [messageWords, messageBytes, toList_message, List.length_map, hquads]

end Outcry

namespace Native

/-- A message of 512 bytes loses its last character, and the words behind it stay. -/
theorem message_reported_outcry :
    ∃ fuel p', (Outcry.cpu Outcry.code).run fuel Outcry.code.instrs Outcry.code.place =
        .finished p' ∧
      p'.results.toList.drop 64 = List.replicate 6 (-1) ∧
      Outcry.code.outcome Probe.board p' =
        .error (.fault (String.ofList (List.replicate 255 'é'))) := by
  obtain ⟨-, -, -, hstub⟩ := message_reported Outcry.message
  obtain ⟨fuel, p', hrun, hbuffer, -, houtcome⟩ :=
    hstub Outcry.code .idle Probe.board 0 0 (Outcry.cpu Outcry.code)
      (fun i instr hi => by simpa [Outcry.code] using hi) rfl (Outcry.recovers_cpu _) (by decide)
  refine ⟨fuel, p', hrun, ?_, Outcry.shownMessage_message ▸ houtcome⟩
  rw [hbuffer, Outcry.length_messageWords_message,
    List.drop_left' Outcry.length_messageWords_message]
  rfl

end Native
end Gobstones
