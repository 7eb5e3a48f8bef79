import Mathlib.Algebra.Group.Int.Defs
import XProject.Stream.Stream

/-!
# Formatted writes of `stream/stream.cc`

`Writef` renders into a local buffer and hands the buffer to `WriteData` with the
length `vsnprintf` returns, which is the length of the whole text and not of what
found room. A text is exact when it is shorter than the buffer, or just as long
and ends in the NUL that stands there anyway.
-/

namespace XProject.Base

/-- `STREAM_LOGGER_BUFFER_SIZE`. -/
def streamLoggerBufferSize : Nat := 512

/-- `vsnprintf` into a zeroed buffer, for a format and arguments that render to `text`:
the buffer behind it and the value returned, which is negative for a length beyond `int`. -/
def vsnprintf (size : Nat) (text : List UInt8) : List UInt8 × Int :=
  let room := text.take (size - 1)
  (room ++ List.replicate (size - room.length) 0,
    if text.length < 2 ^ 31 then (text.length : Int) else -1)

/-- The `uint32_t length` of `Writef`. -/
def writefLength (text : List UInt8) : Nat :=
  ((vsnprintf streamLoggerBufferSize text).2 % 2 ^ 32).toNat

variable {Impl Log : Type} [StreamImpl Impl] [LogStream Log]

/-- `Writef` of a format and arguments that render to `text`: `WriteData` reads `length`
bytes of the buffer unless the stream failed before. A read beyond it has no defined result. -/
def writef (text : List UInt8) (stream : Stream Impl Log) : Option (Stream Impl Log) :=
  let buffer := (vsnprintf streamLoggerBufferSize text).1
  let length := writefLength text
  if length ≤ buffer.length then stream.writeData (buffer.take length) none .no
  else if stream.result = .error then
    some { stream with offset := stream.offset + UInt64.ofNat length }
  else none

/-- `WriteChar`. -/
def writeChar (c : UInt8) (stream : Stream Impl Log) : Option (Stream Impl Log) :=
  stream.writeData [c] none .no

/-! ## What the buffer holds -/

/-- A text whose whole length the buffer can give back. -/
def FitsBuffer (text : List UInt8) : Prop :=
  text.length < streamLoggerBufferSize ∨
    (text.length = streamLoggerBufferSize ∧ text.getLast? = some 0)

instance (text : List UInt8) : Decidable (FitsBuffer text) :=
  inferInstanceAs (Decidable (_ ∨ _ ∧ _))

theorem length_vsnprintf (text : List UInt8) :
    (vsnprintf streamLoggerBufferSize text).1.length = streamLoggerBufferSize := by
  simp only [vsnprintf, streamLoggerBufferSize, List.length_append, List.length_replicate,
    List.length_take]
  omega

/-- The length is that of the text, up to the largest `int`. -/
theorem writefLength_eq {text : List UInt8} (small : text.length < 2 ^ 31) :
    writefLength text = text.length := by
  simp only [writefLength, vsnprintf, if_pos small]
  omega

theorem writefLength_large {text : List UInt8} (large : streamLoggerBufferSize < text.length) :
    streamLoggerBufferSize < writefLength text := by
  by_cases small : text.length < 2 ^ 31
  · rwa [writefLength_eq small]
  · simp only [writefLength, vsnprintf, if_neg small, streamLoggerBufferSize]
    decide

/-- A text of the buffer's length finds room but for its last byte, where NUL stands. -/
theorem take_vsnprintf_full {text : List UInt8} (full : text.length = 512) :
    (vsnprintf streamLoggerBufferSize text).1.take text.length = text.take 511 ++ [0] := by
  have room : (text.take 511).length = 511 := by
    rw [List.length_take]
    omega
  simp only [vsnprintf, streamLoggerBufferSize, room]
  rw [List.take_of_length_le]
  · rfl
  · rw [List.length_append, room, full]
    exact Nat.le_refl 512

/-- The last byte of a text of that length stands behind the others. -/
theorem take_append_last {text : List UInt8} (full : text.length = 512) :
    ∃ last, text = text.take 511 ++ [last] ∧ text.getLast? = some last := by
  have one : (text.drop 511).length = 1 := by
    rw [List.length_drop]
    omega
  obtain ⟨last, isLast⟩ := List.length_eq_one_iff.mp one
  have parts : text = text.take 511 ++ [last] := by
    rw [← isLast, List.take_append_drop]
  refine ⟨last, parts, ?_⟩
  rw [parts, List.getLast?_append_of_ne_nil _ (List.cons_ne_nil _ _)]
  rfl

/-- As many bytes of the buffer as the text has are the text exactly when it fits. -/
theorem take_vsnprintf_iff {text : List UInt8} (within : text.length ≤ streamLoggerBufferSize) :
    (vsnprintf streamLoggerBufferSize text).1.take text.length = text ↔ FitsBuffer text := by
  unfold streamLoggerBufferSize at within
  rcases Nat.lt_or_eq_of_le within with short | full
  · refine iff_of_true ?_ (.inl short)
    have whole : text.take (512 - 1) = text := List.take_of_length_le (by omega)
    simp only [vsnprintf, streamLoggerBufferSize, whole, List.take_left]
  · obtain ⟨last, parts, ends⟩ := take_append_last full
    rw [take_vsnprintf_full full, FitsBuffer, ends]
    constructor
    · intro same
      have zero := List.append_cancel_left (same.trans parts)
      cases zero
      exact .inr ⟨full, rfl⟩
    · rintro (short | ⟨_, zero⟩)
      · unfold streamLoggerBufferSize at short
        omega
      · cases zero
        exact parts.symm

/-! ## What a stream receives -/

/-- A text that fits is written whole, by whatever stream. -/
theorem writef_eq_writeData {text : List UInt8} (fits : FitsBuffer text)
    (stream : Stream Impl Log) : writef text stream = stream.writeData text none .no := by
  have within : text.length ≤ streamLoggerBufferSize := by
    rcases fits with short | ⟨full, _⟩
    · exact Nat.le_of_lt short
    · exact Nat.le_of_eq full
  have small : text.length < 2 ^ 31 := by
    unfold streamLoggerBufferSize at within
    omega
  simp only [writef]
  rw [writefLength_eq small, length_vsnprintf, if_pos within, (take_vsnprintf_iff within).mpr fits]

/-- `Writef` reads inside its buffer, and a stream that has not failed gets the whole text. -/
def EmitsExactly (text : List UInt8) : Prop :=
  writefLength text ≤ streamLoggerBufferSize ∧
    ∀ {Impl Log : Type} [StreamImpl Impl] [LogStream Log] (stream : Stream Impl Log),
      stream.result = .ok → writef text stream = stream.writeData text none .no

/-- The bytes a new memory stream holds after one write. -/
theorem memory_writeData {src other : List UInt8} (small : src.length < 2 ^ 64)
    (smallOther : other.length < 2 ^ 64)
    (same : (MemoryStream.new (none : Option Empty)).writeData src none .no =
      (MemoryStream.new (none : Option Empty)).writeData other none .no) : src = other := by
  have holds := MemoryStream.new_holds (none : Option Empty)
  obtain ⟨next, written, nextHolds⟩ := holds.writeData src none .no (by simpa using small)
  obtain ⟨next', written', nextHolds'⟩ :=
    holds.writeData other none .no (by simpa using smallOther)
  have nexts : next = next' := Option.some.inj (written.symm.trans (same.trans written'))
  have bufs := nextHolds.buf.symm.trans (nexts ▸ nextHolds'.buf)
  exact Option.some.inj bufs

/-- Exactly the texts that fit are emitted exactly. -/
theorem emitsExactly_iff {text : List UInt8} : EmitsExactly text ↔ FitsBuffer text := by
  constructor
  · rintro ⟨inside, emits⟩
    have within : text.length ≤ streamLoggerBufferSize := by
      rcases Nat.lt_or_ge streamLoggerBufferSize text.length with large | within
      · exact absurd (writefLength_large large) (Nat.not_lt.mpr inside)
      · exact within
    have small : text.length < 2 ^ 31 := by
      unfold streamLoggerBufferSize at within
      omega
    have same := emits (MemoryStream.new (none : Option Empty)) rfl
    simp only [writef] at same
    rw [writefLength_eq small, length_vsnprintf, if_pos within] at same
    refine (take_vsnprintf_iff within).mp (memory_writeData ?_ (by omega) same)
    rw [List.length_take]
    omega
  · intro fits
    refine ⟨?_, fun stream _ => writef_eq_writeData fits stream⟩
    rcases fits with short | ⟨full, _⟩
    · unfold streamLoggerBufferSize at *
      rw [writefLength_eq (by omega)]
      omega
    · unfold streamLoggerBufferSize at *
      rw [writefLength_eq (by omega)]
      omega

end XProject.Base
