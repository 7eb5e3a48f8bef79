import XProject.Std.Growable
import XProject.Stream.Calls
import Mathlib.Data.UInt

/-!
# A memory stream is a growable memory with an offset

The reference keeps a zero-filled growable memory and a `size_t` offset. A
`MemoryStream` follows it call by call as long as no range of a call ends beyond
`SIZE_MAX`, whatever its log stream does.
-/

namespace XProject.Base

open XProject.Std

/-- The reference: what a memory stream is for. -/
structure GrowableStream where
  memory : Growable UInt8
  offset : Address

/-- No range of a call on a stream at `offset` ends beyond `SIZE_MAX`. -/
def Call.Fits (offset : Address) : Call → Prop
  | .writeData chunk => offset.toNat + chunk.src.length < 2 ^ 64
  | .writeDataAt at_ chunk => at_.toNat + chunk.src.length < 2 ^ 64
  | .moveData dstOffset srcOffset size =>
      dstOffset.toNat + size.toNat < 2 ^ 64 ∧ srcOffset.toNat + size.toNat < 2 ^ 64
  | .addOffset _ | .clearOffset => True

instance (offset : Address) (call : Call) : Decidable (call.Fits offset) := by
  cases call <;> unfold Call.Fits <;> infer_instance

namespace GrowableStream

/-- Nothing written, at offset zero. -/
def new : GrowableStream := ⟨.empty, 0⟩

/-- What each call means: only `WriteData`, `AddOffset` and `ClearOffset` change
the offset, and only writes and moves the memory. -/
def perform : Call → GrowableStream → GrowableStream
  | .writeData chunk, stream =>
      { memory := stream.memory.write stream.offset.toNat chunk.src
        offset := stream.offset + UInt64.ofNat chunk.src.length }
  | .writeDataAt at_ chunk, stream =>
      { stream with memory := stream.memory.write at_.toNat chunk.src }
  | .moveData dstOffset srcOffset size, stream =>
      { stream with memory := stream.memory.move dstOffset.toNat srcOffset.toNat size.toNat }
  | .addOffset delta, stream => { stream with offset := stream.offset + delta }
  | .clearOffset, stream => { stream with offset := 0 }

/-- The reference taking one call at a time; it shows its contents and its offset. -/
def machine : Machine Call (Option (List UInt8) × Address) where
  State := GrowableStream
  step stream call :=
    let next := perform call stream
    some ((some next.memory.contents, next.offset), next)

end GrowableStream

namespace MemoryStream

/-- What a caller sees of a memory stream: its buffer and its offset. -/
def observe {Log : Type} (stream : Stream MemoryStream Log) : Option (List UInt8) × Address :=
  (stream.impl.buf, stream.offset)

/-- Growing the vector where it is too short raises the length of the memory. -/
theorem grown_contents (bound : Nat) (memory : Growable UInt8) :
    (if bound > memory.contents.length then resize memory.contents bound
      else memory.contents) = (memory.reserve bound).contents := by
  rw [Growable.contents_reserve, Growable.length_contents]
  by_cases beyond : bound > memory.length
  · rw [if_pos beyond, resize, Growable.length_contents]
  · have covered : bound - memory.length = 0 := by omega
    simp [if_neg beyond, covered]

/-- Overwriting a range of a vector that is long enough is a write. -/
theorem overwrite_contents {start : Nat} {src : List UInt8} {memory : Growable UInt8}
    (fits : start + src.length ≤ memory.length) :
    overwrite memory.contents start src = some (memory.write start src).contents := by
  rw [overwrite, Growable.length_contents, if_pos fits, Growable.contents_write fits]

/-- Moving within a vector that holds both ranges writes the cells of the source. -/
theorem moveWithin_contents {target source size : Nat} {memory : Growable UInt8}
    (readable : source + size ≤ memory.length) (writable : target + size ≤ memory.length) :
    moveWithin memory.contents target source size =
      some (memory.write target (memory.slice source size)).contents := by
  have inside : target + (memory.slice source size).length ≤ memory.length := by
    rwa [Growable.length_slice]
  rw [moveWithin, Growable.length_contents, if_pos readable, ← Growable.slice_eq readable,
    overwrite_contents inside]

/-- `WriteDataImpl` is a write of the memory. -/
theorem writeDataImpl_contents {dstOffset : Address} {src : List UInt8} {memory : Growable UInt8}
    (fits : dstOffset.toNat + src.length < 2 ^ 64) :
    writeDataImpl dstOffset src ⟨some memory.contents⟩ =
      some (.ok, ⟨some (memory.write dstOffset.toNat src).contents⟩) := by
  rcases eq_or_ne src [] with rfl | some_
  · simp [writeDataImpl, Growable.write]
  · have positive : src.length ≠ 0 := by simpa using some_
    have end_ : (dstOffset + UInt64.ofNat src.length).toNat = dstOffset.toNat + src.length := by
      rw [UInt64.toNat_add, UInt64.toNat_ofNat']
      omega
    have inside : dstOffset.toNat + src.length ≤
        (memory.reserve (dstOffset.toNat + src.length)).length := by
      simp only [Growable.reserve]
      omega
    simp only [writeDataImpl, if_neg positive, end_, grown_contents, overwrite_contents inside,
      Growable.write_reserve some_ (Nat.le_refl _)]

/-- `MoveDataImpl` is a move of the memory. -/
theorem moveDataImpl_contents {dstOffset srcOffset size : Address} {memory : Growable UInt8}
    (target : dstOffset.toNat + size.toNat < 2 ^ 64)
    (source : srcOffset.toNat + size.toNat < 2 ^ 64) :
    moveDataImpl dstOffset srcOffset size ⟨some memory.contents⟩ =
      some (.ok, ⟨some
        (memory.move dstOffset.toNat srcOffset.toNat size.toNat).contents⟩) := by
  rcases eq_or_ne size 0 with rfl | some_
  · simp [moveDataImpl, Growable.move]
  · have positive : size.toNat ≠ 0 := fun zero => some_ (UInt64.toNat_inj.mp zero)
    have srcEnd : (srcOffset + size).toNat = srcOffset.toNat + size.toNat := by
      rw [UInt64.toNat_add]
      omega
    have dstEnd : (dstOffset + size).toNat = dstOffset.toNat + size.toNat := by
      rw [UInt64.toNat_add]
      omega
    have end_ : (if srcOffset + size > dstOffset + size then srcOffset + size
        else dstOffset + size).toNat =
          max (srcOffset.toNat + size.toNat) (dstOffset.toNat + size.toNat) := by
      by_cases later : srcOffset + size > dstOffset + size
      · have order := UInt64.lt_iff_toNat_lt.mp later
        rw [if_pos later]
        omega
      · have order := UInt64.lt_iff_toNat_lt.not.mp later
        rw [if_neg later]
        omega
    have readable : srcOffset.toNat + size.toNat ≤ (memory.reserve
        (max (srcOffset.toNat + size.toNat) (dstOffset.toNat + size.toNat))).length := by
      simp only [Growable.reserve]
      omega
    have writable : dstOffset.toNat + size.toNat ≤ (memory.reserve
        (max (srcOffset.toNat + size.toNat) (dstOffset.toNat + size.toNat))).length := by
      simp only [Growable.reserve]
      omega
    simp only [moveDataImpl, if_neg some_, end_, grown_contents,
      moveWithin_contents readable writable, Growable.slice_reserve,
      Growable.move_eq_write positive]

/-- A live memory stream shows the contents and the offset of the reference. -/
structure Follows {Log : Type} (stream : Stream MemoryStream Log) (reference : GrowableStream) :
    Prop where
  buf : stream.impl.buf = some reference.memory.contents
  offset : stream.offset = reference.offset
  result : stream.result = .ok

theorem Follows.impl {Log : Type} {stream : Stream MemoryStream Log} {reference : GrowableStream}
    (follows : Follows stream reference) :
    stream.impl = ⟨some reference.memory.contents⟩ :=
  congrArg MemoryStream.mk follows.buf

variable {Log : Type} [LogWriter Log]

/-- One call keeps the stream with the reference. -/
theorem Follows.perform {stream : Stream MemoryStream Log} {reference : GrowableStream}
    (follows : Follows stream reference) {call : Call} (fits : call.Fits stream.offset) :
    ∃ next, stream.perform call = some next ∧ Follows next (reference.perform call) := by
  cases call with
  | writeData chunk =>
      have written : StreamImpl.writeDataImpl stream.offset chunk.src stream.impl =
          some (Result.ok, (⟨some (reference.memory.write stream.offset.toNat chunk.src).contents⟩ :
            MemoryStream)) := by
        rw [follows.impl]
        exact writeDataImpl_contents fits
      refine ⟨_, Stream.writeData_of_ok follows.result written, ?_, ?_, rfl⟩
      · simp only [GrowableStream.perform, follows.offset]
      · simp only [GrowableStream.perform, follows.offset]
  | writeDataAt at_ chunk =>
      have written : StreamImpl.writeDataImpl at_ chunk.src stream.impl =
          some (Result.ok, (⟨some (reference.memory.write at_.toNat chunk.src).contents⟩ :
            MemoryStream)) := by
        rw [follows.impl]
        exact writeDataImpl_contents fits
      exact ⟨_, Stream.attempt_of_ok follows.result written, rfl, follows.offset, rfl⟩
  | moveData dstOffset srcOffset size =>
      have moved : MovableImpl.moveDataImpl dstOffset srcOffset size stream.impl =
          some (Result.ok, (⟨some (reference.memory.move dstOffset.toNat srcOffset.toNat
            size.toNat).contents⟩ : MemoryStream)) := by
        rw [follows.impl]
        exact moveDataImpl_contents fits.1 fits.2
      exact ⟨_, Stream.attempt_of_ok follows.result moved, rfl, follows.offset, rfl⟩
  | addOffset delta =>
      exact ⟨_, rfl, follows.buf, congrArg (· + delta) follows.offset, follows.result⟩
  | clearOffset => exact ⟨_, rfl, follows.buf, rfl, follows.result⟩

/-- The lockstep simulation of the reference by the stream. -/
def growableSimulation : Machine.GuardedSimulation (Stream.machine (@observe Log))
    GrowableStream.machine (fun stream call => call.Fits stream.offset) where
  Related := Follows
  step low high call follows fits := by
    obtain ⟨next, performed, followsNext⟩ := follows.perform fits
    refine ⟨_, next, _, Stream.machine_step_eq_some.mpr ⟨performed, rfl⟩, ?_, followsNext⟩
    simp only [GrowableStream.machine, observe, followsNext.buf, followsNext.offset]

/-- Whatever is called in whatever order on a fresh memory stream, as long as no
range ends beyond `SIZE_MAX`: every call has a result, and after each of them and
at the end the buffer and the offset are those of the reference. A log stream is taken to
be given only what it can log. -/
theorem refines_growable (logStream : Option Log) (calls : List Call)
    (fits : ∀ step ∈ (Stream.machine observe).steps (new logStream) calls,
      step.2.Fits step.1.offset) :
    ∃ outputs stream reference,
      (Stream.machine observe).run (new logStream) calls = some (outputs, stream) ∧
      GrowableStream.machine.run GrowableStream.new calls = some (outputs, reference) ∧
      stream.impl.buf = some reference.memory.contents ∧ stream.offset = reference.offset := by
  have start : Follows (new logStream) GrowableStream.new := ⟨rfl, rfl, rfl⟩
  obtain ⟨outputs, stream, reference, run, referenceRun, follows, _⟩ :=
    growableSimulation.run_eq start fits
  exact ⟨outputs, stream, reference, run, referenceRun, follows.buf, follows.offset⟩

/-- A write beyond the end, a move between overlapping ranges and one from beyond
the end, with an offset that moves on its own. -/
theorem refines_growable_overlap :
    let calls : List Call := [.writeDataAt 2 ⟨[7, 8], none, .no, by decide⟩,
      .moveData 3 1 3, .addOffset 9, .moveData 0 20 2, .clearOffset,
      .writeData ⟨[5], none, .yes, by decide⟩]
    ∃ outputs stream reference,
      (Stream.machine observe).run (new (none : Option Empty)) calls = some (outputs, stream) ∧
      GrowableStream.machine.run GrowableStream.new calls = some (outputs, reference) ∧
      stream.impl.buf = some reference.memory.contents ∧ stream.offset = reference.offset :=
  refines_growable none _ (by decide)

end MemoryStream
end XProject.Base
