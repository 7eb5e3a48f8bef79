import XProject.Stream.DataStream

/-!
# Output streams of `stream/stream.h`

`Stream` keeps the logical offset, the last result and an optional log stream,
and hands every write to its implementation. `MemoryStream` implements it by a
growable byte vector. A write through a null buffer, or beyond the vector after
it was resized, has no defined result.
-/

namespace XProject.Base

/-- `Result`. -/
inductive Result where
  | ok
  | error
deriving DecidableEq

/-- `PrintChars`. -/
inductive PrintChars where
  | no
  | yes
deriving DecidableEq

/-- A description passed along with a write; it may be a null pointer. -/
abbrev Desc := Option (List UInt8)

/-- What a stream does to its log stream when it writes. Whether a real log stream has a
defined result for what it is given, a description above all, is not asked here: the stream
goes on in any case. -/
class LogStream (Log : Type) where
  writeMemoryDump : (src : List UInt8) → (offset : Address) → PrintChars → Desc → Log → Log

/-- The log of a stream that is never given one. -/
instance : LogStream Empty where
  writeMemoryDump _ _ _ _ log := log

/-- The virtual members a stream class supplies. -/
class StreamImpl (Impl : Type) where
  writeDataImpl : (dstOffset : Address) → (src : List UInt8) → Impl → Option (Result × Impl)

/-- The fields of `Stream` with those of the class that implements it. -/
structure Stream (Impl Log : Type) where
  offset : Address
  result : Result
  logStream : Option Log
  impl : Impl

namespace Stream

variable {Impl Log : Type} [StreamImpl Impl] [LogStream Log]

/-- `WriteDataAt`. -/
def writeDataAt (at_ : Address) (src : List UInt8) (desc : Desc) (printChars : PrintChars)
    (stream : Stream Impl Log) : Option (Stream Impl Log) :=
  if stream.result = .error then some stream
  else
    match StreamImpl.writeDataImpl at_ src stream.impl with
    | none => none
    | some (result, impl) => some { stream with
        logStream := stream.logStream.map (LogStream.writeMemoryDump src at_ printChars desc)
        result := result
        impl := impl }

/-- `WriteData`: the offset advances whether or not the write took place. -/
def writeData (src : List UInt8) (desc : Desc) (printChars : PrintChars)
    (stream : Stream Impl Log) : Option (Stream Impl Log) :=
  match writeDataAt stream.offset src desc printChars stream with
  | none => none
  | some next => some { next with offset := next.offset + UInt64.ofNat src.length }

end Stream

/-- The field of `MemoryStream`: the owned buffer, null once it was released. -/
structure MemoryStream where
  buf : Option (List UInt8)

namespace MemoryStream

/-- `std::vector<uint8_t>::max_size()`, beyond which `resize` throws `length_error`. -/
def maxSize : Nat := 2 ^ 63 - 1

/-- `std::vector::resize` to a larger size. It is taken to succeed: neither `max_size` nor an
allocation that fails stops it here. -/
def resize (data : List UInt8) (size : Nat) : List UInt8 :=
  data ++ List.replicate (size - data.length) 0

/-- `memcpy` into a vector; a range beyond the vector has no defined result. -/
def overwrite (data : List UInt8) (at_ : Nat) (src : List UInt8) : Option (List UInt8) :=
  if at_ + src.length ≤ data.length then
    some (data.take at_ ++ src ++ data.drop (at_ + src.length))
  else none

/-- `WriteDataImpl`. -/
def writeDataImpl (dstOffset : Address) (src : List UInt8) (memory : MemoryStream) :
    Option (Result × MemoryStream) :=
  if src.length = 0 then some (.ok, memory)
  else
    match memory.buf with
    | none => none
    | some data =>
        let end_ := dstOffset + UInt64.ofNat src.length
        let grown := if end_.toNat > data.length then resize data end_.toNat else data
        match overwrite grown dstOffset.toNat src with
        | none => none
        | some written => some (.ok, ⟨some written⟩)

instance : StreamImpl MemoryStream where
  writeDataImpl := writeDataImpl

/-- `MemoryStream(log_stream)`. -/
def new {Log : Type} (logStream : Option Log) : Stream MemoryStream Log where
  offset := 0
  result := .ok
  logStream := logStream
  impl := ⟨some []⟩

/-- A write at the end of the vector appends. -/
theorem writeDataImpl_append {dstOffset : Address} {data src : List UInt8}
    (atEnd : dstOffset.toNat = data.length) (fits : data.length + src.length < 2 ^ 64) :
    writeDataImpl dstOffset src ⟨some data⟩ = some (.ok, ⟨some (data ++ src)⟩) := by
  unfold writeDataImpl
  by_cases empty : src.length = 0
  · rw [List.length_eq_zero_iff.mp empty]
    simp
  · have end_ : (dstOffset + UInt64.ofNat src.length).toNat = data.length + src.length := by
      rw [UInt64.toNat_add, UInt64.toNat_ofNat', atEnd]
      omega
    have grows : data.length + src.length > data.length := by omega
    have grown : (resize data (data.length + src.length)).length = data.length + src.length := by
      rw [resize, List.length_append, List.length_replicate]
      omega
    have copied : overwrite (resize data (data.length + src.length)) data.length src =
        some (data ++ src) := by
      rw [overwrite, if_pos (by omega), List.drop_of_length_le (by omega), List.append_nil,
        resize, List.take_left]
    simp only [if_neg empty, end_, if_pos grows, atEnd, copied]

/-- A stream that has written exactly `data`, all of it successfully and in order. -/
structure Holds {Log : Type} (stream : Stream MemoryStream Log) (data : List UInt8) : Prop where
  buf : stream.impl.buf = some data
  offset : stream.offset.toNat = data.length
  result : stream.result = .ok

theorem new_holds {Log : Type} (logStream : Option Log) : Holds (new logStream) [] :=
  ⟨rfl, rfl, rfl⟩

/-- `WriteData` appends to what the stream holds. -/
theorem Holds.writeData {Log : Type} [LogStream Log] {stream : Stream MemoryStream Log}
    {data : List UInt8} (holds : Holds stream data) (src : List UInt8) (desc : Desc)
    (printChars : PrintChars) (fits : data.length + src.length < 2 ^ 64) :
    ∃ next, stream.writeData src desc printChars = some next ∧ Holds next (data ++ src) := by
  have impl : stream.impl = ⟨some data⟩ := congrArg MemoryStream.mk holds.buf
  have written : StreamImpl.writeDataImpl stream.offset src stream.impl =
      some (Result.ok, ⟨some (data ++ src)⟩) := by
    rw [impl]
    exact writeDataImpl_append holds.offset fits
  have live : stream.result ≠ .error := by
    rw [holds.result]
    decide
  simp only [Stream.writeData, Stream.writeDataAt, if_neg live, written]
  refine ⟨_, rfl, rfl, ?_, rfl⟩
  rw [List.length_append, UInt64.toNat_add, UInt64.toNat_ofNat', holds.offset]
  omega

end MemoryStream
end XProject.Base
