import Mathlib.Algebra.Group.Nat.Defs
import Mathlib.Data.List.Basic

/-!
# The byte cursor of `stream/data-stream.h`

`DataStream` keeps three pointers into the address space and an error number.
Pointers and sizes are 64-bit words, so the pointer difference that `read`
casts to `size_t` wraps here exactly as it does in the source. The buffer never
wraps around the address space; nothing keeps the position inside it.
-/

namespace XProject.Base

/-- A byte address, or a `size_t`. -/
abbrev Address := UInt64

/-- The bytes of the address space. -/
abbrev Memory := Address → UInt8

/-- `datastream::ErrorCode`. -/
inductive ErrorCode where
  | success
  | trapOutOfStream
  | trapOutOfCapacity
  | trapLengthMismatch
  | trapUnknownError
deriving DecidableEq

/-- `datastream::kMaxElementNum`. -/
def kMaxElementNum : Nat := 1024 * 1024

/-- The `count` bytes from an address on. -/
def load (memory : Memory) (address : Address) (count : Nat) : List UInt8 :=
  (List.range count).map fun index => memory (address + UInt64.ofNat index)

/-- The bytes of two adjacent ranges. -/
theorem load_add (memory : Memory) (address : Address) (first second : Nat) :
    load memory address (first + second) =
      load memory address first ++ load memory (address + UInt64.ofNat first) second := by
  simp only [load, List.range_add, List.map_append, List.map_map]
  congr 1
  apply List.map_congr_left
  intro index _
  simp only [Function.comp_apply, UInt64.ofNat_add, UInt64.add_assoc]

@[simp] theorem length_load (memory : Memory) (address : Address) (count : Nat) :
    (load memory address count).length = count := by
  simp [load]

/-- Copy bytes to an address; every other byte is unchanged. -/
def store (memory : Memory) (address : Address) (bytes : List UInt8) : Memory :=
  fun at_ => (bytes[(at_ - address).toNat]?).getD (memory at_)

/-- A range of memory that does not wrap around the address space. -/
structure Buffer where
  start : Address
  size : Address
  fits : start.toNat + size.toNat < 2 ^ 64

/-- The fields of `DataStream<T>` for a byte pointer `T`. -/
structure DataStream where
  start : Address
  pos : Address
  end_ : Address
  errno : ErrorCode
  ordered : start ≤ end_

namespace DataStream

/-- `DataStream(start, s)`. -/
def new (buffer : Buffer) : DataStream where
  start := buffer.start
  pos := buffer.start
  end_ := buffer.start + buffer.size
  errno := .success
  ordered := by
    have fits := buffer.fits
    rw [UInt64.le_iff_toNat_le, UInt64.toNat_add]
    omega

def setErrno (errno : ErrorCode) (stream : DataStream) : DataStream :=
  { stream with errno := errno }

/-- `skip`. -/
def skip (size : Address) (stream : DataStream) : DataStream :=
  { stream with pos := stream.pos + size }

/-- `read`: the bytes copied out, absent when the call returns false. The check
compares the pointer difference, cast to `size_t`, with the request. -/
def read (memory : Memory) (size : Address) (stream : DataStream) :
    Option (List UInt8) × DataStream :=
  if stream.end_ - stream.pos ≥ size then
    (some (load memory stream.pos size.toNat), { stream with pos := stream.pos + size })
  else (none, stream.setErrno .trapOutOfStream)

/-- `write`: the check compares the signed pointer difference with the size cast
to `int32_t`. -/
def write (bytes : List UInt8) (memory : Memory) (stream : DataStream) :
    Bool × Memory × DataStream :=
  if (stream.end_ - stream.pos).toBitVec.toInt ≥ (BitVec.ofNat 32 bytes.length).toInt then
    (true, store memory stream.pos bytes,
      { stream with pos := stream.pos + UInt64.ofNat bytes.length })
  else (false, memory, stream.setErrno .trapOutOfStream)

/-- `get`: the byte at the position, absent when the call returns false. -/
def get (memory : Memory) (stream : DataStream) : Option UInt8 × DataStream :=
  if stream.pos < stream.end_ then
    (some (memory stream.pos), { stream with pos := stream.pos + 1 })
  else (none, stream.setErrno .trapOutOfStream)

/-- `valid`. -/
def valid (stream : DataStream) : Bool :=
  stream.pos ≤ stream.end_ && stream.pos ≥ stream.start

/-- `seekp`: the position moves whether or not it is in range. -/
def seekp (offset : Address) (stream : DataStream) : Bool × DataStream :=
  (stream.start + offset ≤ stream.end_, { stream with pos := stream.start + offset })

/-- The number of bytes between the position and the end, none past the end. -/
def available (stream : DataStream) : Nat := stream.end_.toNat - stream.pos.toNat

/-- The bytes between the position and the end. -/
def unread (memory : Memory) (stream : DataStream) : List UInt8 :=
  load memory stream.pos stream.available

theorem valid_iff (stream : DataStream) :
    stream.valid = true ↔
      stream.start.toNat ≤ stream.pos.toNat ∧ stream.pos.toNat ≤ stream.end_.toNat := by
  simp only [valid, Bool.and_eq_true, decide_eq_true_eq, ge_iff_le, UInt64.le_iff_toNat_le]
  exact and_comm

/-- On a position inside the buffer the check of `read` is the intended one. -/
theorem read_check_iff (size : Address) {stream : DataStream}
    (inside : stream.pos.toNat ≤ stream.end_.toNat) :
    stream.end_ - stream.pos ≥ size ↔ size.toNat ≤ stream.available := by
  rw [ge_iff_le, UInt64.le_iff_toNat_le, UInt64.toNat_sub, available]
  have bound := stream.end_.toNat_lt
  omega

/-- The signed check of `write` sees the low half of the size alone, and lets every
size pass whose low half is negative as an `int32_t`. The buffer is an object no
larger than pointer differences can tell. -/
theorem write_check_narrow_iff (size : Nat) {stream : DataStream}
    (inside : stream.pos.toNat ≤ stream.end_.toNat) (object : stream.available < 2 ^ 63) :
    (stream.end_ - stream.pos).toBitVec.toInt ≥ (BitVec.ofNat 32 size).toInt ↔
      2 ^ 31 ≤ size % 2 ^ 32 ∨ size % 2 ^ 32 ≤ stream.available := by
  have room : (stream.end_ - stream.pos).toNat = stream.available := by
    rw [UInt64.toNat_sub, available]
    have bound := stream.end_.toNat_lt
    omega
  have left : (stream.end_ - stream.pos).toBitVec.toInt = stream.available := by
    rw [BitVec.toInt_eq_toNat_of_lt (by rw [UInt64.toNat_toBitVec, room]; omega),
      UInt64.toNat_toBitVec, room]
  rw [left, BitVec.toInt_eq_toNat_cond, BitVec.toNat_ofNat]
  split <;> omega

/-- A size that fits passes, however large. -/
theorem write_check_of_fits {size : Nat} {stream : DataStream}
    (inside : stream.pos.toNat ≤ stream.end_.toNat) (object : stream.available < 2 ^ 63)
    (fits : size ≤ stream.available) :
    (stream.end_ - stream.pos).toBitVec.toInt ≥ (BitVec.ofNat 32 size).toInt := by
  rw [write_check_narrow_iff size inside object]
  omega

/-- Moving on within the available bytes does not wrap. -/
theorem toNat_pos_add {size : Address} {stream : DataStream}
    (fits : size.toNat ≤ stream.available) :
    (stream.pos + size).toNat = stream.pos.toNat + size.toNat := by
  rw [available] at fits
  have bound := stream.end_.toNat_lt
  have start := stream.pos.toNat_lt
  rw [UInt64.toNat_add]
  omega

theorem toNat_pos_succ {stream : DataStream} (more : stream.pos < stream.end_) :
    (stream.pos + 1).toNat = stream.pos.toNat + 1 := by
  have below := UInt64.lt_iff_toNat_lt.mp more
  refine toNat_pos_add ?_
  simp only [available, UInt64.reduceToNat]
  omega

end DataStream
end XProject.Base
