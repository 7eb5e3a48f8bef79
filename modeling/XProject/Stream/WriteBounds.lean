import XProject.Stream.DataStream

/-!
# The bounds check of `DataStream::write`

`write` compares the room left with the size cast to `int32_t`. For sizes of
`2 ^ 31` bytes and more this lets writes pass that do not fit, and the bytes go
past the end of the buffer.
-/

namespace XProject.Base

/-- Exactly the bytes of a range were replaced. -/
def Replaced (before after : Memory) (address : Address) (bytes : List UInt8) : Prop :=
  ∀ other : Address, after other =
    if address.toNat ≤ other.toNat ∧ other.toNat < address.toNat + bytes.length
    then bytes.getD (other.toNat - address.toNat) 0 else before other

/-- A store that does not wrap around the address space replaces its range. -/
theorem store_replaced (memory : Memory) (address : Address) (bytes : List UInt8)
    (fits : address.toNat + bytes.length ≤ 2 ^ 64) :
    Replaced memory (store memory address bytes) address bytes := by
  intro other
  have bound := other.toNat_lt
  have start := address.toNat_lt
  by_cases inside : address.toNat ≤ other.toNat ∧ other.toNat < address.toNat + bytes.length
  · have index : (other - address).toNat = other.toNat - address.toNat := by
      rw [UInt64.toNat_sub]
      omega
    have within : other.toNat - address.toNat < bytes.length := by omega
    rw [if_pos inside, store, index, List.getD_eq_getElem?_getD,
      List.getElem?_eq_getElem within, Option.getD_some, Option.getD_some]
  · have beyond : bytes.length ≤ (other - address).toNat := by
      rw [UInt64.toNat_sub]
      omega
    rw [if_neg inside, store, List.getElem?_eq_none beyond, Option.getD_none]

namespace DataStream

/-- What a bounded `write` does: it succeeds exactly when the bytes fit, and then
replaces exactly the bytes from the position on, none behind the end; otherwise
only the error number changes. -/
structure WriteBounded (bytes : List UInt8) (memory : Memory) (stream : DataStream) : Prop where
  returns : (stream.write bytes memory).1 = true ↔ bytes.length ≤ stream.available
  written : (stream.write bytes memory).1 = true →
    stream.pos.toNat + bytes.length ≤ stream.end_.toNat ∧
    Replaced memory (stream.write bytes memory).2.1 stream.pos bytes ∧
    (stream.write bytes memory).2.2 =
      { stream with pos := stream.pos + UInt64.ofNat bytes.length }
  refused : (stream.write bytes memory).1 = false →
    (stream.write bytes memory).2 = (memory, stream.setErrno .trapOutOfStream)

variable {bytes : List UInt8} {memory : Memory} {stream : DataStream}

/-- `write` returns what its check says. -/
theorem write_returns_iff (inside : stream.pos.toNat ≤ stream.end_.toNat)
    (object : stream.available < 2 ^ 63) :
    (stream.write bytes memory).1 = true ↔
      2 ^ 31 ≤ bytes.length % 2 ^ 32 ∨ bytes.length % 2 ^ 32 ≤ stream.available := by
  rw [← write_check_narrow_iff bytes.length inside object, write]
  split
  · rename_i passes
    simp only [passes]
  · rename_i fails
    simp only [fails, Bool.false_eq_true]

/-- A `write` that returns true stored its bytes at the position. -/
theorem write_true (performed : (stream.write bytes memory).1 = true) :
    (stream.write bytes memory).2 = (store memory stream.pos bytes,
      { stream with pos := stream.pos + UInt64.ofNat bytes.length }) := by
  rw [write] at performed ⊢
  split at performed
  · rename_i passes
    rw [if_pos passes]
  · cases performed

/-- A `write` that returns false changed the error number alone. -/
theorem write_false (refused : (stream.write bytes memory).1 = false) :
    (stream.write bytes memory).2 = (memory, stream.setErrno .trapOutOfStream) := by
  rw [write] at refused ⊢
  split at refused
  · cases refused
  · rename_i fails
    rw [if_neg fails]

/-- `write` is bounded exactly for the bytes that fit and for those whose size,
cut to its low half, is a non-negative `int32_t` that does not fit either. -/
theorem write_bounded_iff (bytes : List UInt8) (memory : Memory) (stream : DataStream)
    (valid : stream.valid = true) (object : stream.available < 2 ^ 63) :
    WriteBounded bytes memory stream ↔
      bytes.length ≤ stream.available ∨
        (bytes.length % 2 ^ 32 < 2 ^ 31 ∧ stream.available < bytes.length % 2 ^ 32) := by
  have inside := ((valid_iff stream).mp valid).2
  have returns := @write_returns_iff bytes memory stream inside object
  constructor
  · intro bounded
    have intended := bounded.returns
    rw [returns] at intended
    omega
  · intro condition
    have intended : (stream.write bytes memory).1 = true ↔ bytes.length ≤ stream.available := by
      rw [returns]
      omega
    refine ⟨intended, ?_, write_false⟩
    intro performed
    have fits := intended.mp performed
    have end_ := stream.end_.toNat_lt
    rw [available] at fits
    rw [write_true performed]
    exact ⟨by omega, store_replaced memory stream.pos bytes (by omega), rfl⟩

/-- Three bytes fit a buffer of four. -/
theorem write_bounded_three :
    (DataStream.new ⟨4096, 4, by decide⟩).valid = true ∧
      (DataStream.new ⟨4096, 4, by decide⟩).available < 2 ^ 63 ∧
      (WriteBounded [1, 2, 3] (fun _ => 0) (.new ⟨4096, 4, by decide⟩) ↔
        [1, 2, 3].length ≤ (DataStream.new ⟨4096, 4, by decide⟩).available ∨
          ([1, 2, 3].length % 2 ^ 32 < 2 ^ 31 ∧
            (DataStream.new ⟨4096, 4, by decide⟩).available < [1, 2, 3].length % 2 ^ 32)) :=
  ⟨by decide, by decide, write_bounded_iff _ _ _ (by decide) (by decide)⟩

/-- A write of `2 ^ 31` bytes into a buffer of four is performed. -/
theorem write_past_the_end :
    (DataStream.new ⟨4096, 4, by decide⟩).valid = true ∧
      ¬WriteBounded (List.replicate (2 ^ 31) 1) (fun _ => 0) (.new ⟨4096, 4, by decide⟩) := by
  refine ⟨by decide, fun bounded => ?_⟩
  have returns := @write_returns_iff (List.replicate (2 ^ 31) 1) (fun _ => 0)
    (.new ⟨4096, 4, by decide⟩) (by decide) (by decide)
  have intended := bounded.returns
  have room : (DataStream.new ⟨4096, 4, by decide⟩).available = 4 := by decide
  rw [returns, List.length_replicate, room] at intended
  omega

end DataStream
end XProject.Base
