import XProject.Codec.Leb128RoundTrip
import XProject.Stream.Emitted

/-!
# The LEB128 encoders write the shortest spelling

No byte sequence that a reader decodes to a value is shorter than the one its
writer emits, and `U32Leb128Length` counts the bytes of that one. The data
stream's `VarUInt` and `VarInt` loops test for the last group differently and
emit the same bytes.
-/

namespace XProject.Base.Leb128

open XProject.Std
open XProject.Std.Base128

/-! ## Spellings of a value -/

/-- No spelling of a number has fewer groups than its shortest one. -/
theorem length_unsigned_magnitude_le {bytes : List UInt8} (nonempty : bytes ≠ []) :
    (unsigned (magnitude bytes)).length ≤ bytes.length := by
  have positive := List.length_pos_iff.mpr nonempty
  have bound := magnitude_lt bytes
  rw [two_pow_seven_mul] at bound
  obtain ⟨more, length⟩ : ∃ more, bytes.length = more + 1 := ⟨bytes.length - 1, by omega⟩
  rw [length] at bound ⊢
  exact length_unsigned_le _ more bound

/-- No spelling of an integer has fewer groups than its shortest one. -/
theorem length_signed_magnitude_le {bytes : List UInt8} (nonempty : bytes ≠ []) :
    (signed (signedMagnitude bytes)).length ≤ bytes.length := by
  have positive := List.length_pos_iff.mpr nonempty
  obtain ⟨more, length⟩ : ∃ more, bytes.length = more + 1 := ⟨bytes.length - 1, by omega⟩
  have bounds := signedMagnitude_bounds length
  rw [length]
  exact (length_signed_le_iff _ more).mpr bounds

/-- The bytes a reader takes when it decodes `p`: a word of its grammar in
front, whose integer is the value returned. -/
theorem Grammar.RecognizedBy.taken {width : Nat} {grammar : Grammar}
    {read : List UInt8 → BitVec width → Nat × BitVec width} (recognized : grammar.RecognizedBy read)
    {p : List UInt8} {outValue value : BitVec width} {length : Nat} (positive : 0 < length)
    (decoded : read p outValue = (length, value)) :
    ∃ bytes, bytes <+: p ∧ bytes ≠ [] ∧ grammar.InRange bytes ∧
      value = BitVec.ofInt width (grammar.value bytes) := by
  have word := (recognized.length_iff p outValue length positive).mp
    (congrArg Prod.fst decoded)
  have spelled := recognized.value p outValue length word
  have inside := terminator_lt word.terminated
  refine ⟨p.take length, List.take_prefix length p, ?_, ⟨word.low, word.high⟩, ?_⟩
  · intro empty
    have none_ := congrArg List.length empty
    rw [List.length_take, List.length_nil] at none_
    omega
  · rw [← spelled, decoded]

/-- A reader takes exactly `bytes` for `value`, and whatever it decodes to `value` is at least
as long. -/
structure Shortest {width : Nat} (read : List UInt8 → BitVec width → Nat × BitVec width)
    (value : BitVec width) (bytes : List UInt8) : Prop where
  reads : ∀ rest outValue, read (bytes ++ rest) outValue = (bytes.length, value)
  least : ∀ p outValue length, 0 < length → read p outValue = (length, value) →
    bytes.length ≤ p.length

/-- The shortest spelling of an unsigned word is shortest among all that
`ReadU32Leb128` decodes to it. -/
theorem u32_shortest (value : BitVec 32) :
    Shortest readU32Leb128 value (unsigned value.toNat) := by
  refine ⟨(⟨.u32, value, none⟩ : Item).read_spelling, fun p outValue length positive decoded => ?_⟩
  obtain ⟨bytes, front, nonempty, inRange, spelled⟩ := u32_recognized.taken positive decoded
  have same : value.toNat = magnitude bytes := by
    have high := inRange.2
    simp only [u32Grammar] at high
    rw [spelled, u32Grammar, BitVec.ofInt_natCast, BitVec.toNat_ofNat]
    exact Nat.mod_eq_of_lt (by omega)
  rw [same]
  exact le_trans (length_unsigned_magnitude_le nonempty) front.length_le

/-- The shortest spelling of a signed word is shortest among all that a reader
of two's-complement integers decodes to it. -/
theorem Grammar.RecognizedBy.signed_shortest {width more : Nat} (positiveWidth : 0 < width)
    {read : List UInt8 → BitVec width → Nat × BitVec width}
    (recognized : Grammar.RecognizedBy
      ⟨more + 1, signedMagnitude, -2 ^ (width - 1), 2 ^ (width - 1)⟩ read)
    (roomy : width ≤ 7 * (more + 1)) (value : BitVec width) :
    Shortest read value (signed value.toInt) := by
  refine ⟨recognized.read_signed roomy value, fun p outValue length positive decoded => ?_⟩
  obtain ⟨bytes, front, nonempty, inRange, spelled⟩ := recognized.taken positive decoded
  have same : value.toInt = signedMagnitude bytes := by
    rw [spelled]
    exact BitVec.toInt_ofInt_eq_self positiveWidth inRange.1 inRange.2
  rw [same]
  exact le_trans (length_signed_magnitude_le nonempty) front.length_le

/-! ## Counting the bytes of `WriteU32Leb128` -/

theorem shifted_toNat (value : BitVec 32) : (value >>> 7).toNat = value.toNat / 128 := by
  rw [BitVec.toNat_ushiftRight, Nat.shiftRight_eq_div_pow]

/-- The loop goes on exactly when another group follows. -/
theorem shifted_ne_zero_iff (value : BitVec 32) : value >>> 7 ≠ 0 ↔ 128 ≤ value.toNat := by
  have zero : value >>> 7 = 0 ↔ value.toNat / 128 = 0 := by
    rw [← shifted_toNat]
    exact BitVec.toNat_inj.symm
  rw [ne_eq, zero]
  omega

/-- The loop counts on from `size`. -/
theorem countGroups_eq (value : BitVec 32) (size : UInt32) :
    countGroups value size = size + UInt32.ofNat (unsigned value.toNat).length := by
  induction value, size using countGroups.induct with
  | case1 value size shifted size' more ih =>
      have large := (shifted_ne_zero_iff value).mp more
      rw [countGroups, if_pos more, ih, shifted_toNat, unsigned.eq_1 value.toNat,
        if_neg (by omega), List.length_cons, Nat.add_comm, UInt32.ofNat_add, ← UInt32.add_assoc]
      rfl
  | case2 value size shifted last =>
      have small : value.toNat < 128 := by
        have notLarge := mt (shifted_ne_zero_iff value).mpr last
        omega
      rw [countGroups, if_neg last, unsigned, if_pos small]
      rfl

/-- `U32Leb128Length` is exact. -/
theorem u32Leb128Length_toNat (value : BitVec 32) :
    (u32Leb128Length value).toNat = (unsigned value.toNat).length := by
  have bound := value.isLt
  have short := length_unsigned_le value.toNat 4 (by omega)
  rw [u32Leb128Length, countGroups_eq, UInt32.zero_add, UInt32.toNat_toUInt64,
    UInt32.toNat_ofNat']
  omega

theorem u32Leb128Length_eq (value : BitVec 32) :
    u32Leb128Length value = UInt64.ofNat (unsigned value.toNat).length := by
  rw [← u32Leb128Length_toNat, UInt64.ofNat_toNat]

section Writers

variable {Impl Log : Type} [StreamImpl Impl] [LogStream Log]

/-- `WriteU32Leb128` hands the stream the shortest spelling. -/
theorem writeU32Leb128_eq (value : BitVec 32) (desc : Desc) (stream : Stream Impl Log) :
    writeU32Leb128 value desc stream = stream.writeData (unsigned value.toNat) desc .no :=
  congrArg (writeArray · desc stream) (u32Leb128_eq value)

/-- `WriteU32Leb128At` hands it to the stream at an offset, and returns its length. -/
theorem writeU32Leb128At_eq (offset : Address) (value : BitVec 32) (desc : Desc)
    (stream : Stream Impl Log) :
    writeU32Leb128At offset value desc stream =
      (stream.writeDataAt offset (unsigned value.toNat) desc .no).map
        (UInt64.ofNat (unsigned value.toNat).length, ·) := by
  rw [writeU32Leb128At, u32Leb128_eq]
  dsimp only
  cases stream.writeDataAt offset (unsigned value.toNat) desc .no with
  | none => rfl
  | some next => rfl

/-- `WriteS32Leb128` hands the stream the shortest spelling. -/
theorem writeS32Leb128_eq (value : BitVec 32) (desc : Desc) (stream : Stream Impl Log) :
    writeS32Leb128 value desc stream = stream.writeData (signed value.toInt) desc .no :=
  congrArg (writeArray · desc stream) (s32Leb128_eq value)

/-- `WriteS64Leb128` hands the stream the shortest spelling. -/
theorem writeS64Leb128_eq (value : BitVec 64) (desc : Desc) (stream : Stream Impl Log) :
    writeS64Leb128 value desc stream = stream.writeData (signed value.toInt) desc .no :=
  congrArg (writeArray · desc stream) (s64Leb128_eq value)

/-- Each writer appends bytes that are read back as the value and that no shorter sequence is
decoded like, and for the unsigned ones their number is what `U32Leb128Length` and
`WriteU32Leb128At` return. -/
theorem writers_minimal (offset : Address) (desc : Desc) (stream : Stream Impl Log) :
    (∀ value : BitVec 32, ∃ bytes,
      writeU32Leb128 value desc stream = stream.writeData bytes desc .no ∧
      writeU32Leb128At offset value desc stream =
        (stream.writeDataAt offset bytes desc .no).map (u32Leb128Length value, ·) ∧
      (u32Leb128Length value).toNat = bytes.length ∧ Shortest readU32Leb128 value bytes) ∧
    (∀ value : BitVec 32, ∃ bytes,
      writeS32Leb128 value desc stream = stream.writeData bytes desc .no ∧
      Shortest readS32Leb128 value bytes) ∧
    (∀ value : BitVec 64, ∃ bytes,
      writeS64Leb128 value desc stream = stream.writeData bytes desc .no ∧
      Shortest readS64Leb128 value bytes) := by
  refine ⟨fun value => ?_, fun value => ?_, fun value => ?_⟩
  · refine ⟨unsigned value.toNat, writeU32Leb128_eq value desc stream, ?_, ?_,
      u32_shortest value⟩
    · rw [u32Leb128Length_eq]
      exact writeU32Leb128At_eq offset value desc stream
    · exact u32Leb128Length_toNat value
  · exact ⟨signed value.toInt, writeS32Leb128_eq value desc stream,
      s32_recognized.signed_shortest (by decide) (by decide) value⟩
  · exact ⟨signed value.toInt, writeS64Leb128_eq value desc stream,
      s64_recognized.signed_shortest (by decide) (by decide) value⟩

/-! ## The two encoders -/

/-- `operator<<` of the data stream and the LEB128 writers emit the same bytes. -/
theorem encoders_agree (desc : Desc) (stream : Stream Impl Log) (value : BitVec 32) :
    (writeU32Leb128 value desc stream = stream.writeData (emitted .varUInt value) desc .no ∧
      (emitted .varUInt value).length = (u32Leb128Length value).toNat) ∧
    writeS32Leb128 value desc stream = stream.writeData (emitted .varInt value) desc .no := by
  have varUInt : emitted .varUInt value = unsigned value.toNat := encodeVarUInt_list value []
  have varInt : emitted .varInt value = signed value.toInt := encodeVarInt_list value []
  rw [varUInt, varInt]
  exact ⟨⟨writeU32Leb128_eq value desc stream, (u32Leb128Length_toNat value).symm⟩,
    writeS32Leb128_eq value desc stream⟩

end Writers

end XProject.Base.Leb128
