import XProject.Stream.Output

/-!
# Packing a value into a buffer of its size

`DataStream<size_t>` counts the bytes that the same overloads write to a buffer,
so the buffer that `pack` allocates after `pack_size` is exactly large enough:
the stream over it reports no error and ends at its end.
-/

namespace XProject.Base

open XProject.Std

/-- `DataStream<size_t>`. -/
structure Counting where
  size : Address

instance : Sink Counting where
  write bytes ds := ⟨ds.size + UInt64.ofNat bytes.length⟩

/-- `pack_size`. -/
def packSize (type : Ty) (v : type.Val) : Address := (encode type v (⟨0⟩ : Counting)).size

/-- `pack(value)`, its vector resized to the bytes of `storage`. -/
def pack (type : Ty) (v : type.Val) (storage : Buffer) (memory : Memory) : Output :=
  encode type v ⟨memory, .new storage⟩

/-- `pack(value, result)`, its string resized to the bytes of `storage`: the size
returned and the stream, absent when there is nothing to write. -/
def packString (type : Ty) (v : type.Val) (storage : Buffer) (memory : Memory) :
    Address × Option Output :=
  (packSize type v,
    if packSize type v > 0 then some (encode type v ⟨memory, .new storage⟩) else none)

/-- The largest containers whose pieces `write` accepts. -/
def packLimits : Limits := ⟨2 ^ 31 - 1, 2 ^ 31 - 1⟩

/-- The count is the number of bytes written, as a `size_t`. -/
theorem packSize_eq {type : Ty} {v : type.Val} (within : type.Within packLimits v) :
    packSize type v = UInt64.ofNat (emitted type v).length := by
  have step : ∀ bytes (ds : Counting) (dt : List UInt8), bytes.length ≤ packLimits.chunk →
      ds.size = UInt64.ofNat dt.length →
      (Sink.write bytes ds : Counting).size =
        UInt64.ofNat (Sink.write bytes dt : List UInt8).length := by
    intro bytes ds dt _ counted
    simp only [Sink.write, List.length_append, UInt64.ofNat_add, counted]
  exact encode_related step within rfl

/-- Something is written for every value. -/
theorem emitted_ne_nil {type : Ty} {v : type.Val} (within : type.Within packLimits v) :
    emitted type v ≠ [] := by
  have spelled (number : Nat) (rest : List UInt8) : Base128.unsigned number ++ rest ≠ [] :=
    List.append_ne_nil_of_left_ne_nil (Base128.unsigned_terminated number).nonempty rest
  cases type with
  | bool => simp [emitted, encode, encodeInteger, Sink.write, littleEndianBytes, IntWidth.bytes]
  | integer width signed =>
      cases width <;>
        simp [emitted, encode, encodeInteger, Sink.write, littleEndianBytes, IntWidth.bytes]
  | varUInt =>
      rw [show emitted .varUInt v = _ from encodeVarUInt_list v [], List.nil_append]
      exact (Base128.unsigned_terminated _).nonempty
  | varInt =>
      rw [show emitted .varInt v = _ from encodeVarInt_list v [], List.nil_append]
      exact (Base128.signed_terminated _).nonempty
  | string =>
      rw [emitted_string (by decide) within]
      exact spelled _ _
  | charVector =>
      rw [emitted_charVector (by decide) within]
      exact spelled _ _
  | vector element =>
      rw [emitted_vector (by decide) within]
      exact spelled _ _
  | set element =>
      rw [emitted_set (by decide) within]
      exact spelled _ _
  | map key value =>
      rw [emitted_map (by decide) within]
      exact spelled _ _
  | array element count =>
      rw [emitted_array (by decide) within]
      exact spelled _ _

/-- A stream that has filled the buffer it was made over with `bytes`, without an error. -/
structure Filled (storage : Buffer) (output : Output) (bytes : List UInt8) : Prop where
  errno : output.stream.errno = .success
  atEnd : output.stream.pos = output.stream.end_
  contents : load output.memory storage.start storage.size.toNat = bytes

/-- A buffer of the packed size is filled with the bytes of the value. -/
theorem pack_filled {type : Ty} {v : type.Val} (within : type.Within packLimits v)
    (allocatable : (emitted type v).length < 2 ^ 63) {storage : Buffer}
    (size : storage.size = packSize type v) (memory : Memory) :
    Filled storage (pack type v storage memory) (emitted type v) := by
  have length : storage.size.toNat = (emitted type v).length := by
    rw [size, packSize_eq within, UInt64.toNat_ofNat']
    omega
  have fits := storage.fits
  have inside : (DataStream.new storage).pos.toNat ≤ (DataStream.new storage).end_.toNat := by
    simp only [DataStream.new, UInt64.toNat_add]
    omega
  have available : (DataStream.new storage).available = (emitted type v).length := by
    simp only [DataStream.available, DataStream.new, UInt64.toNat_add]
    omega
  obtain ⟨stream, contents⟩ := Output.encode_wrote within
    ⟨memory, DataStream.new storage⟩ inside (by rw [available]; exact allocatable)
    (by rw [available])
  constructor
  · rw [pack, stream]
    rfl
  · rw [pack, stream, ← length, UInt64.ofNat_toNat]
    rfl
  · rw [length]
    exact contents

/-- `pack_size` and both forms of `pack` agree: the count is the number of bytes,
and each form fills the buffer it allocated with the same bytes, the bytes of the
value, without an error. The buffer is an object, so it has less than `2 ^ 63` bytes. -/
theorem pack_agrees {type : Ty} {v : type.Val} (within : type.Within packLimits v)
    (allocatable : (emitted type v).length < 2 ^ 63) {vector string : Buffer}
    (vectorSize : vector.size = packSize type v) (stringSize : string.size = packSize type v)
    (vectorMemory stringMemory : Memory) :
    (packSize type v).toNat = (emitted type v).length ∧
      Filled vector (pack type v vector vectorMemory) (emitted type v) ∧
      ∃ output, packString type v string stringMemory = (packSize type v, some output) ∧
        Filled string output (emitted type v) := by
  have count : (packSize type v).toNat = (emitted type v).length := by
    rw [packSize_eq within, UInt64.toNat_ofNat']
    omega
  have positive : packSize type v > 0 := by
    have some_ := List.length_pos_iff.mpr (emitted_ne_nil within)
    rw [gt_iff_lt, UInt64.lt_iff_toNat_lt, count]
    exact some_
  refine ⟨count, pack_filled within allocatable vectorSize vectorMemory, ?_⟩
  refine ⟨_, ?_, pack_filled within allocatable stringSize stringMemory⟩
  rw [packString, if_pos positive]
  rfl

/-- A vector of strings, one of them empty, packed twice. -/
theorem pack_agrees_strings :
    let type : Ty := .vector .string
    let v : type.Val := ([[0x61, 0x62], []] : List (List UInt8))
    let storage : Buffer := ⟨16, packSize type v, by decide +kernel⟩
    (packSize type v).toNat = (emitted type v).length ∧
      Filled storage (pack type v storage fun _ => 0) (emitted type v) ∧
      ∃ output, packString type v storage (fun _ => 0) = (packSize type v, some output) ∧
        Filled storage output (emitted type v) := by
  intro type v storage
  have within : type.Within packLimits v := @of_decide_eq_true _ (type.decideWithin packLimits v) rfl
  exact @pack_agrees type v within (by decide +kernel) storage storage rfl rfl _ _

end XProject.Base
