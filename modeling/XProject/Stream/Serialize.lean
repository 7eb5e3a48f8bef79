import XProject.Std.Base128
import XProject.Stream.Types

/-!
# `operator<<` of `stream/data-stream.h`

The overloads are templates over the stream. They call nothing of it but `write`
and ignore its result, so they are defined for every `Sink`; a stream over a
byte buffer is one, and the list of all bytes written is another.
-/

namespace XProject.Base

open XProject.Std

/-- A stream that can be written to, the result of `write` left out. -/
class Sink (σ : Type) where
  write : (bytes : List UInt8) → σ → σ

/-- A `DataStream` over a byte buffer with the memory it writes to. -/
structure Output where
  memory : Memory
  stream : DataStream

instance : Sink Output where
  write bytes output :=
    let (_, memory, stream) := output.stream.write bytes output.memory
    ⟨memory, stream⟩

/-- All bytes written so far. -/
instance : Sink (List UInt8) where
  write bytes written := written ++ bytes

section Templates

variable {σ : Type} [Sink σ]

/-- The loop of `operator<<(DataStream, VarUInt)`. -/
def writeVarUInt (val : BitVec 64) (ds : σ) : σ :=
  let b := UInt8.ofBitVec (val.setWidth 8) &&& 0x7f
  let next := val >>> 7
  let ds := Sink.write [b ||| ((if next > 0 then (1 : UInt8) else 0) <<< 7)] ds
  if next ≠ 0 then writeVarUInt next ds else ds
termination_by val.toNat
decreasing_by
  rename_i more
  have shifted : (val >>> 7).toNat = val.toNat / 128 := by
    rw [BitVec.toNat_ushiftRight, Nat.shiftRight_eq_div_pow]
  have positive : (val >>> 7).toNat ≠ 0 := fun zero => more (BitVec.eq_of_toNat_eq zero)
  omega

/-- `operator<<(DataStream, VarUInt)`. -/
def encodeVarUInt (var : BitVec 32) (ds : σ) : σ := writeVarUInt (var.setWidth 64) ds

/-- Whether the loop of `operator<<(DataStream, VarInt)` goes on after the byte `b`. -/
def moreGroups (val : BitVec 32) (b : UInt8) : Bool :=
  !((val == 0 && b &&& 0x40 == 0) || (val == -1 && b &&& 0x40 != 0))

/-- The loop stops at 0 and at -1. -/
theorem moreGroups_nonzero {val : BitVec 32}
    (more : moreGroups (val.sshiftRight 7) (UInt8.ofBitVec (val.setWidth 8) &&& 0x7f) = true) :
    val.toInt ≠ 0 ∧ val.toInt ≠ -1 := by
  constructor
  · intro zero
    have none_left : val = 0 := BitVec.eq_of_toInt_eq zero
    subst none_left
    exact absurd more (by decide)
  · intro ones
    have all_ones : val = -1 := BitVec.eq_of_toInt_eq ones
    subst all_ones
    exact absurd more (by decide)

/-- The loop of `operator<<(DataStream, VarInt)`. -/
def writeVarInt (val : BitVec 32) (ds : σ) : σ :=
  let b := UInt8.ofBitVec (val.setWidth 8) &&& 0x7f
  let next := val.sshiftRight 7
  let more := moreGroups next b
  let ds := Sink.write [b ||| ((if more then (1 : UInt8) else 0) <<< 7)] ds
  if more then writeVarInt next ds else ds
termination_by val.toInt.natAbs
decreasing_by
  rename_i more
  have shifted := Base128.toInt_shifted val
  have nonzero := moreGroups_nonzero more
  omega

/-- `operator<<(DataStream, VarInt)`. -/
def encodeVarInt (var : BitVec 32) (ds : σ) : σ := writeVarInt var ds

/-- The little-endian bytes of an integer. -/
def littleEndianBytes (count : Nat) {width : Nat} (v : BitVec width) : List UInt8 :=
  (List.range count).map fun index => UInt8.ofBitVec ((v >>> (8 * index)).setWidth 8)

/-- `operator<<(DataStream, T)` for a primitive type. -/
def encodeInteger (width : IntWidth) (v : BitVec (8 * width.bytes)) (ds : σ) : σ :=
  Sink.write (littleEndianBytes width.bytes v) ds

/-- `ds << VarUInt(v.size())`. -/
def encodeSize (size : Nat) (ds : σ) : σ := encodeVarUInt (BitVec.ofNat 32 size) ds

/-- `operator<<(ds, v)`. -/
def encode : (type : Ty) → (v : type.Val) → σ → σ
  | .bool, (d : Bool), ds => encodeInteger .one (if d then 1 else 0) ds
  | .integer width _, v, ds => encodeInteger width v ds
  | .varUInt, var, ds => encodeVarUInt var ds
  | .varInt, var, ds => encodeVarInt var ds
  | .string, (v : List UInt8), ds =>
      let ds := encodeSize v.length ds
      if v.length ≠ 0 then Sink.write v ds else ds
  | .charVector, (v : List UInt8), ds => Sink.write v (encodeSize v.length ds)
  | .vector element, (v : List element.Val), ds =>
      v.foldl (fun ds i => encode element i ds) (encodeSize v.length ds)
  | .set element, (s : Ascending (id : element.Val → element.Val)), ds =>
      s.toList.foldl (fun ds i => encode element i ds) (encodeSize s.toList.length ds)
  | .map key value, (m : Ascending (entryKey : key.Val ×ₗ value.Val → key.Val)), ds =>
      m.toList.foldl (fun ds i => encode value (ofLex i).2 (encode key (ofLex i).1 ds))
        (encodeSize m.toList.length ds)
  | .array element size, (v : List.Vector element.Val size), ds =>
      v.toList.foldl (fun ds i => encode element i ds) (encodeSize size ds)

end Templates

/-- The bytes `operator<<` writes. -/
def emitted (type : Ty) (v : type.Val) : List UInt8 := encode type v []

end XProject.Base
