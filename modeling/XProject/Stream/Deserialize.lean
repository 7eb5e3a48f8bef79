import XProject.Std.Action
import XProject.Stream.Session
import XProject.Stream.Types
import Mathlib.Data.Nat.Digits.Defs

/-!
# `operator>>` of `stream/data-stream.h`

Every overload returns the destination's new value. Reads that fail leave their
destination alone and the program goes on, as the source ignores their results;
a refused element count and a failed `get` end the overload they occur in.
-/

namespace XProject.Base

open XProject.Std
open XProject.Std.Action

variable (environment : Environment)

/-! ## Variable-length integers -/

/-- One pass of the loops of `VarUInt` and `VarInt`: get a byte and shift its
low seven bits to their place, unless the stream is out of bytes. -/
def getGroup (by_ : UInt8) : Decoder (Option (UInt8 × BitVec 32)) := do
  match ← Session.get environment with
  | none =>
      Session.setErrno .trapOutOfStream
      pure none
  | some byte =>
      let bits ← Session.shift environment (· <<< ·) ((byte &&& 0x7f).toBitVec.setWidth 32)
        by_.toNat
      pure (some (byte, bits))

/-- A pass fails where `get` does, and otherwise only shifts. -/
theorem getGroup_run (by_ : UInt8) (session : Session) :
    (getGroup environment by_).run session =
      match (Session.get environment).run session with
      | (none, after) => (none, { after with stream := after.stream.setErrno .trapOutOfStream })
      | (some byte, after) =>
          let shifted := (Session.shift environment (· <<< ·)
            ((byte &&& 0x7f).toBitVec.setWidth 32) by_.toNat).run after
          (some (byte, shifted.1), shifted.2) := by
  cases got : (Session.get environment).run session with
  | mk byte after =>
      simp only [getGroup, StateT.run_bind, got]
      cases byte <;> rfl

/-- A pass that got a byte leaves fewer of them. -/
theorem getGroup_available {by_ : UInt8} {session after : Session} {group : UInt8 × BitVec 32}
    (passed : (getGroup environment by_).run session = (some group, after)) :
    after.stream.available < session.stream.available := by
  rw [getGroup_run] at passed
  cases got : (Session.get environment).run session with
  | mk byte middle =>
      rw [got] at passed
      cases byte with
      | none => cases passed
      | some byte =>
          obtain ⟨inside, moved⟩ := Session.get_some got
          obtain ⟨_, rfl⟩ := Prod.mk.inj passed
          rw [Session.shift_stream, moved]
          have below := UInt64.lt_iff_toNat_lt.mp inside
          have bound := session.stream.end_.toNat_lt
          simp only [DataStream.available, UInt64.toNat_add, UInt64.reduceToNat]
          omega

/-- The loops of `VarUInt` and `VarInt` up to the byte without a continuation
bit; `by_` is the running shift count, a `uint8_t`. -/
def readGroups {Sum : Type} (add : Sum → BitVec 32 → Sum) (sum : Sum) (by_ : UInt8) :
    Decoder (Option (Sum × UInt8)) := fun session =>
  match got : (getGroup environment by_).run session with
  | (none, after) => (none, after)
  | (some (byte, bits), after) =>
      if byte &&& 0x80 != 0 then readGroups add (add sum bits) (by_ + 7) after
      else (some (add sum bits, by_ + 7), after)
termination_by session => session.stream.available
decreasing_by exact getGroup_available environment got

/-- `operator>>(DataStream, VarUInt)`. -/
def decodeVarUInt (var : BitVec 32) : Decoder (BitVec 32) := do
  match ← readGroups environment (fun v bits => v ||| bits.setWidth 64) (0 : BitVec 64) 0 with
  | none => pure var
  | some (v, _) => pure (v.setWidth 32)

/-- The stream is left where the loop left it. -/
theorem decodeVarUInt_session (var : BitVec 32) (session : Session) :
    ((decodeVarUInt environment var).run session).2 =
      ((readGroups environment (fun v bits => v ||| bits.setWidth 64) (0 : BitVec 64) 0).run
        session).2 := by
  cases got : (readGroups environment (fun v bits => v ||| bits.setWidth 64) (0 : BitVec 64)
      0).run session with
  | mk groups after =>
      simp only [decodeVarUInt, StateT.run_bind, got]
      cases groups <;> rfl

/-- `v |= (v >> (by - 1)) & 0x01 ? static_cast<uint32_t>(-1) << by : 0`. -/
def extendSign (v : BitVec 32) (by_ : UInt8) : Decoder (BitVec 32) := do
  let sign ← Session.shift environment (· >>> ·) v (by_.toNat - 1)
  if sign &&& 0x01 != 0 then
    let ones ← Session.shift environment (· <<< ·) (-1) by_.toNat
    pure (v ||| ones)
  else pure v

/-- `operator>>(DataStream, VarInt)`. -/
def decodeVarInt (var : BitVec 32) : Decoder (BitVec 32) := do
  match ← readGroups environment (fun v bits => v ||| bits) (0 : BitVec 32) 0 with
  | none => pure var
  | some (v, by_) => extendSign environment v by_

theorem decodeVarInt_run (var : BitVec 32) (session : Session) :
    (decodeVarInt environment var).run session =
      match (readGroups environment (fun v bits => v ||| bits) (0 : BitVec 32) 0).run session with
      | (none, after) => (var, after)
      | (some (v, by_), after) => (extendSign environment v by_).run after := by
  cases got : (readGroups environment (fun v bits => v ||| bits) (0 : BitVec 32) 0).run session with
  | mk groups after =>
      simp only [decodeVarInt, StateT.run_bind, got]
      cases groups <;> rfl

/-! ## Fixed-width integers -/

/-- The integer whose little-endian bytes are given. -/
def littleEndian (width : Nat) (bytes : List UInt8) : BitVec width :=
  BitVec.ofNat width (Nat.ofDigits 256 (bytes.map UInt8.toNat))

/-- `operator>>(DataStream, T)` for a primitive type. -/
def decodeInteger (width : IntWidth) (v : BitVec (8 * width.bytes)) :
    Decoder (BitVec (8 * width.bytes)) := do
  match ← Session.read environment (UInt64.ofNat width.bytes) with
  | none => pure v
  | some bytes => pure (littleEndian _ bytes)

/-- `operator>>(DataStream, bool)`. -/
def decodeBool : Decoder Bool := do
  let t ← decodeInteger environment .one 0
  pure (t != 0)

/-! ## Containers -/

/-- Read an element count and go on with it if it is accepted; otherwise set
`TRAP_OUT_OF_CAPACITY` and keep the destination. -/
def withCount {α : Type} (accepts : Nat → Bool) (dest : α) (body : Nat → Decoder α) :
    Decoder α := do
  let size ← decodeVarUInt environment 0
  if accepts size.toNat then
    Session.record (.sized size.toNat)
    body size.toNat
  else
    Session.refuse size.toNat
    pure dest

/-- `s.value() <= datastream::kMaxElementNum`. -/
def withinCapacity (size : Nat) : Bool := size ≤ kMaxElementNum

/-- `resize`. -/
def resized {α : Type} (fill : α) (size : Nat) (elements : List α) : List α :=
  elements.take size ++ List.replicate (size - elements.length) fill

/-- `operator>>` for `std::string` and `std::vector<char>`: without elements the
destination is left alone. -/
def decodeBytes (v : List UInt8) : Decoder (List UInt8) :=
  withCount environment withinCapacity v fun size =>
    if size > 0 then do
      let v := resized 0 size v
      match ← Session.read environment (UInt64.ofNat v.length) with
      | none => pure v
      | some bytes => pure bytes
    else pure v

/-- What a local variable `T v;` holds. -/
def declare : (type : Ty) → Decoder type.Val
  | .bool => do
      let bits ← Session.uninitialized environment 1
      pure (bits != 0 : Bool)
  | .integer width _ => Session.uninitialized environment (8 * width.bytes)
  | .array element size => (List.Vector.replicate size ()).mmap fun _ => declare element
  | .varUInt => pure (Ty.zero .varUInt)
  | .varInt => pure (Ty.zero .varInt)
  | .string => pure (Ty.zero .string)
  | .charVector => pure (Ty.zero .charVector)
  | .vector element => pure (Ty.zero (.vector element))
  | .set element => pure (Ty.zero (.set element))
  | .map key value => pure (Ty.zero (.map key value))

/-- `operator>>(ds, dest)`: the new value of the destination. -/
def decode : (type : Ty) → (dest : type.Val) → Decoder type.Val
  | .bool, _ => decodeBool environment
  | .integer width _, dest => decodeInteger environment width dest
  | .varUInt, dest => decodeVarUInt environment dest
  | .varInt, dest => decodeVarInt environment dest
  | .string, dest => decodeBytes environment dest
  | .charVector, dest => decodeBytes environment dest
  | .vector element, dest =>
      withCount environment withinCapacity dest fun size =>
        (resized element.zero size dest).mapM (decode element)
  | .set element, _ =>
      withCount environment withinCapacity (Ty.zero (.set element)) fun size =>
        iterate (fun (s : Ascending (id : element.Val → element.Val)) => do
          let v ← declare environment element
          let v ← decode element v
          pure (s.emplace v)) size Ascending.empty
  | .map key value, _ =>
      withCount environment withinCapacity (Ty.zero (.map key value)) fun size =>
        iterate (fun (m : Ascending (entryKey : key.Val ×ₗ value.Val → key.Val)) => do
          let k ← declare environment key
          let v ← declare environment value
          let k ← decode key k
          let v ← decode value v
          pure (m.emplace (toLex (k, v)))) size Ascending.empty
  | .array element size, dest =>
      withCount environment (fun count => size == count && size < kMaxElementNum) dest fun _ =>
        List.Vector.mmap (decode element) dest

end XProject.Base
