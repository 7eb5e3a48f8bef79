import XProject.Std.Ascending
import XProject.Stream.DataStream
import Mathlib.Data.Bool.Basic
import Mathlib.Data.Prod.Lex
import Mathlib.Data.Vector.Basic

/-!
# The types a `DataStream` carries

`Ty` lists the types for which `stream/data-stream.h` has a pair of `operator<<`
and `operator>>`, nested as templates nest them. Each has its values and their
order, the one its `operator<` gives, by which sets and maps keep their entries.
-/

namespace XProject.Base

open XProject.Std

/-- `sizeof` of a fixed-width integer. -/
inductive IntWidth where
  | one
  | two
  | four
  | eight
deriving DecidableEq

def IntWidth.bytes : IntWidth → Nat
  | .one => 1
  | .two => 2
  | .four => 4
  | .eight => 8

/-- The types that can be written and read. An enumeration is an integer of its
underlying type; `charVector` is `std::vector<char>`, which has its own overloads. -/
inductive Ty where
  | bool
  | integer (width : IntWidth) (signed : Bool)
  | varUInt
  | varInt
  | string
  | charVector
  | vector (element : Ty)
  | set (element : Ty)
  | map (key value : Ty)
  | array (element : Ty) (size : Nat)

/-- The values of a type with their order. -/
structure Carrier where
  type : Type
  order : LinearOrder type

/-- The integer that bits stand for. -/
def integerValue {width : Nat} (signed : Bool) (bits : BitVec width) : Int :=
  if signed then bits.toInt else bits.toNat

theorem integerValue_injective {width : Nat} (signed : Bool) :
    Function.Injective (integerValue signed : BitVec width → Int) := by
  intro left right equal
  cases signed with
  | false => exact BitVec.eq_of_toNat_eq (Int.ofNat_inj.mp equal)
  | true => exact BitVec.eq_of_toInt_eq equal

/-- Integers compare as the numbers they stand for. -/
@[reducible] def integerOrder (width : Nat) (signed : Bool) : LinearOrder (BitVec width) :=
  LinearOrder.lift' (integerValue signed) (integerValue_injective signed)

/-- A string compares its bytes unsigned, a vector of `char` compares them signed. -/
@[reducible] def bytesOrder (signed : Bool) : LinearOrder (List UInt8) :=
  LinearOrder.lift' (List.map fun byte => integerValue signed byte.toBitVec)
    (List.map_injective_iff.mpr fun _ _ equal =>
      UInt8.toBitVec_inj.mp (integerValue_injective signed equal))

/-- The key of a map entry. -/
def entryKey {κ ν : Type} (entry : κ ×ₗ ν) : κ := (ofLex entry).1

/-- The values and the order of a type. -/
def Ty.carrier : Ty → Carrier
  | .bool => ⟨Bool, inferInstance⟩
  | .integer width signed => ⟨BitVec (8 * width.bytes), integerOrder _ signed⟩
  | .varUInt => ⟨BitVec 32, integerOrder 32 false⟩
  | .varInt => ⟨BitVec 32, integerOrder 32 true⟩
  | .string => ⟨List UInt8, bytesOrder false⟩
  | .charVector => ⟨List UInt8, bytesOrder true⟩
  | .vector element =>
      letI := element.carrier.order
      ⟨List element.carrier.type, inferInstance⟩
  | .set element =>
      letI := element.carrier.order
      ⟨Ascending (id : element.carrier.type → element.carrier.type), inferInstance⟩
  | .map key value =>
      letI := key.carrier.order
      letI := value.carrier.order
      ⟨Ascending (entryKey : key.carrier.type ×ₗ value.carrier.type → key.carrier.type),
        inferInstance⟩
  | .array element size =>
      letI := element.carrier.order
      ⟨List.Vector element.carrier.type size,
        LinearOrder.lift' List.Vector.toList List.Vector.toList_injective⟩

/-- The values of a type. -/
abbrev Ty.Val (type : Ty) : Type := type.carrier.type

instance (type : Ty) : LinearOrder type.Val := type.carrier.order

/-- The value a value-initialized variable has. -/
def Ty.zero : (type : Ty) → type.Val
  | .bool => false
  | .integer width _ => (0 : BitVec (8 * width.bytes))
  | .varUInt => (0 : BitVec 32)
  | .varInt => (0 : BitVec 32)
  | .string => ([] : List UInt8)
  | .charVector => ([] : List UInt8)
  | .vector _ => ([] : List _)
  | .set _ => Ascending.empty
  | .map _ _ => Ascending.empty
  | .array element size => List.Vector.replicate size element.zero

/-- The largest sizes a decoder takes: of a container and of an array. -/
structure Limits where
  container : Nat
  array : Nat

/-- The limits of the decoders of `stream/data-stream.h`. -/
def decoderLimits : Limits := ⟨kMaxElementNum, kMaxElementNum - 1⟩

/-- The size of every container and array in the value is within the limits. -/
def Ty.Within (limits : Limits) : (type : Ty) → type.Val → Prop
  | .bool, _ | .integer .., _ | .varUInt, _ | .varInt, _ => True
  | .string, (bytes : List UInt8) => bytes.length ≤ limits.container
  | .charVector, (bytes : List UInt8) => bytes.length ≤ limits.container
  | .vector element, (elements : List element.Val) =>
      elements.length ≤ limits.container ∧ ∀ item ∈ elements, element.Within limits item
  | .set element, (elements : Ascending (id : element.Val → element.Val)) =>
      elements.toList.length ≤ limits.container ∧
        ∀ item ∈ elements.toList, element.Within limits item
  | .map key value, (entries : Ascending (entryKey : key.Val ×ₗ value.Val → key.Val)) =>
      entries.toList.length ≤ limits.container ∧ ∀ entry ∈ entries.toList,
        key.Within limits (ofLex entry).1 ∧ value.Within limits (ofLex entry).2
  | .array element size, (elements : List.Vector element.Val size) =>
      size ≤ limits.array ∧ ∀ item ∈ elements.toList, element.Within limits item

/-- Sizes can be checked by going through the value. -/
def Ty.decideWithin (limits : Limits) :
    (type : Ty) → (v : type.Val) → Decidable (type.Within limits v)
  | .bool, _ | .integer .., _ | .varUInt, _ | .varInt, _ => .isTrue trivial
  | .string, (bytes : List UInt8) => Nat.decLe bytes.length limits.container
  | .charVector, (bytes : List UInt8) => Nat.decLe bytes.length limits.container
  | .vector element, (elements : List element.Val) =>
      have := element.decideWithin limits
      inferInstanceAs (Decidable (elements.length ≤ limits.container ∧
        ∀ item ∈ elements, element.Within limits item))
  | .set element, (elements : Ascending (id : element.Val → element.Val)) =>
      have := element.decideWithin limits
      inferInstanceAs (Decidable (elements.toList.length ≤ limits.container ∧
        ∀ item ∈ elements.toList, element.Within limits item))
  | .map key value, (entries : Ascending (entryKey : key.Val ×ₗ value.Val → key.Val)) =>
      have := key.decideWithin limits
      have := value.decideWithin limits
      inferInstanceAs (Decidable (entries.toList.length ≤ limits.container ∧
        ∀ entry ∈ entries.toList,
          key.Within limits (ofLex entry).1 ∧ value.Within limits (ofLex entry).2))
  | .array element size, (elements : List.Vector element.Val size) =>
      have := element.decideWithin limits
      inferInstanceAs (Decidable (size ≤ limits.array ∧
        ∀ item ∈ elements.toList, element.Within limits item))

instance (limits : Limits) (type : Ty) (v : type.Val) : Decidable (type.Within limits v) :=
  type.decideWithin limits v

/-- A type in which `VarInt` does not occur. -/
def Ty.withoutVarInt : Ty → Bool
  | .bool | .integer .. | .varUInt | .string | .charVector => true
  | .varInt => false
  | .vector element | .set element | .array element _ => element.withoutVarInt
  | .map key value => key.withoutVarInt && value.withoutVarInt

end XProject.Base
