import XProject.Stream.Serialize

/-!
# What `operator<<` writes

Every overload makes the same calls of `write` on every sink, so two sinks that
`write` keeps related stay related by a whole value. This gives the bytes of a
value compositionally, and that a stream over a large enough buffer receives
exactly these bytes.
-/

namespace XProject.Base

open XProject.Std

section AnySink

variable {σ : Type} [Sink σ]

/-- Write bytes one at a time. -/
def writeEach (bytes : List UInt8) (ds : σ) : σ :=
  bytes.foldl (fun ds b => Sink.write [b] ds) ds

/-- `operator<<(DataStream, VarUInt)` writes the shortest spelling byte by byte. -/
theorem writeVarUInt_eq (val : BitVec 64) (ds : σ) :
    writeVarUInt val ds = writeEach (Base128.unsigned val.toNat) ds := by
  induction bits : val.toNat using Nat.strong_induction_on generalizing val ds with
  | _ number ih =>
      subst bits
      have low : val.toNat % 128 < 128 := Nat.mod_lt _ (by decide)
      have shifted : (val >>> 7).toNat = val.toNat / 128 := by
        rw [BitVec.toNat_ushiftRight, Nat.shiftRight_eq_div_pow]
      rw [writeVarUInt, Base128.unsigned, Base128.byte_and_low]
      by_cases small : val.toNat < 128
      · have last : val >>> 7 = 0 := by
          apply BitVec.eq_of_toNat_eq
          rw [shifted]
          exact Nat.div_eq_of_lt small
        have stop : ¬(0 : BitVec 64) > 0 := by decide
        simp only [last, stop, if_false, ne_eq, not_true_eq_false, small, if_true,
          Nat.mod_eq_of_lt small]
        simp [writeEach]
      · have goOn : val >>> 7 > 0 := by
          change (0 : BitVec 64).toNat < (val >>> 7).toNat
          rw [shifted]
          exact Nat.div_pos (by omega) (by decide)
        have nonzero : val >>> 7 ≠ 0 := fun zero => by
          rw [zero] at goOn
          exact absurd goOn (by decide)
        have tail := ih (val >>> 7).toNat (by rw [shifted]; omega) (val >>> 7)
        simp only [goOn, if_true, ne_eq, nonzero, not_false_eq_true, small, if_false]
        rw [tail _ rfl, shifted, show (1 : UInt8) <<< 7 = 0x80 from rfl,
          Base128.ofNat_or_more _ low]
        rfl

/-- The loop of `VarInt` goes on unless the group in hand is the last of the
shortest spelling. -/
theorem moreGroups_iff (val : BitVec 32) :
    moreGroups (val.sshiftRight 7) (UInt8.ofNat (val.toNat % 128)) = true ↔
      ¬((val.toInt / 128 = 0 ∧ val.toInt % 128 < 64) ∨
        (val.toInt / 128 = -1 ∧ 64 ≤ val.toInt % 128)) := by
  have zero := Base128.shifted_eq_iff val 0
  have ones := Base128.shifted_eq_iff val (-1)
  have sign := Base128.ofNat_and_sign (val.toNat % 128) (Nat.mod_lt _ (by decide))
  rw [show (0 : BitVec 32).toInt = 0 from rfl] at zero
  rw [Base128.toInt_neg_one (by decide)] at ones
  have clear := Base128.ofNat_and_sign_clear (val.toNat % 128) (Nat.mod_lt _ (by decide))
  rw [moreGroups, sign, clear, Base128.toNat_mod_eq (by decide)]
  simp only [Bool.not_eq_true', Bool.or_eq_false_iff, Bool.and_eq_false_iff, beq_eq_false_iff_ne,
    ne_eq, Bool.not_eq_false', decide_eq_true_eq, decide_eq_false_iff_not, zero, ones]
  omega

/-- `operator<<(DataStream, VarInt)` writes the shortest spelling byte by byte. -/
theorem writeVarInt_eq (val : BitVec 32) (ds : σ) :
    writeVarInt val ds = writeEach (Base128.signed val.toInt) ds := by
  induction size : val.toInt.natAbs using Nat.strong_induction_on generalizing val ds with
  | _ number ih =>
      subst size
      have low : val.toNat % 128 < 128 := Nat.mod_lt _ (by decide)
      have group := Base128.toNat_mod_eq (by decide) val
      have shifted := Base128.toInt_shifted val
      have more := moreGroups_iff val
      rw [writeVarInt, Base128.signed, Base128.byte_and_low]
      by_cases last : (val.toInt / 128 = 0 ∧ val.toInt % 128 < 64) ∨
          (val.toInt / 128 = -1 ∧ 64 ≤ val.toInt % 128)
      · have stop := eq_false_of_ne_true fun goesOn => more.mp goesOn last
        simp only [stop, Bool.false_eq_true, if_false, if_pos last, ← group]
        simp [writeEach]
      · have goesOn := more.mpr last
        have tail := ih (val.sshiftRight 7).toInt.natAbs (by rw [shifted]; omega)
          (val.sshiftRight 7)
        simp only [goesOn, if_true, if_neg last]
        rw [tail _ rfl, shifted, show (1 : UInt8) <<< 7 = 0x80 from rfl,
          Base128.ofNat_or_more _ low, group]
        rfl

end AnySink

/-! ## Two sinks side by side -/

section Related

variable {σ τ : Type} [Sink σ] [Sink τ] {R : σ → τ → Prop} {limits : Limits}

/-- Every `write` of a value within the limits is at most this long. -/
def Limits.chunk (limits : Limits) : Nat := max limits.container 8

variable (step : ∀ bytes ds dt, bytes.length ≤ limits.chunk → R ds dt →
  R (Sink.write bytes ds) (Sink.write bytes dt))

include step

theorem writeEach_related (bytes : List UInt8) {ds : σ} {dt : τ} (related : R ds dt) :
    R (writeEach bytes ds) (writeEach bytes dt) := by
  induction bytes generalizing ds dt with
  | nil => exact related
  | cons byte rest ih =>
      have small : [byte].length ≤ limits.chunk := by
        rw [Limits.chunk, List.length_singleton]
        omega
      exact ih (step [byte] ds dt small related)

theorem encodeVarUInt_related (var : BitVec 32) {ds : σ} {dt : τ} (related : R ds dt) :
    R (encodeVarUInt var ds) (encodeVarUInt var dt) := by
  rw [encodeVarUInt, encodeVarUInt, writeVarUInt_eq, writeVarUInt_eq]
  exact writeEach_related step _ related

theorem encodeVarInt_related (var : BitVec 32) {ds : σ} {dt : τ} (related : R ds dt) :
    R (encodeVarInt var ds) (encodeVarInt var dt) := by
  rw [encodeVarInt, encodeVarInt, writeVarInt_eq, writeVarInt_eq]
  exact writeEach_related step _ related

theorem encodeInteger_related (width : IntWidth) (v : BitVec (8 * width.bytes)) {ds : σ} {dt : τ}
    (related : R ds dt) : R (encodeInteger width v ds) (encodeInteger width v dt) := by
  refine step _ ds dt ?_ related
  rw [littleEndianBytes, List.length_map, List.length_range, Limits.chunk]
  cases width <;> simp [IntWidth.bytes]

/-- A string is written in one piece unless it is empty. -/
theorem writeBytes_related (bytes : List UInt8) (small : bytes.length ≤ limits.container)
    {ds : σ} {dt : τ} (related : R ds dt) :
    R (if bytes.length ≠ 0 then Sink.write bytes ds else ds)
      (if bytes.length ≠ 0 then Sink.write bytes dt else dt) := by
  by_cases empty : bytes.length ≠ 0
  · rw [if_pos empty, if_pos empty]
    exact step bytes ds dt (le_trans small (le_max_left _ _)) related
  · rw [if_neg empty, if_neg empty]
    exact related

omit step [Sink σ] [Sink τ] in
/-- A loop keeps two sinks related that each of its passes keeps related. -/
theorem foldl_related {α : Type} {f : σ → α → σ} {g : τ → α → τ} {items : List α}
    (each : ∀ item ∈ items, ∀ ds dt, R ds dt → R (f ds item) (g dt item)) {ds : σ} {dt : τ}
    (related : R ds dt) : R (items.foldl f ds) (items.foldl g dt) := by
  induction items generalizing ds dt with
  | nil => exact related
  | cons item items ih =>
      have next := each item (by simp) ds dt related
      exact ih (fun other member => each other (List.mem_cons_of_mem _ member)) next

/-- A whole value keeps two sinks related that every `write` keeps related. -/
theorem encode_related {type : Ty} {v : type.Val} (within : type.Within limits v) {ds : σ}
    {dt : τ} (related : R ds dt) : R (encode type v ds) (encode type v dt) := by
  induction type generalizing ds dt with
  | bool => exact encodeInteger_related step .one _ related
  | integer width signed => exact encodeInteger_related step width v related
  | varUInt => exact encodeVarUInt_related step v related
  | varInt => exact encodeVarInt_related step v related
  | string => exact writeBytes_related step v within (encodeVarUInt_related step _ related)
  | charVector =>
      exact step v _ _ (le_trans within (le_max_left _ _)) (encodeVarUInt_related step _ related)
  | vector element ih =>
      refine foldl_related (fun item member ds dt related => ?_)
        (encodeVarUInt_related step _ related)
      exact ih (within.2 item member) related
  | set element ih =>
      refine foldl_related (fun item member ds dt related => ?_)
        (encodeVarUInt_related step _ related)
      exact ih (within.2 item member) related
  | map key value keyIh valueIh =>
      refine foldl_related (fun entry member ds dt related => ?_)
        (encodeVarUInt_related step _ related)
      exact valueIh (within.2 entry member).2 (keyIh (within.2 entry member).1 related)
  | array element size ih =>
      refine foldl_related (fun item member ds dt related => ?_)
        (encodeVarUInt_related step _ related)
      exact ih (within.2 item member) related

end Related

/-! ## The bytes of a value -/

theorem writeEach_list (bytes written : List UInt8) :
    writeEach bytes written = written ++ bytes := by
  induction bytes generalizing written with
  | nil => simp [writeEach]
  | cons byte rest ih =>
      have tail := ih (written ++ [byte])
      rw [List.append_assoc, List.singleton_append] at tail
      exact tail

theorem encodeVarUInt_list (var : BitVec 32) (written : List UInt8) :
    encodeVarUInt var written = written ++ Base128.unsigned var.toNat := by
  rw [encodeVarUInt, writeVarUInt_eq, writeEach_list, BitVec.toNat_setWidth,
    Nat.mod_eq_of_lt (lt_trans var.isLt (by decide))]

theorem encodeVarInt_list (var : BitVec 32) (written : List UInt8) :
    encodeVarInt var written = written ++ Base128.signed var.toInt := by
  rw [encodeVarInt, writeVarInt_eq, writeEach_list]

/-- A size that fits the limits is written as it is. -/
theorem encodeSize_list {size : Nat} (small : size < 2 ^ 32) (written : List UInt8) :
    encodeSize size written = written ++ Base128.unsigned size := by
  rw [encodeSize, encodeVarUInt_list, BitVec.toNat_ofNat, Nat.mod_eq_of_lt small]

variable {limits : Limits}

/-- What is written does not depend on what was written before. -/
theorem encode_list {type : Ty} {v : type.Val} (within : type.Within limits v)
    (written : List UInt8) : encode type v written = written ++ emitted type v := by
  have step : ∀ bytes ds dt : List UInt8, bytes.length ≤ limits.chunk → ds = written ++ dt →
      Sink.write bytes ds = written ++ Sink.write bytes dt := by
    intro bytes ds dt _ related
    rw [related]
    exact List.append_assoc ..
  exact encode_related step within (List.append_nil written).symm

/-- The elements of a container one after the other. -/
theorem foldl_list {α : Type} {f : List UInt8 → α → List UInt8} {spell : α → List UInt8}
    {items : List α} (each : ∀ item ∈ items, ∀ written, f written item = written ++ spell item)
    (written : List UInt8) : items.foldl f written = written ++ items.flatMap spell := by
  induction items generalizing written with
  | nil => simp
  | cons item items ih =>
      have head := each item (by simp) written
      have tail := ih (fun other member => each other (List.mem_cons_of_mem _ member))
        (f written item)
      rw [List.foldl_cons, tail, head, List.flatMap_cons, List.append_assoc]

/-- A size and the elements behind it. -/
theorem sized_list {α : Type} {f : List UInt8 → α → List UInt8} {spell : α → List UInt8}
    {items : List α} {size : Nat} (small : size < 2 ^ 32)
    (each : ∀ item ∈ items, ∀ written, f written item = written ++ spell item) :
    items.foldl f (encodeSize size []) = Base128.unsigned size ++ items.flatMap spell := by
  rw [foldl_list each, encodeSize_list small, List.nil_append]

section Containers

variable (small : limits.container < 2 ^ 32) (smallArray : limits.array < 2 ^ 32)

include small

theorem emitted_string {v : List UInt8} (within : v.length ≤ limits.container) :
    emitted .string v = Base128.unsigned v.length ++ v := by
  have size := encodeSize_list (lt_of_le_of_lt within small) []
  change (if v.length ≠ 0 then encodeSize v.length [] ++ v else encodeSize v.length []) = _
  rw [size, List.nil_append]
  by_cases empty : v.length ≠ 0
  · rw [if_pos empty]
  · have nil := List.length_eq_zero_iff.mp (not_not.mp empty)
    rw [if_neg empty, nil, List.append_nil]

theorem emitted_charVector {v : List UInt8} (within : v.length ≤ limits.container) :
    emitted .charVector v = Base128.unsigned v.length ++ v := by
  have size := encodeSize_list (lt_of_le_of_lt within small) []
  change encodeSize v.length [] ++ v = _
  rw [size, List.nil_append]

theorem emitted_vector {element : Ty} {v : List element.Val}
    (within : (Ty.vector element).Within limits v) :
    emitted (.vector element) v = Base128.unsigned v.length ++ v.flatMap (emitted element) := by
  have bound := lt_of_le_of_lt within.1 small
  exact sized_list bound fun item member => encode_list (within.2 item member)

theorem emitted_set {element : Ty} {s : Ascending (id : element.Val → element.Val)}
    (within : (Ty.set element).Within limits s) :
    emitted (.set element) s =
      Base128.unsigned s.toList.length ++ s.toList.flatMap (emitted element) := by
  have bound := lt_of_le_of_lt within.1 small
  exact sized_list bound fun item member => encode_list (within.2 item member)

theorem emitted_map {key value : Ty}
    {m : Ascending (entryKey : key.Val ×ₗ value.Val → key.Val)}
    (within : (Ty.map key value).Within limits m) :
    emitted (.map key value) m = Base128.unsigned m.toList.length ++
      m.toList.flatMap fun entry =>
        emitted key (ofLex entry).1 ++ emitted value (ofLex entry).2 := by
  have bound := lt_of_le_of_lt within.1 small
  refine sized_list bound fun entry member written => ?_
  obtain ⟨keyWithin, valueWithin⟩ := within.2 entry member
  rw [encode_list keyWithin, encode_list valueWithin, List.append_assoc]

omit small
include smallArray

theorem emitted_array {element : Ty} {count : Nat} {v : List.Vector element.Val count}
    (within : (Ty.array element count).Within limits v) :
    emitted (.array element count) v =
      Base128.unsigned count ++ v.toList.flatMap (emitted element) := by
  have bound := lt_of_le_of_lt within.1 smallArray
  exact sized_list bound fun item member => encode_list (within.2 item member)

end Containers

end XProject.Base
