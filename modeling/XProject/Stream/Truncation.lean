import XProject.Stream.Decoded
import XProject.Stream.Hostile

/-!
# Input cut short

A decoder that runs out of bytes goes on with what it has, an old size or the
destination's contents, but nothing it does later takes the error back. So it is
enough that the action reached by the end of the input sets one: the read of an
integer or a string, or the loop of a size.
-/

namespace XProject.Base

open XProject.Std
open XProject.Std.Action
open Session

namespace Session

/-- An error is set, and the position is still inside the buffer. -/
structure Spoiled (session : Session) : Prop where
  errno : session.stream.errno ≠ .success
  inside : session.stream.pos.toNat ≤ session.stream.end_.toNat

/-- What advances does not take an error back. -/
theorem Advances.spoils {before after : Session} (advances : Advances before after) :
    Spoils Spoiled before after := by
  rintro ⟨errno, inside⟩
  have progress := advances inside
  exact ⟨progress.errno errno, progress.inside⟩

theorem spoils_of_advances {α : Type} {action : Decoder α} (advances : Within Advances action) :
    Within (Spoils Spoiled) action :=
  advances.mono fun _ _ => Advances.spoils

variable {environment : Environment} {end_ : Address}

/-- An action that advances detects what it reports. -/
theorem detects_of_errno {α : Type} {action : Decoder α} {bytes : List UInt8}
    (advances : Within Advances action)
    (errno : ∀ cut, cut <+: bytes → cut ≠ bytes → ∀ session, Ahead environment end_ cut session →
      (action.run session).2.stream.errno ≠ .success) :
    Detects (Ahead environment end_) Spoiled action bytes := by
  intro cut part proper session ahead
  exact ⟨errno cut part proper session ahead, (advances session ahead.inside).inside⟩

/-- `read` detects that fewer bytes are left than it is asked for. -/
theorem detects_read {bytes : List UInt8} {size : Address} (length : bytes.length = size.toNat) :
    Detects (Ahead environment end_) Spoiled (read environment size) bytes := by
  refine detects_of_errno (advances_read environment size) ?_
  intro cut part proper session ahead
  have fewer : cut.length < bytes.length := by
    refine lt_of_le_of_ne part.length_le fun same => proper ?_
    exact part.eq_of_length same
  have available := ahead.available
  have short : ¬session.stream.end_ - session.stream.pos ≥ size := by
    rw [DataStream.read_check_iff size ahead.inside]
    omega
  change (read environment size session).2.stream.errno ≠ .success
  rw [read, DataStream.read, if_neg short]
  exact ErrorCode.noConfusion

end Session

variable {environment : Environment} {end_ : Address}

/-- A spelling cut short has only bytes that continue, so the loop asks for more. -/
theorem detects_decodeVarUInt {bytes : List UInt8} (terminated : Base128.Terminated bytes)
    (short : bytes.length ≤ 5) (var : BitVec 32) :
    Detects (Ahead environment end_) Spoiled (decodeVarUInt environment var) bytes := by
  refine detects_of_errno (advances_decodeVarUInt environment var) ?_
  intro cut part proper session ahead
  have continuing := terminated.continuing_of_proper part proper
  have length := part.length_le
  obtain ⟨errno, _⟩ := decodeVarUInt_exhausted continuing (by omega) ahead var
  rw [errno]
  exact ErrorCode.noConfusion

theorem detects_varUInt (value var : BitVec 32) :
    Detects (Ahead environment end_) Spoiled (decodeVarUInt environment var)
      (Base128.unsigned value.toNat) := by
  have bound := value.isLt
  have short := Base128.length_unsigned_le value.toNat 4 (by omega)
  exact detects_decodeVarUInt (Base128.unsigned_terminated value.toNat) short var

/-- Cut inside the size, the loop of the size detects it; behind it, the elements do. -/
theorem detects_withCount {α : Type} {accepts : Nat → Bool} {dest : α} {body : Nat → Decoder α}
    {size : Nat} (small : size < 2 ^ 32) (accepted : accepts size = true)
    (limited : ∀ count, accepts count = true → count ≤ kMaxElementNum)
    (each : ∀ count, Within Advances (body count)) {bytes : List UInt8}
    (detects : Detects (Ahead environment end_) Spoiled (body size) bytes) :
    Detects (Ahead environment end_) Spoiled (withCount environment accepts dest body)
      (Base128.unsigned size ++ bytes) := by
  have exact_ : (BitVec.ofNat 32 size).toNat = size := by
    rw [BitVec.toNat_ofNat, Nat.mod_eq_of_lt small]
  have taken : Takes (Ahead environment end_) _ _ _ := takes_varUInt (BitVec.ofNat 32 size) 0
  have count : Detects (Ahead environment end_) _ _ _ := detects_varUInt (BitVec.ofNat 32 size) 0
  rw [exact_] at taken count
  refine .bind taken count ?_ fun number => spoils_of_advances (.ite (fun accepted => ?_) fun _ => ?_)
  · rw [exact_, if_pos accepted]
    exact .bind (takes_record size) (.nil _) detects fun _ => spoils_of_advances (each _)
  · exact .bind (advances_record (limited _ accepted)) fun _ => each _
  · exact .bind (advances_refuse _) fun _ => .pure dest

theorem detects_decodeInteger (width : IntWidth) (value v : BitVec (8 * width.bytes)) :
    Detects (Ahead environment end_) Spoiled (decodeInteger environment width v)
      (littleEndianBytes width.bytes value) := by
  have length : (littleEndianBytes width.bytes value).length =
      (UInt64.ofNat width.bytes).toNat := by
    rw [littleEndianBytes, List.length_map, List.length_range]
    cases width <;> rfl
  refine (detects_read length).finish fun bytes => ?_
  cases bytes with
  | none => exact .pure v
  | some bytes => exact .pure _

/-- A string cut short ends in its size, or in the one read of its bytes. -/
theorem detects_decodeBytes {v : List UInt8} (within : v.length ≤ kMaxElementNum)
    (dest : List UInt8) :
    Detects (Ahead environment end_) Spoiled (decodeBytes environment dest)
      (Base128.unsigned v.length ++ v) := by
  have small : v.length < 2 ^ 32 := lt_of_le_of_lt within (by decide)
  refine detects_withCount small (decide_eq_true within) withinCapacity_small
    (fun size => .ite (fun _ => advances_readBytes environment _) fun _ => .pure dest) ?_
  by_cases empty : v = []
  · rw [empty]
    exact .nil _
  · have positive : v.length > 0 := List.length_pos_iff.mpr empty
    have length : v.length = (UInt64.ofNat (resized 0 v.length dest).length).toNat := by
      rw [length_resized, UInt64.toNat_ofNat']
      omega
    rw [if_pos positive]
    refine (detects_read length).finish fun bytes => ?_
    cases bytes with
    | none => exact .pure _
    | some bytes => exact .pure bytes

/-- One pass of the loop of a set. -/
theorem detects_setElement {element : Ty} {item : element.Val}
    (detects : ∀ into, Detects (Ahead environment end_) Spoiled (decode environment element into)
      (emitted element item))
    (s : Ascending (id : element.Val → element.Val)) :
    Detects (Ahead environment end_) Spoiled (do
        let v ← declare environment element
        let v ← decode environment element v
        pure (s.emplace v))
      (emitted element item) := by
  refine .after (declare_still element) (declare_fresh element) fun into _ => ?_
  exact (detects into).finish fun _ => .pure _

/-- One pass of the loop of a map, cut in the key or in the value. -/
theorem detects_mapEntry {key value : Ty} {entry : key.Val ×ₗ value.Val}
    (takenKey : ∀ into, Takes (Ahead environment end_) (decode environment key into)
      (emitted key (ofLex entry).1) (key.decoded into (ofLex entry).1))
    (detectsKey : ∀ into, Detects (Ahead environment end_) Spoiled
      (decode environment key into) (emitted key (ofLex entry).1))
    (detectsValue : ∀ into, Detects (Ahead environment end_) Spoiled
      (decode environment value into) (emitted value (ofLex entry).2))
    (m : Ascending (entryKey : key.Val ×ₗ value.Val → key.Val)) :
    Detects (Ahead environment end_) Spoiled (do
        let k ← declare environment key
        let v ← declare environment value
        let k ← decode environment key k
        let v ← decode environment value v
        pure (m.emplace (toLex (k, v))))
      (emitted key (ofLex entry).1 ++ emitted value (ofLex entry).2) := by
  refine .after (declare_still key) (declare_fresh key) fun intoKey _ => ?_
  refine .after (declare_still value) (declare_fresh value) fun intoValue _ => ?_
  refine .bind (takenKey intoKey) (detectsKey intoKey)
    ((detectsValue intoValue).finish fun _ => .pure _) fun _ => spoils_of_advances ?_
  exact .bind (advances_decode environment value intoValue) fun _ => .pure _

/-- Every decoder detects that the bytes of a value are cut short, whatever its
destination holds. -/
theorem detects_decode {type : Ty} (plain : type.withoutVarInt = true) {v : type.Val}
    (within : type.Within decoderLimits v) (dest : type.Val) :
    Detects (Ahead environment end_) Spoiled (decode environment type dest) (emitted type v) := by
  have small : decoderLimits.container < 2 ^ 32 := by decide
  have smallArray : decoderLimits.array < 2 ^ 32 := by decide
  induction type with
  | bool => exact (detects_decodeInteger .one _ 0).finish fun _ => .pure _
  | integer width signed => exact detects_decodeInteger width v dest
  | varUInt =>
      have written : emitted .varUInt v = Base128.unsigned (BitVec.toNat v) :=
        encodeVarUInt_list v []
      rw [written]
      exact detects_varUInt v dest
  | varInt => exact Bool.noConfusion plain
  | string =>
      rw [emitted_string small within]
      exact detects_decodeBytes within dest
  | charVector =>
      rw [emitted_charVector small within]
      exact detects_decodeBytes within dest
  | vector element ih =>
      rw [emitted_vector small within]
      refine detects_withCount (lt_of_le_of_lt within.1 small) (decide_eq_true within.1)
        withinCapacity_small (fun size => .mapM (advances_decode environment element) _) ?_
      exact .mapM (fun item member into _ =>
          @takes_decoded environment end_ element plain item (within.2 item member) into)
        (fun item member into _ => ih plain (within.2 item member) into)
        (fun into => spoils_of_advances (advances_decode environment element into))
        (length_resized ..)
  | set element ih =>
      have advances := advances_setElement environment (advances_decode environment element)
      rw [emitted_set small within]
      refine detects_withCount (lt_of_le_of_lt within.1 small) (decide_eq_true within.1)
        withinCapacity_small (fun size => .iterate advances _ _) ?_
      have taken : ∀ item ∈ v.toList, ∀ s, Takes (Ahead environment end_) _ _ _ :=
        fun item member => takes_setElement fun into =>
          @takes_decoded environment end_ element plain item (within.2 item member) into
      exact .iterate taken
        (fun item member => detects_setElement fun into => ih plain (within.2 item member) into)
        (fun s => spoils_of_advances (advances s)) _
  | map key value keyIh valueIh =>
      obtain ⟨plainKey, plainValue⟩ := Bool.and_eq_true_iff.mp plain
      have advances := advances_mapEntry environment (advances_decode environment key)
        (advances_decode environment value)
      rw [emitted_map small within]
      refine detects_withCount (lt_of_le_of_lt within.1 small) (decide_eq_true within.1)
        withinCapacity_small (fun size => .iterate advances _ _) ?_
      have taken : ∀ entry ∈ v.toList, ∀ m, Takes (Ahead environment end_) _ _ _ :=
        fun entry member => takes_mapEntry
          (fun into => takes_decoded plainKey (within.2 entry member).1 into)
          fun into => takes_decoded plainValue (within.2 entry member).2 into
      exact .iterate taken
        (fun entry member => detects_mapEntry
          (fun into => takes_decoded plainKey (within.2 entry member).1 into)
          (fun into => keyIh plainKey (within.2 entry member).1 into)
          fun into => valueIh plainValue (within.2 entry member).2 into)
        (fun m => spoils_of_advances (advances m)) _
  | array element size ih =>
      rw [emitted_array smallArray within]
      refine detects_withCount (lt_of_le_of_lt within.1 smallArray) (sizeMatches_self within.1)
        (sizeMatches_small size) (fun _ => .mmap (advances_decode environment element) dest) ?_
      exact .mmap (fun item member into _ =>
          @takes_decoded environment end_ element plain item (within.2 item member) into)
        (fun item member into _ => ih plain (within.2 item member) into)
        fun into => spoils_of_advances (advances_decode environment element into)

/-- Decoding a proper part of the bytes of a value, none at all included, ends with
an error, whatever the destination held. -/
theorem truncation_detected {type : Ty} (plain : type.withoutVarInt = true) {v : type.Val}
    (within : type.Within decoderLimits v) {cut : List UInt8} (part : cut <+: emitted type v)
    (proper : cut ≠ emitted type v) (dest : type.Val) {environment : Environment} {buffer : Buffer}
    (holds : load environment.memory buffer.start buffer.size.toNat = cut) :
    ((decode environment type dest).run (Session.new buffer)).2.stream.errno ≠ .success := by
  have ahead := new_ahead environment buffer
  rw [holds] at ahead
  have detected := detects_decode plain within dest cut part proper _ ahead
  exact detected.errno

/-- A map with one entry, cut behind the size of the entry's vector. -/
theorem truncation_detected_map :
    let type : Ty := .map .string (.vector .varUInt)
    let v : type.Val := ⟨[toLex ([97], [300#32, 5#32])], by decide +kernel⟩
    let cut := (emitted type v).take 4
    let buffer : Buffer := ⟨4096, 4, by decide⟩
    ((decode (holding 4096 cut) type type.zero).run
      (Session.new buffer)).2.stream.errno ≠ .success := by
  intro type v cut buffer
  have within : type.Within decoderLimits v :=
    @of_decide_eq_true _ (type.decideWithin decoderLimits v) rfl
  exact @truncation_detected type rfl v within cut (List.take_prefix ..) (by decide +kernel)
    type.zero (holding 4096 cut) buffer (by decide +kernel)

end XProject.Base
