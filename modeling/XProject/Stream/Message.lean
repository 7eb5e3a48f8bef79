import XProject.Std.Machine
import XProject.Std.Records
import XProject.Codec.Leb128Minimal
import XProject.Codec.Leb128Patch
import XProject.Stream.Limits
import XProject.Stream.Pack
import XProject.Stream.RoundTrip
import XProject.Stream.Writef

/-!
# Messages composed on a stream

The write calls of `stream/stream.h` and `codec/leb128.h` and the vectors of
`pack` lay the fields of a message one after another into a memory stream. The
client notes `offset()` before each and may write a field again from there, in
as many bytes. `operator>>` reads the fields from the bytes of the stream.
-/

namespace XProject.Base

open XProject.Std
open XProject.Std.Action

/-! ## The write calls -/

/-- `v128`. -/
structure V128 where
  v : List.Vector (BitVec 32) 4

/-- The bytes of a `v128` in memory. -/
def V128.bytes (value : V128) : List UInt8 := value.v.toList.flatMap (littleEndianBytes 4)

namespace Stream

variable {Impl Log : Type} [StreamImpl Impl] [LogStream Log]

/-- `WriteU8`, undefined where its assertion fails. -/
def writeU8 (value : BitVec 32) (desc : Desc) (printChars : PrintChars)
    (stream : Stream Impl Log) : Option (Stream Impl Log) :=
  if value.toNat ≤ 0xff then
    stream.writeData [UInt8.ofBitVec (value.setWidth 8)] desc printChars
  else none

/-- `static_cast<uint32_t>` of an enumerator, which has an integer of its underlying type. -/
def enumWord {width : IntWidth} (signed : Bool) (value : BitVec (8 * width.bytes)) : BitVec 32 :=
  BitVec.ofInt 32 (integerValue signed value)

/-- `WriteU8Enum`. -/
def writeU8Enum {width : IntWidth} (signed : Bool) (value : BitVec (8 * width.bytes))
    (desc : Desc) (printChars : PrintChars) (stream : Stream Impl Log) :
    Option (Stream Impl Log) :=
  stream.writeU8 (enumWord signed value) desc printChars

/-- `WriteChar`: a negative `char` becomes a value that `WriteU8` rejects. -/
def writeChar (c : UInt8) (desc : Desc) (printChars : PrintChars) (stream : Stream Impl Log) :
    Option (Stream Impl Log) :=
  stream.writeU8 (c.toBitVec.signExtend 32) desc printChars

/-- `WriteU32`. -/
def writeU32 (value : BitVec 32) (desc : Desc) (printChars : PrintChars)
    (stream : Stream Impl Log) : Option (Stream Impl Log) :=
  stream.writeData (littleEndianBytes 4 value) desc printChars

/-- `WriteU64`. -/
def writeU64 (value : BitVec 64) (desc : Desc) (printChars : PrintChars)
    (stream : Stream Impl Log) : Option (Stream Impl Log) :=
  stream.writeData (littleEndianBytes 8 value) desc printChars

/-- `WriteU128`. -/
def writeU128 (value : V128) (desc : Desc) (printChars : PrintChars)
    (stream : Stream Impl Log) : Option (Stream Impl Log) :=
  stream.writeData value.bytes desc printChars

/-- `WriteData` of a vector of bytes. -/
def writeVector (src : List UInt8) (desc : Desc) (printChars : PrintChars)
    (stream : Stream Impl Log) : Option (Stream Impl Log) :=
  if src = [] then some stream else stream.writeData src desc printChars

/-- The low byte of the value a `char` becomes is the character. -/
theorem signExtend_low (c : UInt8) : (c.toBitVec.signExtend 32).setWidth 8 = c.toBitVec := by
  apply BitVec.eq_of_getLsbD_eq
  intro i inside
  simp only [BitVec.getLsbD_setWidth, BitVec.getLsbD_signExtend, inside, if_true, decide_true,
    Bool.true_and, Bool.and_eq_right_iff_imp, decide_eq_true_eq]
  omega

/-- A `char` is accepted when it is not negative. -/
theorem signExtend_char (c : UInt8) :
    (c.toBitVec.signExtend 32).toNat ≤ 0xff ↔ c.toNat < 0x80 := by
  have bound := c.toNat_lt
  have value : (c.toBitVec.signExtend 32).toNat =
      if c.toNat < 0x80 then c.toNat else c.toNat + (2 ^ 32 - 2 ^ 8) := by
    rw [BitVec.toNat_signExtend, BitVec.msb_eq_decide, BitVec.toNat_setWidth, UInt8.toNat_toBitVec]
    by_cases small : c.toNat < 0x80
    · have low : ¬2 ^ (8 - 1) ≤ c.toNat := by omega
      simp only [low, small, decide_false, if_true, Bool.false_eq_true, if_false]
      omega
    · have high : 2 ^ (8 - 1) ≤ c.toNat := by omega
      simp only [high, small, decide_true, if_true, if_false]
      omega
  rw [value]
  split <;> omega

end Stream

namespace Message

/-- An allocation of the vector that `pack(value)` returns. -/
structure Allocation (type : Ty) (v : type.Val) where
  storage : Buffer
  size : storage.size = packSize type v
  memory : Memory

/-- The bytes in the vector that `pack(value)` returns. -/
def packed {type : Ty} {v : type.Val} (result : Allocation type v) : List UInt8 :=
  load (pack type v result.storage result.memory).memory result.storage.start
    result.storage.size.toNat

/-- A field of a message: the call that writes it, with its argument. -/
inductive Field where
  | u8 (value : BitVec 32)
  | u8Enum {width : IntWidth} (signed : Bool) (value : BitVec (8 * width.bytes))
  | char (c : UInt8)
  | u32 (value : BitVec 32)
  | u64 (value : BitVec 64)
  | u128 (value : V128)
  | u32Leb128 (value : BitVec 32)
  | fixedU32Leb128 (value : BitVec 32)
  | data {type : Ty} {v : type.Val} (result : Allocation type v)

/-- A value with its type. -/
abbrev Value := (type : Ty) × type.Val

namespace Field

/-- What keeps the call from a failed assertion, and a value from being refused
by its decoder: `pack` needs room for its vector besides. -/
def Ready : Field → Prop
  | .u8 value => value.toNat ≤ 0xff
  | .u8Enum signed value => (Stream.enumWord signed value).toNat ≤ 0xff
  | .char c => c.toNat < 0x80
  | @Field.data type v _ => type.withoutVarInt = true ∧ type.Within decoderLimits v ∧
      (emitted type v).length < 2 ^ 63
  | .u32 _ | .u64 _ | .u128 _ | .u32Leb128 _ | .fixedU32Leb128 _ => True

instance decideReady : (field : Field) → Decidable field.Ready
  | .u8 value => inferInstanceAs (Decidable (value.toNat ≤ 0xff))
  | .u8Enum signed value =>
      inferInstanceAs (Decidable ((Stream.enumWord signed value).toNat ≤ 0xff))
  | .char c => inferInstanceAs (Decidable (c.toNat < 0x80))
  | @Field.data type v _ => inferInstanceAs (Decidable (type.withoutVarInt = true ∧
      type.Within decoderLimits v ∧ (emitted type v).length < 2 ^ 63))
  | .u32 _ | .u64 _ | .u128 _ | .u32Leb128 _ | .fixedU32Leb128 _ => .isTrue trivial

/-- The object a field is in memory, or its spelling. -/
def spelling : Field → List UInt8
  | .u8 value => [UInt8.ofBitVec (value.setWidth 8)]
  | .u8Enum signed value => [UInt8.ofBitVec ((Stream.enumWord signed value).setWidth 8)]
  | .char c => [c]
  | .u32 value => littleEndianBytes 4 value
  | .u64 value => littleEndianBytes 8 value
  | .u128 value => value.bytes
  | .u32Leb128 value => Base128.unsigned value.toNat
  | .fixedU32Leb128 value =>
      Leb128.writeFixedU32Leb128Raw Leb128.maxU32Leb128Bytes value
  | .data result => packed result

/-- What `operator>>` finds in a field: a `v128` is read word by word. -/
def values : Field → List Value
  | .u8 value => [⟨.integer .one false, value.setWidth 8⟩]
  | .u8Enum signed value => [⟨.integer .one false, (Stream.enumWord signed value).setWidth 8⟩]
  | .char c => [⟨.integer .one true, c.toBitVec⟩]
  | .u32 value => [⟨.integer .four false, value⟩]
  | .u64 value => [⟨.integer .eight false, value⟩]
  | .u128 value => value.v.toList.map fun word => ⟨.integer .four false, word⟩
  | .u32Leb128 value | .fixedU32Leb128 value => [⟨.varUInt, value⟩]
  | @Field.data type v _ => [⟨type, v⟩]

section Calls

variable {Impl Log : Type} [StreamImpl Impl] [LogStream Log]

/-- Write a field at the end of a message. The calls for LEB128 pass no `PrintChars`. -/
def write (desc : Desc) (printChars : PrintChars) (stream : Stream Impl Log) :
    Field → Option (Stream Impl Log)
  | .u8 value => stream.writeU8 value desc printChars
  | .u8Enum signed value => stream.writeU8Enum signed value desc printChars
  | .char c => stream.writeChar c desc printChars
  | .u32 value => stream.writeU32 value desc printChars
  | .u64 value => stream.writeU64 value desc printChars
  | .u128 value => stream.writeU128 value desc printChars
  | .u32Leb128 value => Leb128.writeU32Leb128 value desc stream
  | .fixedU32Leb128 value => Leb128.writeFixedU32Leb128 value desc stream
  | .data result => stream.writeVector (packed result) desc printChars

/-- Write a field from an offset on, a field without such a call as its object. -/
def writeAt (at_ : Address) (desc : Desc) (printChars : PrintChars)
    (stream : Stream Impl Log) : Field → Option (Stream Impl Log)
  | .u32Leb128 value => (Leb128.writeU32Leb128At at_ value desc stream).map Prod.snd
  | .fixedU32Leb128 value => (Leb128.writeFixedU32Leb128At at_ value desc stream).map Prod.snd
  | field => stream.writeDataAt at_ field.spelling desc printChars

end Calls
end Field

/-! ## What a field leaves in the stream -/

/-- A decoded value is small enough for every `write` of `pack`. -/
theorem within_packLimits {type : Ty} {v : type.Val} (within : type.Within decoderLimits v) :
    type.Within packLimits v :=
  within.weaken (by decide) (by decide)

/-- The vector holds the bytes of the value. -/
theorem packed_eq {type : Ty} {v : type.Val} (within : type.Within decoderLimits v)
    (allocatable : (emitted type v).length < 2 ^ 63) (result : Allocation type v) :
    packed result = emitted type v :=
  (pack_filled (within_packLimits within) allocatable result.size result.memory).contents

section Contents

variable {Log : Type} [LogStream Log] {stream : Stream MemoryStream Log} {contents : List UInt8}

/-- A write inside the buffer replaces the bytes of its range. -/
theorem writeDataAt_inside (holds : MemoryStream.Holds stream contents) {at_ : Address}
    {src : List UInt8} (inside : at_.toNat + src.length ≤ contents.length) (desc : Desc)
    (printChars : PrintChars) :
    ∃ next, stream.writeDataAt at_ src desc printChars = some next ∧
      MemoryStream.Holds next
        (contents.take at_.toNat ++ src ++ contents.drop (at_.toNat + src.length)) := by
  have live : stream.result ≠ .error := by
    rw [holds.result]
    decide
  have impl : stream.impl = ⟨some contents⟩ := congrArg MemoryStream.mk holds.buf
  have written : StreamImpl.writeDataImpl at_ src stream.impl = some (Result.ok,
      ⟨some (contents.take at_.toNat ++ src ++ contents.drop (at_.toNat + src.length))⟩) := by
    rw [impl]
    by_cases empty : src.length = 0
    · have nothing := List.length_eq_zero_iff.mp empty
      subst nothing
      simp [StreamImpl.writeDataImpl, MemoryStream.writeDataImpl]
    · exact MemoryStream.writeDataImpl_inside empty inside
  simp only [Stream.writeDataAt, if_neg live, written]
  refine ⟨_, rfl, rfl, ?_, rfl⟩
  rw [holds.offset]
  simp only [List.length_append, List.length_take, List.length_drop]
  omega

/-- A field is appended. -/
theorem Field.write_appends {field : Field} (ready : field.Ready)
    (holds : MemoryStream.Holds stream contents)
    (fits : contents.length + field.spelling.length < 2 ^ 64) (desc : Desc)
    (printChars : PrintChars) :
    ∃ next, field.write desc printChars stream = some next ∧
      MemoryStream.Holds next (contents ++ field.spelling) := by
  have append := fun printChars => holds.writeData field.spelling desc printChars fits
  cases field with
  | u8 value =>
      have accepted : value.toNat ≤ 0xff := ready
      simp only [Field.write, Stream.writeU8, if_pos accepted]
      exact append printChars
  | u8Enum signed value =>
      have accepted : (Stream.enumWord signed value).toNat ≤ 0xff := ready
      simp only [Field.write, Stream.writeU8Enum, Stream.writeU8, if_pos accepted]
      exact append printChars
  | char c =>
      have accepted := (Stream.signExtend_char c).mpr ready
      simp only [Field.write, Stream.writeChar, Stream.writeU8, if_pos accepted,
        Stream.signExtend_low]
      exact append printChars
  | u32 value | u64 value | u128 value => exact append printChars
  | u32Leb128 value =>
      simp only [Field.write, Leb128.writeU32Leb128_eq]
      exact append .no
  | fixedU32Leb128 value => exact append .no
  | data result =>
      simp only [Field.write, Stream.writeVector]
      by_cases empty : packed result = []
      · have same : contents ++ Field.spelling (.data result) = contents := by
          rw [Field.spelling, empty, List.append_nil]
        rw [if_pos empty, same]
        exact ⟨stream, rfl, holds⟩
      · rw [if_neg empty]
        exact append printChars

/-- A field takes the place of as many bytes. -/
theorem Field.writeAt_replaces (field : Field) (holds : MemoryStream.Holds stream contents)
    {at_ : Address} (inside : at_.toNat + field.spelling.length ≤ contents.length) (desc : Desc)
    (printChars : PrintChars) :
    ∃ next, field.writeAt at_ desc printChars stream = some next ∧
      MemoryStream.Holds next (contents.take at_.toNat ++ field.spelling ++
        contents.drop (at_.toNat + field.spelling.length)) := by
  cases field with
  | u32Leb128 value =>
      obtain ⟨next, written, after⟩ := writeDataAt_inside holds inside desc .no
      refine ⟨next, ?_, after⟩
      simp only [Field.spelling] at written
      simp only [Field.writeAt, Leb128.writeU32Leb128At_eq, written, Option.map_some]
  | fixedU32Leb128 value =>
      obtain ⟨next, written, after⟩ := writeDataAt_inside holds inside desc .no
      refine ⟨next, ?_, after⟩
      simp only [Field.spelling] at written
      simp only [Field.writeAt, Leb128.writeFixedU32Leb128At, written, Option.map_some]
  | u8 value | u8Enum signed value | char c | u32 value | u64 value | u128 value | data result =>
      exact writeDataAt_inside holds inside desc printChars

end Contents
/-! ## Reading -/

section Reading

variable (environment : Environment)

/-- `ds >> v` for one value-initialized variable after another. -/
def readAll : List Ty → Decoder (List Value)
  | [] => pure []
  | type :: types => do
      let v ← decode environment type type.zero
      let rest ← readAll types
      pure (⟨type, v⟩ :: rest)

variable {environment} {end_ : Address}

/-- One variable takes its value, the others take what follows. -/
theorem takes_readAll_cons {type : Ty} {v : type.Val} {values : List Value}
    {bytes more : List UInt8}
    (head : Takes (Session.Ahead environment end_) (decode environment type type.zero) bytes v)
    (tail : Takes (Session.Ahead environment end_)
      (readAll environment (values.map Sigma.fst)) more values) :
    Takes (Session.Ahead environment end_)
      (readAll environment ((⟨type, v⟩ :: values : List Value).map Sigma.fst)) (bytes ++ more)
      (⟨type, v⟩ :: values) :=
  head.bind (tail.finish rfl)

theorem takes_readAll_one {type : Ty} {v : type.Val} {bytes : List UInt8}
    (taken : Takes (Session.Ahead environment end_) (decode environment type type.zero) bytes v) :
    Takes (Session.Ahead environment end_)
      (readAll environment ([⟨type, v⟩].map Sigma.fst : List Ty)) bytes [⟨type, v⟩] := by
  have whole := @takes_readAll_cons environment end_ type v [] bytes [] taken (.pure [])
  rwa [List.append_nil] at whole

/-- The variables of two lists are read one list after the other. -/
theorem takes_readAll_append {first second : List Value} {bytes more : List UInt8}
    (front : Takes (Session.Ahead environment end_)
      (readAll environment (first.map Sigma.fst)) bytes first)
    (back : Takes (Session.Ahead environment end_)
      (readAll environment (second.map Sigma.fst)) more second) :
    Takes (Session.Ahead environment end_)
      (readAll environment ((first ++ second).map Sigma.fst)) (bytes ++ more)
      (first ++ second) := by
  have split : ∀ left right : List Ty, readAll environment (left ++ right) = (do
      let one ← readAll environment left
      let two ← readAll environment right
      pure (one ++ two)) := by
    intro left right
    induction left with
    | nil => simp [readAll]
    | cons type types ih => simp [readAll, ih]
  rw [List.map_append, split]
  exact front.bind (back.finish rfl)

/-- An array of words is read word by word. -/
theorem takes_words (words : List (BitVec 32)) :
    let values : List Value := words.map fun word => ⟨.integer .four false, word⟩
    Takes (Session.Ahead environment end_) (readAll environment (values.map Sigma.fst))
      (words.flatMap (littleEndianBytes 4)) values := by
  induction words with
  | nil => exact .pure []
  | cons word rest ih => exact takes_readAll_cons (takes_decodeInteger .four word _) ih

/-- Reading a field's types takes its bytes and returns its values. -/
theorem Field.takes {field : Field} (ready : field.Ready) :
    Takes (Session.Ahead environment end_) (readAll environment (field.values.map Sigma.fst))
      field.spelling field.values := by
  have byte : ∀ (signed : Bool) (value : BitVec (8 * IntWidth.one.bytes)),
      Takes (Session.Ahead environment end_)
        (decode environment (.integer .one signed) (Ty.zero (.integer .one signed)))
        [UInt8.ofBitVec value] value := by
    intro signed value
    have taken := @takes_decodeInteger environment end_ .one value 0
    have single : littleEndianBytes IntWidth.one.bytes value = [UInt8.ofBitVec value] := by
      change [UInt8.ofBitVec ((value >>> 0).setWidth 8)] = _
      rw [BitVec.ushiftRight_zero]
      exact congrArg (fun bits => [UInt8.ofBitVec bits]) (BitVec.setWidth_eq value)
    rwa [single] at taken
  cases field with
  | u8 value => exact takes_readAll_one (byte false _)
  | u8Enum signed value => exact takes_readAll_one (byte false _)
  | char c => exact takes_readAll_one (byte true c.toBitVec)
  | u32 value => exact takes_readAll_one (takes_decodeInteger .four value _)
  | u64 value => exact takes_readAll_one (takes_decodeInteger .eight value _)
  | u128 value => exact takes_words value.v.toList
  | u32Leb128 value => exact takes_readAll_one (takes_varUInt value _)
  | fixedU32Leb128 value =>
      have taken := @takes_decodeVarUInt environment end_ _ (Leb128.fixed_terminated value)
        (Leb128.length_fixed value).le 0
      rw [Leb128.magnitude_fixed, BitVec.ofNat_toNat, BitVec.setWidth_eq] at taken
      exact takes_readAll_one taken
  | @data type v result =>
      obtain ⟨plain, within, allocatable⟩ := ready
      rw [Field.spelling, packed_eq within allocatable]
      exact takes_readAll_one (takes_decode plain within type.zero_fresh)

/-- Reading the types of all fields takes the bytes of a message. -/
theorem takes_fields {fields : List Field} (ready : ∀ field ∈ fields, field.Ready) :
    Takes (Session.Ahead environment end_)
      (readAll environment ((fields.flatMap Field.values).map Sigma.fst))
      (fields.flatMap Field.spelling) (fields.flatMap Field.values) := by
  induction fields with
  | nil => exact .pure []
  | cons field fields ih =>
      obtain ⟨here, later⟩ := List.forall_mem_cons.mp ready
      exact takes_readAll_append (Field.takes here) (ih later)

end Reading
/-! ## Whole messages -/

/-- A stream with the offsets its client noted, one before each field. -/
structure Writer (Log : Type) where
  stream : Stream MemoryStream Log
  marks : List Address

/-- What the client does: write a further field, or write the field at an index again. -/
inductive Act where
  | append (field : Field) (desc : Desc) (printChars : PrintChars)
  | patch (index : Nat) (field : Field) (desc : Desc) (printChars : PrintChars)

/-- The client on its stream. -/
@[reducible] def writing (Log : Type) [LogStream Log] : Machine Act Unit where
  State := Writer Log
  step
    | writer, .append field desc printChars =>
        (field.write desc printChars writer.stream).map fun next =>
          ((), ⟨next, writer.marks ++ [writer.stream.offset]⟩)
    | writer, .patch index field desc printChars =>
        match writer.marks[index]? with
        | none => none
        | some at_ => (field.writeAt at_ desc printChars writer.stream).map fun next =>
            ((), ⟨next, writer.marks⟩)

/-- The message as the list of its fields, as long as its bytes can be addressed
and a field is replaced by one of its width. -/
@[reducible] def outline : Machine Act Unit where
  State := List Field
  step
    | fields, .append field _ _ =>
        if field.Ready ∧ ((fields ++ [field]).flatMap Field.spelling).length < 2 ^ 64 then
          some ((), fields ++ [field])
        else none
    | fields, .patch index field _ _ =>
        match fields[index]? with
        | none => none
        | some old =>
            if field.Ready ∧ field.spelling.length = old.spelling.length then
              some ((), fields.set index field)
            else none

theorem outline_append {fields : List Field} (field : Field) (ready : field.Ready)
    (fits : ((fields ++ [field]).flatMap Field.spelling).length < 2 ^ 64) (desc : Desc)
    (printChars : PrintChars) :
    outline.step fields (.append field desc printChars) = some ((), fields ++ [field]) :=
  if_pos ⟨ready, fits⟩

theorem outline_patch {fields : List Field} {index : Nat} {old : Field}
    (found : fields[index]? = some old) (field : Field) (ready : field.Ready)
    (same : field.spelling.length = old.spelling.length) (desc : Desc) (printChars : PrintChars) :
    outline.step fields (.patch index field desc printChars) =
      some ((), fields.set index field) := by
  simp only [found]
  exact if_pos ⟨ready, same⟩

/-- A writer whose stream holds the fields, with the offset of each. -/
structure Follows {Log : Type} (writer : Writer Log) (fields : List Field) : Prop where
  holds : MemoryStream.Holds writer.stream (fields.flatMap Field.spelling)
  count : writer.marks.length = fields.length
  marks : ∀ index at_, writer.marks[index]? = some at_ →
    at_.toNat = ((fields.take index).flatMap Field.spelling).length
  ready : ∀ field ∈ fields, field.Ready

section Runs

variable {Log : Type} {writer : Writer Log} {fields : List Field}

/-- The offsets noted and the one at the end are those of the fields. -/
theorem Follows.noted (follows : Follows writer fields) {index : Nat} {at_ : Address}
    (noted : (writer.marks ++ [writer.stream.offset])[index]? = some at_) :
    at_.toNat = ((fields.take index).flatMap Field.spelling).length := by
  rcases Nat.lt_or_ge index writer.marks.length with before | behind
  · rw [List.getElem?_append_left before] at noted
    exact follows.marks index at_ noted
  · rw [List.getElem?_append_right behind] at noted
    obtain ⟨_, here⟩ := List.getElem?_eq_some_iff.mp noted
    simp only [List.getElem_singleton] at here
    rw [follows.count] at behind
    rw [← here, follows.holds.offset, List.take_of_length_le behind]

/-- From the offset of a field on the stream holds that field and the ones behind it. -/
theorem Follows.drop (follows : Follows writer fields) {index : Nat} {at_ : Address}
    (noted : (writer.marks ++ [writer.stream.offset])[index]? = some at_) :
    (fields.flatMap Field.spelling).drop at_.toNat =
        (fields.drop index).flatMap Field.spelling ∧
      UInt64.ofNat ((fields.drop index).flatMap Field.spelling).length =
        writer.stream.offset - at_ := by
  have split : fields.flatMap Field.spelling =
      (fields.take index).flatMap Field.spelling ++ (fields.drop index).flatMap Field.spelling := by
    rw [← List.flatMap_append, List.take_append_drop]
  have start := follows.noted noted
  have finish := follows.holds.offset
  have length := congrArg List.length split
  rw [List.length_append] at length
  refine ⟨by rw [split, List.drop_left' start.symm], ?_⟩
  apply UInt64.toNat_inj.mp
  have bound := writer.stream.offset.toNat_lt
  have before : at_ ≤ writer.stream.offset := UInt64.le_iff_toNat_le.mpr (by omega)
  rw [UInt64.toNat_ofNat', UInt64.toNat_sub_of_le _ _ before]
  omega

variable [LogStream Log]

/-- A further field is noted where the message ended. -/
theorem Follows.append (follows : Follows writer fields) {field : Field} (ready : field.Ready)
    (fits : ((fields ++ [field]).flatMap Field.spelling).length < 2 ^ 64) (desc : Desc)
    (printChars : PrintChars) :
    ∃ next, (writing Log).step writer (.append field desc printChars) = some ((), next) ∧
      Follows next (fields ++ [field]) := by
  have cells : (fields ++ [field]).flatMap Field.spelling =
      fields.flatMap Field.spelling ++ field.spelling := by simp
  rw [cells, List.length_append] at fits
  obtain ⟨next, written, holds⟩ :=
    Field.write_appends ready follows.holds fits desc printChars
  refine ⟨⟨next, writer.marks ++ [writer.stream.offset]⟩, by simp [written], ?_, ?_, ?_, ?_⟩
  · rw [cells]
    exact holds
  · simp [follows.count]
  · intro index at_ noted
    rcases Nat.lt_or_ge index writer.marks.length with before | behind
    · rw [List.getElem?_append_left before] at noted
      rw [List.take_append_of_le_length (by rw [← follows.count]; exact before.le)]
      exact follows.marks index at_ noted
    · rw [List.getElem?_append_right behind] at noted
      obtain ⟨last, here⟩ := List.getElem?_eq_some_iff.mp noted
      have exact_ : index = fields.length := by
        rw [← follows.count]
        simp only [List.length_singleton] at last
        omega
      simp only [List.getElem_singleton] at here
      rw [← here, exact_, List.take_left' rfl]
      exact follows.holds.offset
  · intro other member
    rcases List.mem_append.mp member with before | last
    · exact follows.ready other before
    · rw [List.mem_singleton.mp last]
      exact ready

/-- A field written again leaves every other field and every offset where it is. -/
theorem Follows.patch (follows : Follows writer fields) {index : Nat} {old field : Field}
    (found : fields[index]? = some old) (ready : field.Ready)
    (same : field.spelling.length = old.spelling.length) (desc : Desc) (printChars : PrintChars) :
    ∃ next, (writing Log).step writer (.patch index field desc printChars) = some ((), next) ∧
      Follows next (fields.set index field) := by
  obtain ⟨here, _⟩ := List.getElem?_eq_some_iff.mp found
  obtain ⟨at_, noted⟩ : ∃ at_, writer.marks[index]? = some at_ :=
    ⟨_, List.getElem?_eq_getElem (by rw [follows.count]; exact here)⟩
  obtain ⟨inside, replaced⟩ := @Records.flatMap_set _ _ Field.spelling _ _ _ found field same
  rw [← follows.marks index at_ noted] at inside replaced
  obtain ⟨next, written, holds⟩ := field.writeAt_replaces follows.holds inside desc printChars
  rw [replaced] at holds
  refine ⟨⟨next, writer.marks⟩, by simp [noted, written], holds, ?_, ?_, ?_⟩
  · rw [List.length_set]
    exact follows.count
  · intro other mark othersMark
    rw [Records.length_flatMap_set found same]
    exact follows.marks other mark othersMark
  · intro other member
    rcases List.mem_or_eq_of_mem_set member with before | rfl
    · exact follows.ready other before
    · exact ready

/-- The stream takes every step that keeps the widths of the fields. -/
theorem Follows.step (follows : Follows writer fields) {act : Act} {output : Unit}
    {after : List Field} (taken : outline.step fields act = some (output, after)) :
    ∃ next, (writing Log).step writer act = some (output, next) ∧ Follows next after := by
  cases act with
  | append field desc printChars =>
      simp only at taken
      split at taken
      · rename_i allowed
        cases taken
        exact follows.append allowed.1 allowed.2 desc printChars
      · cases taken
  | patch index field desc printChars =>
      simp only at taken
      split at taken
      · cases taken
      · rename_i old found
        split at taken
        · rename_i allowed
          cases taken
          exact follows.patch found allowed.1 allowed.2 desc printChars
        · cases taken

end Runs

/-- Whatever a client writes and writes again, in any order, each field in as many
bytes as before: the stream takes it without an error, and `operator>>` reads the
values that the fields have at last from its bytes, whatever follows them, with
`SUCCESS` and up to their end; reading may begin at any offset the client noted. -/
theorem message_read_back {Log : Type} [LogStream Log] (logStream : Option Log)
    {acts : List Act} {outputs : List Unit} {fields : List Field}
    (composed : outline.run [] acts = some (outputs, fields)) :
    ∃ writer bytes, (writing Log).run ⟨MemoryStream.new logStream, []⟩ acts = some (outputs, writer) ∧
      MemoryStream.Holds writer.stream bytes ∧ writer.marks.length = fields.length ∧
      ∀ index at_, (writer.marks ++ [writer.stream.offset])[index]? = some at_ →
        ∀ (environment : Environment) (buffer : Buffer) (rest : List UInt8),
          load environment.memory buffer.start buffer.size.toNat =
            bytes.drop at_.toNat ++ rest →
          let values := (fields.drop index).flatMap Field.values
          let read := (readAll environment (values.map Sigma.fst)).run (Session.new buffer)
          read.1 = values ∧ read.2.stream.errno = .success ∧
            read.2.stream.pos = buffer.start + (writer.stream.offset - at_) := by
  have initial : Follows (⟨MemoryStream.new logStream, []⟩ : Writer Log) [] :=
    ⟨MemoryStream.new_holds logStream, rfl, by simp, by simp⟩
  obtain ⟨writer, ran, follows⟩ := @Machine.run_covered _ _ (writing Log) outline Follows
    (fun _ _ _ _ _ follows taken => follows.step taken) _ _ _ initial _ _ composed
  refine ⟨writer, _, ran, follows.holds, follows.count, ?_⟩
  intro index at_ noted environment buffer rest holds values read
  obtain ⟨remaining, width⟩ := follows.drop noted
  rw [remaining] at holds
  have ahead := Session.new_ahead environment buffer
  rw [holds] at ahead
  have ready : ∀ field ∈ fields.drop index, field.Ready :=
    fun field member => follows.ready field (List.mem_of_mem_drop member)
  obtain ⟨value, after⟩ := takes_fields ready rest _ ahead
  refine ⟨value, after.errno, ?_⟩
  rw [ahead.moved after, width]
  rfl

/-- A byte, room for a length, a packed string and a vector of words; then the length. -/
theorem message_read_back_length :
    let text : Ty.string.Val := [0x61, 0x62]
    let result : Allocation .string text := ⟨⟨16, packSize .string text, by decide +kernel⟩, rfl,
      fun _ => 0⟩
    let words : V128 := ⟨⟨[1, 2, 3, 0xffffffff], rfl⟩⟩
    let acts : List Act := [.append (.u8 7) none .no, .append (.fixedU32Leb128 0) none .no,
      .append (.data result) none .yes, .append (.u128 words) none .no,
      .patch 1 (.fixedU32Leb128 300) none .no]
    let fields : List Field := [.u8 7, .fixedU32Leb128 300, .data result, .u128 words]
    ∃ writer bytes, (writing Empty).run ⟨MemoryStream.new none, []⟩ acts =
        some ([(), (), (), (), ()], writer) ∧
      MemoryStream.Holds writer.stream bytes ∧ writer.marks.length = 4 ∧
      ∀ index at_, (writer.marks ++ [writer.stream.offset])[index]? = some at_ →
        ∀ (environment : Environment) (buffer : Buffer) (rest : List UInt8),
          load environment.memory buffer.start buffer.size.toNat =
            bytes.drop at_.toNat ++ rest →
          let values := (fields.drop index).flatMap Field.values
          let read := (readAll environment (values.map Sigma.fst)).run (Session.new buffer)
          read.1 = values ∧ read.2.stream.errno = .success ∧
            read.2.stream.pos = buffer.start + (writer.stream.offset - at_) := by
  intro text result words acts fields
  have ready : Field.Ready (.data result) := by decide +kernel
  have width : (Field.fixedU32Leb128 300).spelling.length =
      (Field.fixedU32Leb128 0).spelling.length := by decide +kernel
  have patched : outline.step [.u8 7, .fixedU32Leb128 0, .data result, .u128 words]
      (.patch 1 (.fixedU32Leb128 300) none .no) = some ((), fields) :=
    outline_patch rfl (.fixedU32Leb128 300) trivial width none .no
  have composed : outline.run [] acts = some ([(), (), (), (), ()], fields) := by
    refine Machine.run_cons_eq_some.mpr ⟨(), [.u8 7], _,
      outline_append (.u8 7) (by decide) (by decide +kernel) none .no, ?_, rfl⟩
    refine Machine.run_cons_eq_some.mpr ⟨(), [.u8 7, .fixedU32Leb128 0], _,
      outline_append (.fixedU32Leb128 0) trivial (by decide +kernel) none .no, ?_, rfl⟩
    refine Machine.run_cons_eq_some.mpr ⟨(), [.u8 7, .fixedU32Leb128 0, .data result], _,
      outline_append (.data result) ready (by decide +kernel) none .yes, ?_, rfl⟩
    refine Machine.run_cons_eq_some.mpr
      ⟨(), [.u8 7, .fixedU32Leb128 0, .data result, .u128 words], _,
        outline_append (.u128 words) trivial (by decide +kernel) none .no, ?_, rfl⟩
    exact Machine.run_cons_eq_some.mpr ⟨(), fields, [], patched, rfl, rfl⟩
  exact @message_read_back Empty _ none acts _ fields composed

end Message
end XProject.Base
