import XProject.Codec.Leb128Readers

/-!
# Writing a sequence of LEB128 items and reading it back

Each writer emits a terminated spelling of its value: the shortest one, or the
padded one of `WriteFixedU32Leb128`. A reader stops at the end of the first
spelling, whatever follows, so a sequence written to a memory stream is read
back item by item.
-/

namespace XProject.Base.Leb128

open XProject.Std
open XProject.Std.Base128

/-! ## What the writers emit -/

/-- `WriteU32Leb128` emits the shortest spelling, within its five bytes. -/
theorem leb128LoopUntil_unsigned (room : Nat) (value : BitVec 32)
    (fits : (unsigned value.toNat).length ≤ room) :
    leb128LoopUntil (fun value => value >>> 7) (fun value _ => value == 0) room value =
      some (unsigned value.toNat) := by
  induction room generalizing value with
  | zero =>
      have positive := List.length_pos_iff.mpr (unsigned_terminated value.toNat).nonempty
      omega
  | succ room ih =>
      have shifted : (value >>> 7).toNat = value.toNat / 128 := by
        rw [BitVec.toNat_ushiftRight, Nat.shiftRight_eq_div_pow]
      have low : value.toNat % 128 < 128 := Nat.mod_lt _ (by decide)
      rw [unsigned] at fits ⊢
      rw [leb128LoopUntil, lowByte_eq (by decide)]
      by_cases small : value.toNat < 128
      · have stop : value >>> 7 = 0 := by
          apply BitVec.eq_of_toNat_eq
          rw [shifted]
          exact Nat.div_eq_of_lt small
        simp [stop, small, Nat.mod_eq_of_lt]
      · have goOn : value >>> 7 ≠ 0 := by
          intro stop
          have zero : 0 = value.toNat / 128 := by
            rw [← shifted, stop]
            rfl
          omega
        rw [if_neg small] at fits ⊢
        have tail := ih (value >>> 7) (by rw [shifted]; simpa using fits)
        simp only [beq_iff_eq, goOn, if_false, tail, ofNat_or_more _ low, shifted]

theorem u32Leb128_eq (value : BitVec 32) : u32Leb128 value = some (unsigned value.toNat) := by
  have bound := value.isLt
  exact leb128LoopUntil_unsigned 5 value (length_unsigned_le value.toNat 4 (by omega))

section Signed

variable {width : Nat}

/-- A signed loop whose stop condition is the right one for every value of its
sign emits the shortest spelling. -/
theorem leb128LoopUntil_signed (wide : 7 ≤ width) {endCond : BitVec width → UInt8 → Bool}
    {Sign : Int → Prop} (keeps : ∀ value, Sign value → Sign (value / 128))
    (stops : ∀ value : BitVec width, Sign value.toInt →
      (endCond (value.sshiftRight 7) (UInt8.ofNat (value.toNat % 128)) = true ↔
        (value.toInt / 128 = 0 ∧ value.toInt % 128 < 64) ∨
          (value.toInt / 128 = -1 ∧ 64 ≤ value.toInt % 128)))
    (room : Nat) (value : BitVec width) (sign : Sign value.toInt)
    (fits : (signed value.toInt).length ≤ room) :
    leb128LoopUntil (fun value => value.sshiftRight 7) endCond room value =
      some (signed value.toInt) := by
  induction room generalizing value with
  | zero =>
      have positive := List.length_pos_iff.mpr (signed_terminated value.toInt).nonempty
      omega
  | succ room ih =>
      have shifted := toInt_shifted value
      have low := toNat_mod_eq wide value
      have stop := stops value sign
      rw [low] at stop
      rw [signed] at fits ⊢
      rw [leb128LoopUntil, lowByte_eq wide, low]
      by_cases last : (value.toInt / 128 = 0 ∧ value.toInt % 128 < 64) ∨
          (value.toInt / 128 = -1 ∧ 64 ≤ value.toInt % 128)
      · simp only [stop.mpr last, if_pos last, if_true]
      · rw [if_neg last] at fits ⊢
        have goOn := eq_false_of_ne_true fun stopped => last (stop.mp stopped)
        have tail := ih (value.sshiftRight 7) (by rw [shifted]; exact keeps _ sign)
          (by rw [shifted]; simpa using fits)
        simp only [goOn, Bool.false_eq_true, if_false, tail, shifted]
        rw [ofNat_or_more _ (by omega)]

/-- The stop condition of the negative loop. -/
theorem negative_stops (wide : 7 ≤ width) (value : BitVec width) (negative : value.toInt < 0) :
    (value.sshiftRight 7 == -1 && UInt8.ofNat (value.toNat % 128) &&& 0x40 != 0) = true ↔
      (value.toInt / 128 = 0 ∧ value.toInt % 128 < 64) ∨
        (value.toInt / 128 = -1 ∧ 64 ≤ value.toInt % 128) := by
  have end_ := shifted_eq_iff value (-1)
  rw [toInt_neg_one wide] at end_
  rw [ofNat_and_sign _ (Nat.mod_lt _ (by decide)), toNat_mod_eq wide]
  simp only [Bool.and_eq_true, beq_iff_eq, decide_eq_true_eq, end_]
  omega

/-- The stop condition of the other loop. -/
theorem nonnegative_stops (wide : 7 ≤ width) (value : BitVec width)
    (nonnegative : 0 ≤ value.toInt) :
    (value.sshiftRight 7 == 0 && UInt8.ofNat (value.toNat % 128) &&& 0x40 == 0) = true ↔
      (value.toInt / 128 = 0 ∧ value.toInt % 128 < 64) ∨
        (value.toInt / 128 = -1 ∧ 64 ≤ value.toInt % 128) := by
  have end_ := shifted_eq_iff value 0
  rw [show (0 : BitVec width).toInt = 0 from BitVec.toInt_zero] at end_
  rw [ofNat_and_sign_clear _ (Nat.mod_lt _ (by decide)), toNat_mod_eq wide]
  simp only [Bool.and_eq_true, beq_iff_eq, Bool.not_eq_true', decide_eq_false_iff_not, end_]
  omega

/-- The signed writers emit the shortest spelling where the array has room for it. -/
theorem signedLeb128_eq (wide : 7 ≤ width) (capacity : Nat) (value : BitVec width)
    (fits : (signed value.toInt).length ≤ capacity) :
    signedLeb128 capacity value = some (signed value.toInt) := by
  rw [signedLeb128]
  by_cases negative : value.toInt < 0
  · rw [if_pos negative]
    have keeps : ∀ integer : Int, integer < 0 → integer / 128 < 0 := by omega
    exact leb128LoopUntil_signed wide keeps (negative_stops wide) capacity value negative fits
  · rw [if_neg negative]
    have keeps : ∀ integer : Int, 0 ≤ integer → 0 ≤ integer / 128 := by omega
    exact leb128LoopUntil_signed wide keeps (nonnegative_stops wide) capacity value
      (by omega) fits

end Signed

theorem s32Leb128_eq (value : BitVec 32) :
    signedLeb128 maxU32Leb128Bytes value = some (signed value.toInt) :=
  signedLeb128_eq (by decide) _ value (length_signed_le (by decide) value)

theorem s64Leb128_eq (value : BitVec 64) :
    signedLeb128 maxU64Leb128Bytes value = some (signed value.toInt) :=
  signedLeb128_eq (by decide) _ value (length_signed_le (by decide) value)

/-! ## The padded spelling -/

/-- The byte `(bits & 0x7f) | 0x80`. -/
theorem fixedByte_eq (bits : BitVec 32) :
    UInt8.ofBitVec (((bits &&& 0x7f) ||| 0x80).setWidth 8) =
      UInt8.ofNat (bits.toNat % 128 + 128) := by
  have low := lowByte_eq (by decide) bits
  rw [BitVec.setWidth_or, UInt8.ofBitVec_or, ← ofNat_or_more _ (Nat.mod_lt _ (by decide)), ← low]
  rfl

/-- The bytes of the padded spelling: four groups that continue and four bits. -/
theorem writeFixedU32Leb128Raw_eq (value : BitVec 32) :
    writeFixedU32Leb128Raw maxU32Leb128Bytes value =
      [UInt8.ofNat (value.toNat % 128 + 128), UInt8.ofNat (value.toNat / 2 ^ 7 % 128 + 128),
        UInt8.ofNat (value.toNat / 2 ^ 14 % 128 + 128),
        UInt8.ofNat (value.toNat / 2 ^ 21 % 128 + 128), UInt8.ofNat (value.toNat / 2 ^ 28)] := by
  have shifted : ∀ amount, (value >>> amount).toNat = value.toNat / 2 ^ amount := by
    intro amount
    rw [BitVec.toNat_ushiftRight, Nat.shiftRight_eq_div_pow]
  have top : UInt8.ofBitVec (((value >>> 28) &&& 0x0f).setWidth 8) =
      UInt8.ofNat (value.toNat / 2 ^ 28) := by
    have bound := value.isLt
    have masked : value.toNat / 2 ^ 28 &&& 15 = value.toNat / 2 ^ 28 % 16 :=
      Nat.and_two_pow_sub_one_eq_mod _ 4
    apply UInt8.toNat_inj.mp
    rw [UInt8.toNat_ofBitVec, BitVec.toNat_setWidth, BitVec.toNat_and, shifted,
      UInt8.toNat_ofNat', show (0x0f : BitVec 32).toNat = 15 from rfl, masked]
    omega
  rw [writeFixedU32Leb128Raw, if_neg (by decide)]
  simp only [fixedByte_eq, top, shifted]

theorem length_fixed (value : BitVec 32) :
    (writeFixedU32Leb128Raw maxU32Leb128Bytes value).length = 5 := by
  rw [writeFixedU32Leb128Raw_eq]
  rfl

theorem fixed_terminated (value : BitVec 32) :
    Terminated (writeFixedU32Leb128Raw maxU32Leb128Bytes value) := by
  have bound := value.isLt
  rw [writeFixedU32Leb128Raw_eq]
  have more : ∀ bits : Nat, continues (UInt8.ofNat (bits % 128 + 128)) = true :=
    fun bits => continues_ofNat_more _ (Nat.mod_lt _ (by decide))
  have last := continues_ofNat (value.toNat / 2 ^ 28) (by omega)
  exact .cons (.cons (.cons (.cons (.singleton last) (more _)) (more _)) (more _)) (more _)

theorem magnitude_fixed (value : BitVec 32) :
    magnitude (writeFixedU32Leb128Raw maxU32Leb128Bytes value) = value.toNat := by
  have bound := value.isLt
  have more : ∀ bits : Nat, group (UInt8.ofNat (bits % 128 + 128)) = bits % 128 :=
    fun bits => group_ofNat_more _ (Nat.mod_lt _ (by decide))
  rw [writeFixedU32Leb128Raw_eq]
  simp only [magnitude_cons, magnitude_nil, more, group_ofNat (value.toNat / 2 ^ 28) (by omega)]
  omega

/-! ## Reading one spelling back -/

/-- A reader takes exactly the spelling in front of it. -/
theorem Grammar.RecognizedBy.read_append {width : Nat} {grammar : Grammar}
    {read : List UInt8 → BitVec width → Nat × BitVec width} (recognized : grammar.RecognizedBy read)
    {bytes : List UInt8} (terminated : Terminated bytes) (short : bytes.length ≤ grammar.limit)
    (inRange : grammar.InRange bytes) (rest : List UInt8) (outValue : BitVec width) :
    read (bytes ++ rest) outValue = (bytes.length, BitVec.ofInt width (grammar.value bytes)) := by
  have positive := List.length_pos_iff.mpr terminated.nonempty
  have word : grammar.Accepts (bytes ++ rest) bytes.length := by
    refine ⟨positive, terminated.terminator_append rest, short, ?_, ?_⟩
    · rw [List.take_left]
      exact inRange.1
    · rw [List.take_left]
      exact inRange.2
  have length := (recognized.length_iff (bytes ++ rest) outValue bytes.length positive).mpr word
  have value := recognized.value (bytes ++ rest) outValue bytes.length word
  rw [List.take_left] at value
  exact Prod.ext length value

/-- `ReadU32Leb128` reads back any spelling of a 32-bit value in at most five bytes. -/
theorem readU32Leb128_spelling {bytes : List UInt8} (terminated : Terminated bytes)
    (short : bytes.length ≤ 5) {value : BitVec 32} (spelled : magnitude bytes = value.toNat)
    (rest : List UInt8) (outValue : BitVec 32) :
    readU32Leb128 (bytes ++ rest) outValue = (bytes.length, value) := by
  have bound := value.isLt
  have inRange : u32Grammar.InRange bytes := by
    constructor
    · exact Int.natCast_nonneg _
    · simp only [u32Grammar, spelled]
      omega
  have read := u32_recognized.read_append terminated short inRange rest outValue
  simpa [u32Grammar, spelled] using read

/-- A reader of two's-complement integers reads back the shortest spelling of a value. -/
theorem Grammar.RecognizedBy.read_signed {width more : Nat}
    {read : List UInt8 → BitVec width → Nat × BitVec width}
    (recognized : Grammar.RecognizedBy
      ⟨more + 1, signedMagnitude, -2 ^ (width - 1), 2 ^ (width - 1)⟩ read)
    (roomy : width ≤ 7 * (more + 1)) (value : BitVec width) (rest : List UInt8)
    (outValue : BitVec width) :
    read (signed value.toInt ++ rest) outValue = ((signed value.toInt).length, value) := by
  have spelled := signedMagnitude_signed value.toInt
  have short := length_signed_le roomy value
  have inRange : Grammar.InRange ⟨more + 1, signedMagnitude, -2 ^ (width - 1), 2 ^ (width - 1)⟩
      (signed value.toInt) := by
    constructor
    · simpa only [spelled] using value.le_toInt
    · simpa only [spelled] using value.toInt_lt
  have read := recognized.read_append (signed_terminated _) short inRange rest outValue
  simpa only [spelled, BitVec.ofInt_toInt] using read

/-! ## Sequences -/

/-- Which writer and reader an item goes through. -/
inductive Kind where
  | u32
  | fixedU32
  | s32
  | s64

/-- The number of bits of an item's value. -/
def Kind.width : Kind → Nat
  | .u32 | .fixedU32 | .s32 => 32
  | .s64 => 64

/-- A value to write, with the description passed along for the log. -/
structure Item where
  kind : Kind
  value : BitVec kind.width
  desc : Desc

/-- An item's kind and value. -/
abbrev Value := (kind : Kind) × BitVec kind.width

/-- The matching reader. -/
def Kind.read : (kind : Kind) → List UInt8 → BitVec kind.width → Nat × BitVec kind.width
  | .u32 => readU32Leb128
  | .fixedU32 => readU32Leb128
  | .s32 => readS32Leb128
  | .s64 => readS64Leb128

/-- Read one value of each kind, advancing by the returned lengths; `outValue`
is what `*out_value` holds before a call. A returned length of 0 ends the reading. -/
def readItems (outValue : (kind : Kind) → BitVec kind.width) (buf : List UInt8) :
    List Kind → (offset : Nat) → Option (List Value × Nat)
  | [], offset => some ([], offset)
  | kind :: kinds, offset =>
      match kind.read (buf.drop offset) (outValue kind) with
      | (0, _) => none
      | (length + 1, value) =>
          match readItems outValue buf kinds (offset + (length + 1)) with
          | none => none
          | some (values, final) => some (⟨kind, value⟩ :: values, final)

namespace Item

variable {Impl Log : Type} [StreamImpl Impl] [LogStream Log]

/-- The matching writer. -/
def write : Item → Stream Impl Log → Option (Stream Impl Log)
  | ⟨.u32, value, desc⟩ => writeU32Leb128 value desc
  | ⟨.fixedU32, value, desc⟩ => writeFixedU32Leb128 value desc
  | ⟨.s32, value, desc⟩ => writeS32Leb128 value desc
  | ⟨.s64, value, desc⟩ => writeS64Leb128 value desc

/-- Write items in order. -/
def writeAll : List Item → Stream Impl Log → Option (Stream Impl Log)
  | [], stream => some stream
  | item :: items, stream =>
      match item.write stream with
      | none => none
      | some next => writeAll items next

/-- The bytes an item is spelled by. -/
def spelling : Item → List UInt8
  | ⟨.u32, value, _⟩ => unsigned value.toNat
  | ⟨.fixedU32, value, _⟩ => writeFixedU32Leb128Raw maxU32Leb128Bytes value
  | ⟨.s32, value, _⟩ => signed value.toInt
  | ⟨.s64, value, _⟩ => signed value.toInt

/-- An item's writer hands the stream its spelling. -/
theorem write_eq (item : Item) (stream : Stream Impl Log) :
    item.write stream = stream.writeData item.spelling item.desc .no := by
  obtain ⟨kind, value, desc⟩ := item
  cases kind with
  | u32 => exact congrArg (writeArray · desc stream) (u32Leb128_eq value)
  | fixedU32 => rfl
  | s32 => exact congrArg (writeArray · desc stream) (s32Leb128_eq value)
  | s64 => exact congrArg (writeArray · desc stream) (s64Leb128_eq value)

/-- An item's reader takes exactly its spelling and returns its value. -/
theorem read_spelling (item : Item) (rest : List UInt8) (outValue : BitVec item.kind.width) :
    item.kind.read (item.spelling ++ rest) outValue = (item.spelling.length, item.value) := by
  obtain ⟨kind, value, desc⟩ := item
  cases kind with
  | u32 =>
      have bound : value.toNat < 2 ^ 32 := value.isLt
      exact readU32Leb128_spelling (unsigned_terminated _)
        (length_unsigned_le value.toNat 4 (by omega)) (magnitude_unsigned _) rest outValue
  | fixedU32 =>
      exact readU32Leb128_spelling (fixed_terminated value) (length_fixed value).le
        (magnitude_fixed value) rest outValue
  | s32 => exact s32_recognized.read_signed (by decide) value rest outValue
  | s64 => exact s64_recognized.read_signed (by decide) value rest outValue

theorem spelling_nonempty (item : Item) : item.spelling ≠ [] := by
  obtain ⟨kind, value, desc⟩ := item
  cases kind with
  | u32 => exact (unsigned_terminated _).nonempty
  | fixedU32 => exact (fixed_terminated value).nonempty
  | s32 => exact (signed_terminated _).nonempty
  | s64 => exact (signed_terminated _).nonempty

/-- The bytes a sequence of items is spelled by. -/
def spellings (items : List Item) : List UInt8 := items.flatMap spelling

theorem length_spelling_le (item : Item) : item.spelling.length ≤ 10 := by
  obtain ⟨kind, value, desc⟩ := item
  cases kind with
  | u32 =>
      have bound : value.toNat < 2 ^ 32 := value.isLt
      have short := length_unsigned_le value.toNat 4 (by omega)
      exact le_trans short (by decide)
  | fixedU32 => exact le_trans (length_fixed value).le (by decide)
  | s32 => exact @length_signed_le 32 9 (by decide) value
  | s64 => exact @length_signed_le 64 9 (by decide) value

/-- A sequence takes at most ten bytes an item. -/
theorem length_spellings_le (items : List Item) :
    (spellings items).length ≤ 10 * items.length := by
  induction items with
  | nil => simp [spellings]
  | cons item items ih =>
      have head := length_spelling_le item
      simp only [spellings, List.flatMap_cons, List.length_append, List.length_cons] at ih ⊢
      omega

/-- What a sequence leaves in a memory stream. -/
theorem writeAll_holds {Log : Type} [LogStream Log] (items : List Item)
    {stream : Stream MemoryStream Log} {data : List UInt8} (holds : MemoryStream.Holds stream data)
    (fits : (data ++ spellings items).length < 2 ^ 64) :
    ∃ final, writeAll items stream = some final ∧
      MemoryStream.Holds final (data ++ spellings items) := by
  induction items generalizing stream data with
  | nil => exact ⟨stream, rfl, by simpa [spellings] using holds⟩
  | cons item items ih =>
      have split : data ++ spellings (item :: items) =
          (data ++ item.spelling) ++ spellings items := by
        simp [spellings]
      rw [split] at fits ⊢
      have room : data.length + item.spelling.length < 2 ^ 64 := by
        simp only [List.length_append] at fits
        omega
      obtain ⟨next, written, nextHolds⟩ := holds.writeData item.spelling item.desc .no room
      obtain ⟨final, finished, finalHolds⟩ := ih nextHolds fits
      exact ⟨final, by simp [writeAll, write_eq, written, finished], finalHolds⟩

/-- Reading the spellings from an offset on yields the values and ends behind them. -/
theorem readItems_spellings (outValue : (kind : Kind) → BitVec kind.width) (items : List Item)
    (front : List UInt8) :
    readItems outValue (front ++ spellings items) (items.map kind) front.length =
      some (items.map fun item => ⟨item.kind, item.value⟩,
        (front ++ spellings items).length) := by
  induction items generalizing front with
  | nil => simp [readItems, spellings]
  | cons item items ih =>
      have positive := List.length_pos_iff.mpr item.spelling_nonempty
      obtain ⟨more, length⟩ : ∃ more, item.spelling.length = more + 1 :=
        ⟨item.spelling.length - 1, by omega⟩
      have split : front ++ spellings (item :: items) =
          (front ++ item.spelling) ++ spellings items := by
        simp [spellings]
      have read := item.read_spelling (spellings items) (outValue item.kind)
      rw [length] at read
      have tail := ih (front ++ item.spelling)
      rw [List.length_append, length] at tail
      simp only [List.map_cons, readItems, split, List.append_assoc, List.drop_left, read]
      rw [List.append_assoc] at tail
      rw [tail]

end Item

/-- Every sequence of items fits its local arrays, and what it leaves in a fresh
memory stream reads back as exactly its values, up to the end of the buffer. The
hypothesis keeps the buffer inside the address space. -/
theorem sequence_round_trip {Log : Type} [LogStream Log] (logStream : Option Log)
    (items : List Item) (fits : (Item.spellings items).length < 2 ^ 64)
    (outValue : (kind : Kind) → BitVec kind.width) :
    ∃ final buf, Item.writeAll items (MemoryStream.new logStream) = some final ∧
      final.impl.buf = some buf ∧
      readItems outValue buf (items.map Item.kind) 0 =
        some (items.map fun item => ⟨item.kind, item.value⟩, buf.length) := by
  obtain ⟨final, written, holds⟩ :=
    Item.writeAll_holds items (MemoryStream.new_holds logStream) fits
  have read := Item.readItems_spellings outValue items []
  exact ⟨final, Item.spellings items, written, holds.buf, read⟩

/-- Without a log: a padded 7, then -65 in both signed widths. -/
theorem sequence_round_trip_padded :
    (Item.spellings [⟨.fixedU32, 7, none⟩, ⟨.s32, -65, none⟩, ⟨.s64, -65, none⟩]).length <
        2 ^ 64 ∧
      ∃ final buf, Item.writeAll [⟨.fixedU32, 7, none⟩, ⟨.s32, -65, none⟩, ⟨.s64, -65, none⟩]
        (MemoryStream.new (none : Option Empty)) = some final ∧ final.impl.buf = some buf ∧
        readItems (fun _ => 0) buf [.fixedU32, .s32, .s64] 0 =
          some ([⟨.fixedU32, 7⟩, ⟨.s32, -65⟩, ⟨.s64, -65⟩], buf.length) := by
  have fits : (Item.spellings [⟨.fixedU32, 7, none⟩, ⟨.s32, -65, none⟩,
      ⟨.s64, -65, none⟩]).length < 2 ^ 64 :=
    lt_of_le_of_lt (Item.length_spellings_le _) (by decide)
  exact ⟨fits, sequence_round_trip none _ fits fun _ => 0⟩

end XProject.Base.Leb128
