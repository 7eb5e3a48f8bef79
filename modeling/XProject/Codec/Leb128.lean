import XProject.Stream.Stream

/-!
# The LEB128 codec of `codec/leb128.cc`

Writers fill a local array and hand it to the stream; a store past the end of
the array has no defined result. Readers are the unrolled cascades of the
source over the bytes from `p` up to `end`. Signed values are their
two's-complement bits, and a right shift of a negative value is arithmetic.
-/

namespace XProject.Base.Leb128

/-- `MAX_U32_LEB128_BYTES`. -/
def maxU32Leb128Bytes : Nat := 5

/-- `MAX_U64_LEB128_BYTES`. -/
def maxU64Leb128Bytes : Nat := 10

/-! ## Writers -/

section Writers

variable {width : Nat}

/-- `LEB128_LOOP_UNTIL(end_cond)` into an array with `room` free elements:
`shift` is `value >>= 7` at the type of `value`. -/
def leb128LoopUntil (shift : BitVec width → BitVec width)
    (endCond : BitVec width → UInt8 → Bool) : (room : Nat) → BitVec width → Option (List UInt8)
  | 0, _ => none
  | room + 1, value =>
      let byte := UInt8.ofBitVec (value &&& BitVec.ofNat width 127 |>.setWidth 8)
      let value := shift value
      if endCond value byte then some [byte]
      else
        match leb128LoopUntil shift endCond room value with
        | none => none
        | some data => some ((byte ||| 0x80) :: data)

/-- The array contents of `WriteU32Leb128` and `WriteU32Leb128At`. -/
def u32Leb128 (value : BitVec 32) : Option (List UInt8) :=
  leb128LoopUntil (fun value => value >>> 7) (fun value _ => value == 0) maxU32Leb128Bytes value

/-- The array contents of `WriteS32Leb128` and `WriteS64Leb128`: the stop
condition is chosen once from the sign of the value. -/
def signedLeb128 (capacity : Nat) (value : BitVec width) : Option (List UInt8) :=
  if value.toInt < 0 then
    leb128LoopUntil (fun value => value.sshiftRight 7)
      (fun value byte => value == -1 && byte &&& 0x40 != 0) capacity value
  else
    leb128LoopUntil (fun value => value.sshiftRight 7)
      (fun value byte => value == 0 && byte &&& 0x40 == 0) capacity value

/-- The loop of `U32Leb128Length`, with the `size` counted so far. -/
def countGroups (value : BitVec 32) (size : UInt32) : UInt32 :=
  let shifted := value >>> 7
  let size := size + 1
  if shifted ≠ 0 then countGroups shifted size else size
termination_by value.toNat
decreasing_by
  rename_i more
  have divided : (value >>> 7).toNat = value.toNat / 128 := by
    rw [BitVec.toNat_ushiftRight, Nat.shiftRight_eq_div_pow]
  have positive : (value >>> 7).toNat ≠ 0 := fun zero => more (BitVec.eq_of_toNat_eq zero)
  omega

/-- `U32Leb128Length`. -/
def u32Leb128Length (value : BitVec 32) : UInt64 := (countGroups value 0).toUInt64

/-- `WriteFixedU32Leb128Raw` into an array of `room` bytes: what it fills in, from
the front, and its returned length is the length of that. -/
def writeFixedU32Leb128Raw (room : Nat) (value : BitVec 32) : List UInt8 :=
  if room < maxU32Leb128Bytes then []
  else
    let byte (bits : BitVec 32) : UInt8 := UInt8.ofBitVec (bits.setWidth 8)
    [byte ((value &&& 0x7f) ||| 0x80), byte (((value >>> 7) &&& 0x7f) ||| 0x80),
      byte (((value >>> 14) &&& 0x7f) ||| 0x80), byte (((value >>> 21) &&& 0x7f) ||| 0x80),
      byte ((value >>> 28) &&& 0x0f)]

variable {Impl Log : Type} [StreamImpl Impl] [LogStream Log]

/-- Hand a filled local array to the stream. -/
def writeArray (data : Option (List UInt8)) (desc : Desc) (stream : Stream Impl Log) :
    Option (Stream Impl Log) :=
  match data with
  | none => none
  | some data => stream.writeData data desc .no

/-- `WriteU32Leb128`. -/
def writeU32Leb128 (value : BitVec 32) (desc : Desc) (stream : Stream Impl Log) :
    Option (Stream Impl Log) :=
  writeArray (u32Leb128 value) desc stream

/-- `WriteU32Leb128At`: the returned length is that of the local array's contents. -/
def writeU32Leb128At (offset : Address) (value : BitVec 32) (desc : Desc)
    (stream : Stream Impl Log) : Option (UInt64 × Stream Impl Log) :=
  match u32Leb128 value with
  | none => none
  | some data =>
      match stream.writeDataAt offset data desc .no with
      | none => none
      | some next => some (UInt64.ofNat data.length, next)

/-- `WriteFixedU32Leb128At`. -/
def writeFixedU32Leb128At (offset : Address) (value : BitVec 32) (desc : Desc)
    (stream : Stream Impl Log) : Option (UInt64 × Stream Impl Log) :=
  let data := writeFixedU32Leb128Raw maxU32Leb128Bytes value
  match stream.writeDataAt offset data desc .no with
  | none => none
  | some next => some (UInt64.ofNat data.length, next)

/-- `WriteFixedU32Leb128`. -/
def writeFixedU32Leb128 (value : BitVec 32) (desc : Desc) (stream : Stream Impl Log) :
    Option (Stream Impl Log) :=
  writeArray (some (writeFixedU32Leb128Raw maxU32Leb128Bytes value)) desc stream

/-- `WriteS32Leb128`. -/
def writeS32Leb128 (value : BitVec 32) (desc : Desc) (stream : Stream Impl Log) :
    Option (Stream Impl Log) :=
  writeArray (signedLeb128 maxU32Leb128Bytes value) desc stream

/-- `WriteS64Leb128`. -/
def writeS64Leb128 (value : BitVec 64) (desc : Desc) (stream : Stream Impl Log) :
    Option (Stream Impl Log) :=
  writeArray (signedLeb128 maxU64Leb128Bytes value) desc stream

end Writers

/-! ## Readers -/

/-- `p + index < end && (p[index] & 0x80) == 0`. -/
def stopsAt (p : List UInt8) (index : Nat) : Bool :=
  index < p.length && p.getD index 0 &&& 0x80 == 0

/-- `BYTE_AT(type, i, shift)` for a type of `width` bits. -/
def byteAt (width : Nat) (p : List UInt8) (index shift : Nat) : BitVec width :=
  ((p.getD index 0).toBitVec.setWidth width &&& BitVec.ofNat width 127) <<< shift

/-- `LEB128_n(type)`: byte `n - 1` above `LEB128_(n-1)(type)`. -/
def leb128 (width : Nat) (p : List UInt8) : Nat → BitVec width
  | 0 => 0
  | 1 => byteAt width p 0 0
  | n + 2 => byteAt width p (n + 1) (7 * (n + 1)) ||| leb128 width p (n + 1)

/-- `SIGN_EXTEND(type, value, sign_bit)` for a signed type of `width` bits. -/
def signExtend {width : Nat} (value : BitVec width) (signBit : Nat) : BitVec width :=
  (value <<< (width - 1 - signBit)).sshiftRight (width - 1 - signBit)

/-- `ReadU32Leb128`: the returned length and what `*out_value` holds afterwards. -/
def readU32Leb128 (p : List UInt8) (outValue : BitVec 32) : Nat × BitVec 32 :=
  if stopsAt p 0 then (1, leb128 32 p 1)
  else if stopsAt p 1 then (2, leb128 32 p 2)
  else if stopsAt p 2 then (3, leb128 32 p 3)
  else if stopsAt p 3 then (4, leb128 32 p 4)
  else if stopsAt p 4 then
    -- The top bits set represent values > 32 bits.
    if p.getD 4 0 &&& 0xf0 != 0 then (0, outValue)
    else (5, leb128 32 p 5)
  else (0, 0)

/-- `ReadS32Leb128`. -/
def readS32Leb128 (p : List UInt8) (outValue : BitVec 32) : Nat × BitVec 32 :=
  if stopsAt p 0 then (1, signExtend (leb128 32 p 1) 6)
  else if stopsAt p 1 then (2, signExtend (leb128 32 p 2) 13)
  else if stopsAt p 2 then (3, signExtend (leb128 32 p 3) 20)
  else if stopsAt p 3 then (4, signExtend (leb128 32 p 4) 27)
  else if stopsAt p 4 then
    -- The top bits should be a sign-extension of the sign bit.
    let signBitSet := p.getD 4 0 &&& 0x8 != 0
    let topBits := p.getD 4 0 &&& 0xf0
    if (signBitSet && topBits != 0x70) || (!signBitSet && topBits != 0) then (0, outValue)
    else (5, leb128 32 p 5)
  else (0, outValue)

/-- `ReadS64Leb128`. -/
def readS64Leb128 (p : List UInt8) (outValue : BitVec 64) : Nat × BitVec 64 :=
  if stopsAt p 0 then (1, signExtend (leb128 64 p 1) 6)
  else if stopsAt p 1 then (2, signExtend (leb128 64 p 2) 13)
  else if stopsAt p 2 then (3, signExtend (leb128 64 p 3) 20)
  else if stopsAt p 3 then (4, signExtend (leb128 64 p 4) 27)
  else if stopsAt p 4 then (5, signExtend (leb128 64 p 5) 34)
  else if stopsAt p 5 then (6, signExtend (leb128 64 p 6) 41)
  else if stopsAt p 6 then (7, signExtend (leb128 64 p 7) 48)
  else if stopsAt p 7 then (8, signExtend (leb128 64 p 8) 55)
  else if stopsAt p 8 then (9, signExtend (leb128 64 p 9) 62)
  else if stopsAt p 9 then
    -- The top bits should be a sign-extension of the sign bit.
    let signBitSet := p.getD 9 0 &&& 0x1 != 0
    let topBits := p.getD 9 0 &&& 0xfe
    if (signBitSet && topBits != 0x7e) || (!signBitSet && topBits != 0) then (0, outValue)
    else (10, leb128 64 p 10)
  else (0, outValue)

end XProject.Base.Leb128
