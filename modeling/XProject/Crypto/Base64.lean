import XProject.Std.Base64
import Mathlib.Data.UInt

/-!
# `base64Encode` and `base64Decode` of `crypto/crypto.cc`

`char` is signed: a character is promoted to `int` with its sign, as an operand
of the shifts and as an index into `DecodeTable`. What lies beside the table is
not known. Stores to `output_data` are listed in order with their index. The
counter `i` of the decoder is used for its low two bits only, and its increments
are taken to wrap. The input length is the uint32 `in_len`.
-/

namespace XProject.Base.Crypto

/-- The stores of some bytes at an index and the ones after it. -/
def stores : (index : UInt32) → (bytes : List UInt8) → List (UInt32 × UInt8)
  | _, [] => []
  | index, byte :: bytes => (index, byte) :: stores (index + 1) bytes

/-- A `char` promoted to `int`. -/
def promoted (char : UInt8) : BitVec 32 := char.toBitVec.signExtend 32

/-! ## Encoding -/

/-- The string literal `table`. -/
def table : List UInt8 :=
  "ABCDEFGHIJKLMNOPQRSTUVWXYZabcdefghijklmnopqrstuvwxyz0123456789+/".toList.map
    fun char => UInt8.ofNat char.toNat

/-- `table[index]`. -/
def tableAt (index : BitVec 32) : UInt8 := table.getD index.toNat 0

/-- The stores of the encoder and the length it reports. -/
structure Encoded where
  output : List (UInt32 × UInt8)
  outLen : UInt32

/-- The encoder from `current` on, with `j` characters stored. -/
def encodeFrom (j : UInt32) : (current : List UInt8) → Encoded
  | a :: b :: c :: current =>
      let rest := encodeFrom (j + 4) current
      let chars := [
        tableAt ((promoted a).sshiftRight 2 &&& 0x3f),
        tableAt (((promoted b).sshiftRight 4 &&& (0x0f : BitVec 32)) ||| (promoted a &&& 0x03) <<< 4),
        tableAt ((promoted b &&& 0x0f) <<< 2 ||| (0x03 &&& (promoted c).sshiftRight 6)),
        tableAt (promoted c &&& 0x3f)]
      ⟨stores j chars ++ rest.output, rest.outLen⟩
  | [a] =>
      let chars := [
        tableAt ((promoted a).sshiftRight 2 &&& 0x3f),
        tableAt ((promoted a &&& 0x03) <<< 4),
        61,
        61]
      ⟨stores j chars, j + 4⟩
  | [a, b] =>
      let chars := [
        tableAt ((promoted a).sshiftRight 2 &&& 0x3f),
        tableAt ((promoted a &&& 0x03) <<< 4 ||| (0x0f &&& (promoted b).sshiftRight 4)),
        tableAt ((promoted b &&& 0x0f) <<< 2),
        61]
      ⟨stores j chars, j + 4⟩
  | [] => ⟨[], j⟩

/-- `base64Encode`. -/
def base64Encode (inputData : List UInt8) : Encoded := encodeFrom 0 inputData

/-! ## Decoding -/

/-- `DecodeTable`. -/
def decodeTable : List Int := [
  -2, -2, -2, -2, -2, -2, -2, -2, -2, -1, -1, -2, -2, -1, -2, -2, -2, -2,
  -2, -2, -2, -2, -2, -2, -2, -2, -2, -2, -2, -2, -2, -2, -1, -2, -2, -2,
  -2, -2, -2, -2, -2, -2, -2, 62, -2, -2, -2, 63, 52, 53, 54, 55, 56, 57,
  58, 59, 60, 61, -2, -2, -2, -2, -2, -2, -2, 0,  1,  2,  3,  4,  5,  6,
  7,  8,  9,  10, 11, 12, 13, 14, 15, 16, 17, 18, 19, 20, 21, 22, 23, 24,
  25, -2, -2, -2, -2, -2, -2, 26, 27, 28, 29, 30, 31, 32, 33, 34, 35, 36,
  37, 38, 39, 40, 41, 42, 43, 44, 45, 46, 47, 48, 49, 50, 51, -2, -2, -2,
  -2, -2, -2, -2, -2, -2, -2, -2, -2, -2, -2, -2, -2, -2, -2, -2, -2, -2,
  -2, -2, -2, -2, -2, -2, -2, -2, -2, -2, -2, -2, -2, -2, -2, -2, -2, -2,
  -2, -2, -2, -2, -2, -2, -2, -2, -2, -2, -2, -2, -2, -2, -2, -2, -2, -2,
  -2, -2, -2, -2, -2, -2, -2, -2, -2, -2, -2, -2, -2, -2, -2, -2, -2, -2,
  -2, -2, -2, -2, -2, -2, -2, -2, -2, -2, -2, -2, -2, -2, -2, -2, -2, -2,
  -2, -2, -2, -2, -2, -2, -2, -2, -2, -2, -2, -2, -2, -2, -2, -2, -2, -2,
  -2, -2, -2, -2, -2, -2, -2, -2, -2, -2, -2, -2, -2, -2, -2, -2, -2, -2,
  -2, -2, -2, -2]

/-- `DecodeTable[at]` as a `char`: out of the table, whatever lies there. -/
def decodeTableAt (beside : Int → BitVec 8) (at_ : Int) : BitVec 8 :=
  if 0 ≤ at_ ∧ at_ < decodeTable.length then BitVec.ofInt 8 (decodeTable.getD at_.toNat 0)
  else beside at_

/-- The locals of the decoder, its stores and the table indices used, both in order. -/
structure Scan where
  bin : BitVec 32
  i : UInt32
  index : UInt32
  output : List (UInt32 × UInt8)
  lookups : List Int

namespace Scan

/-- Before the first character. -/
def start : Scan := ⟨0, 0, 0, [], []⟩

/-- An index into `DecodeTable` was used. -/
def look (at_ : Int) (scan : Scan) : Scan := { scan with lookups := scan.lookups ++ [at_] }

/-- `output_data[index++] = bin`. -/
def put (bin : BitVec 32) (scan : Scan) : Scan :=
  { scan with
    index := scan.index + 1
    output := scan.output ++ [(scan.index, UInt8.ofBitVec (bin.setWidth 8))] }

/-- The switch on `i & 0x03` and `i++`, for `ch` a table entry promoted to `int`. C leaves the
increment of the greatest `int` open; here it wraps, and so in every result below. -/
def take (ch : BitVec 32) (scan : Scan) : Scan :=
  let taken :=
    match (scan.i &&& 0x03).toNat with
    | 0 => { scan with bin := ch <<< 2 }
    | 1 => { scan.put (scan.bin ||| ch.sshiftRight 4) with bin := (ch &&& 0x0f) <<< 4 }
    | 2 => { scan.put (scan.bin ||| ch.sshiftRight 2) with bin := (ch &&& 0x03) <<< 6 }
    | _ => { scan.put (scan.bin ||| ch) with bin := scan.bin ||| ch }
  { taken with i := taken.i + 1 }

end Scan

/-- One pass of the loop, with `current` behind the character; an error is a return
of false. -/
def decodeChar (beside : Int → BitVec 8) (ch : UInt8) (current : List UInt8)
    (scan : Scan) : Except Scan Scan :=
  if ch = 61 then
    if current.length ≠ 0 ∧ current.length ≠ 1 then .error scan
    else if current.length > 0 ∧ current.head? ≠ some 61 ∧ scan.i &&& 0x03 = 1 then
      .error scan
    else .ok scan
  else
    let at_ := (promoted ch).toInt
    let value := decodeTableAt beside at_
    if value.toInt < 0 then .error (scan.look at_)
    else .ok ((scan.look at_).take (value.signExtend 32))

/-- The loop. -/
def decodeFrom (beside : Int → BitVec 8) :
    (current : List UInt8) → Scan → Except Scan Scan
  | [], scan => .ok scan
  | ch :: current, scan => do
      let scan ← decodeChar beside ch current scan
      decodeFrom beside current scan

/-- What a call of the decoder did: the value returned, `out_len` afterwards, the
stores and the table indices used. -/
structure Decoded where
  returned : Bool
  outLen : UInt32
  output : List (UInt32 × UInt8)
  lookups : List Int

/-- A return of false, after this much. -/
def Scan.failed (outLen : UInt32) (scan : Scan) : Decoded :=
  ⟨false, outLen, scan.output, scan.lookups⟩

/-- `padding`. -/
def padding (inputData : List UInt8) : Nat :=
  (if inputData.getD (inputData.length - 1) 0 = 61 then 1 else 0) +
    if inputData.getD (inputData.length - 2) 0 = 61 then 1 else 0

/-- `expect_len`. -/
def expectLen (inputData : List UInt8) : Nat :=
  (inputData.length >>> 2) * 3 - padding inputData

/-- `base64Decode`. -/
def base64Decode (beside : Int → BitVec 8) (inputData : List UInt8) (outLen : UInt32) :
    Decoded :=
  if inputData.length = 0 then Scan.start.failed outLen
  else if inputData.length &&& 0x03 ≠ 0 then Scan.start.failed outLen
  else if outLen.toNat < expectLen inputData then Scan.start.failed outLen
  else
    match decodeFrom beside inputData .start with
    | .error scan => scan.failed outLen
    | .ok scan =>
        if scan.index.toNat ≠ expectLen inputData then scan.failed outLen
        else ⟨true, UInt32.ofNat (expectLen inputData), scan.output, scan.lookups⟩

end XProject.Base.Crypto
