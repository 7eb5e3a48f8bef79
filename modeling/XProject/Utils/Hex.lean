import XProject.Std.Hex

/-!
# The hexadecimal conversions of `utils/util.h`

Two encoders, one over a `std::string` of signed characters and one over unsigned
bytes, and two decoders with one loop. A decoder takes two characters at a time, so
on a text of odd length it reads the terminating NUL behind the last one, which is
no digit, and gives up everything it has decoded.
-/

namespace XProject.Base

open XProject.Std

/-- The string literal `dict`. -/
def dict : List UInt8 := "0123456789abcdef".toList.map fun char => UInt8.ofNat char.toNat

/-- `dict[index]`. -/
def dictAt (index : BitVec 32) : UInt8 := dict.getD index.toNat 0

/-- The loop of the encoders; `promoted` is the promotion of an element to `int`. -/
def toHex (promoted : UInt8 → BitVec 32) (input : List UInt8) : List UInt8 :=
  input.foldl (fun out c =>
    let h := 0x0f &&& (promoted c).sshiftRight 4
    let l := 0x0f &&& promoted c
    out ++ [dictAt h] ++ [dictAt l]) []

/-- `Bin2Hex`: a `char` is signed. -/
def bin2Hex (input : List UInt8) : List UInt8 := toHex (fun c => c.toBitVec.signExtend 32) input

/-- `Bytes2Hex`. -/
def bytes2Hex (input : List UInt8) : List UInt8 := toHex (fun c => c.toBitVec.setWidth 32) input

/-- `FromHexChar`. -/
def fromHexChar (c : UInt8) : Int :=
  let c := c.toInt8.toInt
  if 48 ≤ c ∧ c ≤ 57 then c - 48
  else if 97 ≤ c ∧ c ≤ 102 then c - 97 + 10
  else if 65 ≤ c ∧ c ≤ 70 then c - 65 + 10
  else -1

/-- `input[i]` of a `std::string`, whose element at `size()` is NUL. -/
def charAt (input : List UInt8) (i : Nat) : UInt8 := input.getD i 0

/-- `static_cast<unsigned char>((h << 4) | l)`. -/
def joined (h l : Int) : UInt8 :=
  UInt8.ofBitVec ((BitVec.ofInt 32 h <<< 4 ||| BitVec.ofInt 32 l).setWidth 8)

/-- The loop of the decoders. -/
def fromHex (input : List UInt8) (i : Nat) (out : List UInt8) : List UInt8 :=
  if i < input.length then
    let h := fromHexChar (charAt input i)
    let l := fromHexChar (charAt input (i + 1))
    if h ≠ -1 ∧ l ≠ -1 then fromHex input (i + 2) (out ++ [joined h l])
    else []
  else out
termination_by input.length - i

/-- `Hex2Bin`. -/
def hex2Bin (input : List UInt8) : List UInt8 := fromHex input 0 []

/-- `Hex2Bytes`. -/
def hex2Bytes (input : List UInt8) : List UInt8 := fromHex input 0 []

/-! ## Encoding -/

/-- The digits of `dict`. -/
theorem dictAt_eq {index : BitVec 32} (small : index.toNat < 16) :
    dictAt index = Hex.digit index.toNat := by
  have all : ∀ value < 16, dict.getD value 0 = Hex.digit value := by decide
  exact all index.toNat small

/-- The mask keeps the low four bits. -/
theorem toNat_masked (bits : BitVec 32) : (0x0f &&& bits).toNat = bits.toNat % 16 := by
  rw [BitVec.and_comm, BitVec.toNat_and]
  exact Nat.and_two_pow_sub_one_eq_mod bits.toNat 4

/-- An arithmetic shift moves the next four bits there. -/
theorem toNat_shifted (bits : BitVec 32) :
    (bits.sshiftRight 4).toNat % 16 = bits.toNat / 16 % 16 := by
  have same : (bits.sshiftRight 4).setWidth 4 = (bits >>> 4).setWidth 4 := by
    ext index inside
    have below : 4 + index < 32 := by omega
    have beyond : ¬ 32 ≤ index := by omega
    simp [BitVec.getLsbD_sshiftRight, below, beyond]
  have numbers := congrArg BitVec.toNat same
  rwa [BitVec.toNat_setWidth, BitVec.toNat_setWidth, BitVec.toNat_ushiftRight,
    Nat.shiftRight_eq_div_pow] at numbers

/-- Whatever the promotion does to the upper bits, an element becomes its two digits. -/
theorem toHex_eq {promoted : UInt8 → BitVec 32}
    (low : ∀ c, (promoted c).toNat % 256 = c.toNat) (input : List UInt8) :
    toHex promoted input = Hex.spell input := by
  have each : ∀ c out, (out ++ [dictAt (0x0f &&& (promoted c).sshiftRight 4)] ++
      [dictAt (0x0f &&& promoted c)] : List UInt8) = out ++ Hex.pair c := by
    intro c out
    have byte := low c
    have bound := c.toNat_lt
    have high_ := toNat_shifted (promoted c)
    have front : (0x0f &&& (promoted c).sshiftRight 4).toNat = c.toNat / 16 := by
      rw [toNat_masked, high_]
      omega
    have back : (0x0f &&& promoted c).toNat = c.toNat % 16 := by
      rw [toNat_masked]
      omega
    rw [dictAt_eq (by omega), dictAt_eq (by omega), front, back, List.append_assoc]
    rfl
  have loop : ∀ out, input.foldl (fun out c => out ++ [dictAt (0x0f &&& (promoted c).sshiftRight 4)] ++
      [dictAt (0x0f &&& promoted c)]) out = out ++ Hex.spell input := by
    induction input with
    | nil => simp [Hex.spell]
    | cons c rest ih =>
        intro out
        rw [List.foldl_cons, ih, each, List.append_assoc]
        rfl
  exact loop []

theorem bin2Hex_eq (input : List UInt8) : bin2Hex input = Hex.spell input := by
  refine toHex_eq (fun c => ?_) input
  have same : (c.toBitVec.signExtend 32).setWidth 8 = c.toBitVec := by
    ext index inside
    have below : index < 32 := by omega
    simp [BitVec.getElem_signExtend, below, inside]
  have numbers := congrArg BitVec.toNat same
  rwa [BitVec.toNat_setWidth] at numbers

theorem bytes2Hex_eq (input : List UInt8) : bytes2Hex input = Hex.spell input := by
  refine toHex_eq (fun c => ?_) input
  have bound := c.toNat_lt
  rw [BitVec.toNat_setWidth, UInt8.toNat_toBitVec]
  omega

/-! ## Decoding -/

/-- A digit has its value, any other character -1. -/
theorem fromHexChar_eq (c : UInt8) :
    fromHexChar c = (Hex.valueOf c).elim (-1) fun value => (value : Int) := by
  have bound := c.toNat_lt
  have signed : c.toInt8.toInt = if 2 * c.toNat < 2 ^ 8 then (c.toNat : Int)
      else (c.toNat : Int) - (2 ^ 8 : Nat) := BitVec.toInt_eq_toNat_cond c.toBitVec
  have small : c.toInt8.toInt = c.toNat ∨ (128 ≤ c.toNat ∧ c.toInt8.toInt < 0) := by
    split at signed <;> omega
  simp only [fromHexChar, Hex.valueOf]
  generalize c.toInt8.toInt = char at small
  by_cases decimal : 48 ≤ c.toNat ∧ c.toNat ≤ 57
  · rw [if_pos (by omega), if_pos decimal, Option.elim_some]
    omega
  · rw [if_neg (by omega), if_neg decimal]
    by_cases lower : 97 ≤ c.toNat ∧ c.toNat ≤ 102
    · rw [if_pos (by omega), if_pos lower, Option.elim_some]
      omega
    · rw [if_neg (by omega), if_neg lower]
      by_cases upper : 65 ≤ c.toNat ∧ c.toNat ≤ 70
      · rw [if_pos (by omega), if_pos upper, Option.elim_some]
        omega
      · rw [if_neg (by omega), if_neg upper, Option.elim_none]

/-- A character gives -1 exactly when it is no digit. -/
theorem fromHexChar_of_some {c : UInt8} {value : Nat} (valued : Hex.valueOf c = some value) :
    fromHexChar c = value := by
  rw [fromHexChar_eq, valued]
  rfl

theorem fromHexChar_of_none {c : UInt8} (other : Hex.valueOf c = none) : fromHexChar c = -1 := by
  rw [fromHexChar_eq, other]
  rfl

/-- The two values of a byte. -/
theorem joined_eq {h l : Nat} (smallHigh : h < 16) (smallLow : l < 16) :
    joined h l = UInt8.ofNat (h * 16 + l) := by
  have sum : h <<< 4 ||| l = h * 16 + l := by
    rw [← Nat.shiftLeft_add_eq_or_of_lt (by omega), Nat.shiftLeft_eq]
  have shifted : h <<< 4 % 2 ^ 32 = h <<< 4 := by
    rw [Nat.shiftLeft_eq]
    omega
  apply UInt8.toNat_inj.mp
  rw [joined, UInt8.toNat_ofBitVec, BitVec.toNat_setWidth, BitVec.toNat_or, BitVec.toNat_shiftLeft,
    BitVec.ofInt_natCast, BitVec.ofInt_natCast, BitVec.toNat_ofNat, BitVec.toNat_ofNat,
    UInt8.toNat_ofNat', Nat.mod_eq_of_lt (show h < 2 ^ 32 by omega),
    Nat.mod_eq_of_lt (show l < 2 ^ 32 by omega), shifted, sum]

/-- Behind the last character stands NUL, which is no digit. -/
theorem inside_of_valued {input : List UInt8} {i value : Nat}
    (valued : Hex.valueOf (charAt input i) = some value) : i < input.length := by
  rcases Nat.lt_or_ge i input.length with inside | beyond
  · exact inside
  · rw [charAt, List.getD_eq_getElem?_getD, List.getElem?_eq_none beyond] at valued
    cases valued

theorem drop_eq_charAt {input : List UInt8} {i : Nat} (inside : i < input.length) :
    input.drop i = charAt input i :: input.drop (i + 1) := by
  rw [charAt, List.getD_eq_getElem?_getD, List.getElem?_eq_getElem inside, Option.getD_some,
    ← List.drop_eq_getElem_cons inside]

/-- From an index on, the decoders append what the rest decodes to, and drop everything
where it does not decode. -/
theorem fromHex_eq (input : List UInt8) (i : Nat) (out : List UInt8) :
    fromHex input i out = (Hex.decode (input.drop i)).elim [] fun bytes => out ++ bytes := by
  induction i, out using fromHex.induct input with
  | case1 i out inside h l digits ih =>
      obtain ⟨digitHigh, digitLow⟩ := digits
      obtain ⟨high, isHigh⟩ := Option.ne_none_iff_exists'.mp fun other =>
        digitHigh (fromHexChar_of_none other)
      obtain ⟨low, isLow⟩ := Option.ne_none_iff_exists'.mp fun other =>
        digitLow (fromHexChar_of_none other)
      have joins : joined h l = UInt8.ofNat (high * 16 + low) := by
        have eqHigh : h = high := fromHexChar_of_some isHigh
        have eqLow : l = low := fromHexChar_of_some isLow
        rw [eqHigh, eqLow]
        exact joined_eq (Hex.valueOf_eq_some isHigh).1 (Hex.valueOf_eq_some isLow).1
      rw [fromHex, if_pos inside, if_pos ⟨digitHigh, digitLow⟩, ih, joins, drop_eq_charAt inside,
        drop_eq_charAt (inside_of_valued isLow), Hex.decode, isHigh, isLow]
      cases Hex.decode (input.drop (i + 2)) with
      | none => rfl
      | some bytes => simp
  | case2 i out inside h l bad =>
      have stuck : Hex.decode (input.drop i) = none := by
        rw [Option.eq_none_iff_forall_ne_some]
        intro bytes decoded
        rw [drop_eq_charAt inside] at decoded
        rcases Nat.lt_or_ge (i + 1) input.length with more | last
        · rw [drop_eq_charAt more] at decoded
          obtain ⟨high, low, _, isHigh, isLow, _⟩ := Hex.decode_cons.mp decoded
          have eqHigh : h = high := fromHexChar_of_some isHigh
          have eqLow : l = low := fromHexChar_of_some isLow
          exact bad (by omega)
        · rw [List.drop_of_length_le last] at decoded
          cases decoded
      rw [fromHex, if_pos inside, if_neg bad, stuck]
      rfl
  | case3 i out outside =>
      rw [fromHex, if_neg outside, List.drop_of_length_le (by omega)]
      simp [Hex.decode]

theorem hex2Bin_eq (input : List UInt8) : hex2Bin input = (Hex.decode input).getD [] := by
  rw [hex2Bin, fromHex_eq, List.drop_zero]
  cases Hex.decode input with
  | none => rfl
  | some bytes => rfl

/-- A decoder's result is non-empty exactly for a non-empty text of pairs of digits. -/
theorem hex2Bin_ne_nil_iff (input : List UInt8) :
    hex2Bin input ≠ [] ↔
      input ≠ [] ∧ input.length % 2 = 0 ∧ ∀ char ∈ input, Hex.IsDigit char := by
  rw [← Hex.decode_exists_iff, hex2Bin_eq]
  constructor
  · intro some_
    cases decoded : Hex.decode input with
    | none =>
        rw [decoded] at some_
        exact absurd rfl some_
    | some bytes =>
        refine ⟨?_, bytes, rfl⟩
        rintro rfl
        cases decoded
        exact some_ rfl
  · rintro ⟨nonempty, bytes, decoded⟩ none_
    rw [decoded, Option.getD_some] at none_
    rw [none_] at decoded
    exact nonempty (Hex.eq_nil_of_decode decoded)

/-- What a decoder makes of such a text is encoded as the text in lower case. -/
theorem bin2Hex_hex2Bin {input : List UInt8} (nonempty : hex2Bin input ≠ []) :
    bin2Hex (hex2Bin input) = input.map Hex.lower := by
  obtain ⟨_, pairs⟩ := (hex2Bin_ne_nil_iff input).mp nonempty
  obtain ⟨bytes, decoded⟩ := (Hex.decode_exists_iff input).mpr pairs
  rw [bin2Hex_eq, hex2Bin_eq, decoded]
  exact Hex.spell_of_decode decoded

/-! ## Both ways -/

/-- Decoding inverts encoding for strings and for vectors; the decoders agree on every
text and give bytes exactly for non-empty pairs of digits of either case, which
encoding restores in lower case. -/
theorem hex_codecs_inverse :
    (∀ bytes, hex2Bin (bin2Hex bytes) = bytes ∧ hex2Bytes (bytes2Hex bytes) = bytes) ∧
      ∀ text, hex2Bytes text = hex2Bin text ∧
        (hex2Bin text ≠ [] ↔
          text ≠ [] ∧ text.length % 2 = 0 ∧ ∀ char ∈ text, Hex.IsDigit char) ∧
        (hex2Bin text ≠ [] → bin2Hex (hex2Bin text) = text.map Hex.lower ∧
          bytes2Hex (hex2Bytes text) = text.map Hex.lower) := by
  refine ⟨fun bytes => ?_, fun text => ⟨rfl, hex2Bin_ne_nil_iff text, fun nonempty => ?_⟩⟩
  · have decodes : hex2Bin (Hex.spell bytes) = bytes := by
      rw [hex2Bin_eq, Hex.decode_spell, Option.getD_some]
    exact ⟨by rw [bin2Hex_eq, decodes], by rw [bytes2Hex_eq]; exact decodes⟩
  · have restored := bin2Hex_hex2Bin nonempty
    refine ⟨restored, ?_⟩
    rw [bytes2Hex_eq, ← bin2Hex_eq]
    exact restored

end XProject.Base
