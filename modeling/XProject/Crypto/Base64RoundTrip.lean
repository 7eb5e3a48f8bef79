import XProject.Crypto.Base64Decode

/-!
# `base64Encode` and back

The shifts and masks of the encoder cut three bytes into the four values of
their 24 bits, so that it stores the standard encoding; the decoder takes it
back.
-/

namespace XProject.Base.Crypto

open XProject.Std
open XProject.Std.Base64

/-! ## The letters of a group -/

theorem tableAt_ofNat {value : Nat} (small : value < 64) :
    tableAt (BitVec.ofNat 32 value) = letter value := by
  have every : ∀ value : Fin 64, tableAt (BitVec.ofNat 32 value.val) = letter value.val := by
    decide +kernel
  exact every ⟨value, small⟩

/-- The pieces the encoder cuts a byte into. -/
theorem byte_words : ∀ byte : UInt8,
    (promoted byte).sshiftRight 2 &&& 0x3f = BitVec.ofNat 32 (byte.toNat / 4) ∧
      (promoted byte &&& 0x03) <<< 4 = BitVec.ofNat 32 (byte.toNat % 4 * 16) ∧
      (promoted byte).sshiftRight 4 &&& 0x0f = BitVec.ofNat 32 (byte.toNat / 16) ∧
      (promoted byte &&& 0x0f) <<< 2 = BitVec.ofNat 32 (byte.toNat % 16 * 4) ∧
      (promoted byte).sshiftRight 6 &&& 0x03 = BitVec.ofNat 32 (byte.toNat / 64) ∧
      promoted byte &&& 0x3f = BitVec.ofNat 32 (byte.toNat % 64) :=
  every_byte (by decide +kernel)

/-- The four letters of three bytes. -/
theorem group_words (a b c : UInt8) :
    tableAt ((promoted a).sshiftRight 2 &&& 0x3f) = letter (group a b c / 262144) ∧
      tableAt (((promoted b).sshiftRight 4 &&& (0x0f : BitVec 32)) ||| (promoted a &&& 0x03) <<< 4) =
        letter (group a b c / 4096 % 64) ∧
      tableAt ((promoted b &&& 0x0f) <<< 2 ||| (0x03 &&& (promoted c).sshiftRight 6)) =
        letter (group a b c / 64 % 64) ∧
      tableAt (promoted c &&& 0x3f) = letter (group a b c % 64) := by
  obtain ⟨top, low, _, _, _, _⟩ := byte_words a
  obtain ⟨_, _, high, middle, _, _⟩ := byte_words b
  obtain ⟨_, _, _, _, first, rest⟩ := byte_words c
  have aBound := a.toNat_lt
  have bBound := b.toNat_lt
  have cBound := c.toNat_lt
  have second := @or_pending (a.toNat % 4 * 16) (b.toNat / 16) 2
    (Nat.dvd_mul_left 16 _) (by omega)
  have third := @or_pending (b.toNat % 16 * 4) (c.toNat / 64) 1
    (Nat.dvd_mul_left 4 _) (by omega)
  rw [BitVec.and_comm 0x03, BitVec.or_comm ((promoted b).sshiftRight 4 &&& 0x0f), top, low, high,
    middle, first, rest, second, third, tableAt_ofNat (by omega), tableAt_ofNat (by omega),
    tableAt_ofNat (by omega), tableAt_ofNat (by omega), group]
  refine ⟨congrArg letter ?_, congrArg letter ?_, congrArg letter ?_, congrArg letter ?_⟩
  · omega
  · omega
  · omega
  · omega

/-- The encoder stores the standard encoding and counts its characters. -/
theorem encodeFrom_eq (j : UInt32) (bytes : List UInt8) :
    encodeFrom j bytes = ⟨stores j (encode bytes), j + UInt32.ofNat (encode bytes).length⟩ := by
  induction bytes using encode.induct generalizing j with
  | case1 a b c rest ih =>
      obtain ⟨first, second, third, fourth⟩ := group_words a b c
      have four : (quartet (group a b c)).length = 4 := rfl
      rw [encodeFrom, encode, ih, first, second, third, fourth, stores_append, List.length_append,
        four, UInt32.ofNat_add, ← UInt32.add_assoc]
      rfl
  | case2 a b =>
      obtain ⟨first, second, third, _⟩ := group_words a b 0
      have none_ : (0x03 &&& (promoted 0).sshiftRight 6 : BitVec 32) = 0#32 := by decide
      rw [none_, BitVec.or_zero] at third
      rw [BitVec.or_comm] at second
      rw [encodeFrom, BitVec.and_comm 0x0f, first, second, third, encode]
      rfl
  | case3 a =>
      obtain ⟨first, second, _, _⟩ := group_words a 0 0
      have none_ : ((promoted 0).sshiftRight 4 &&& 0x0f : BitVec 32) = 0#32 := by decide
      rw [none_, BitVec.zero_or] at second
      rw [encodeFrom, first, second, encode]
      rfl
  | case4 =>
      rw [encodeFrom, encode]
      exact congrArg (Encoded.mk []) (UInt32.add_zero j).symm

/-- Bytes whose encoding can be counted are encoded as the standard says, and the decoder
returns them from their encoding wherever the output holds them; its counter `i` wraps. -/
theorem base64_round_trip (beside : Int → BitVec 8) (bytes : List UInt8) (some_ : bytes ≠ [])
    (fits : 4 * ((bytes.length + 2) / 3) < 2 ^ 32) (outLen : UInt32)
    (capacity : bytes.length ≤ outLen.toNat) :
    let encoded := base64Encode bytes
    let decoded := base64Decode beside (encode bytes) outLen
    encoded.output = stores 0 (encode bytes) ∧
      encoded.outLen.toNat = 4 * ((bytes.length + 2) / 3) ∧
      (encode bytes).length = 4 * ((bytes.length + 2) / 3) ∧
      decoded.returned = true ∧ decoded.outLen.toNat = bytes.length ∧
      decoded.output = stores 0 bytes := by
  intro encoded decoded
  have length := length_encode bytes
  have standard := encodeFrom_eq 0 bytes
  obtain ⟨letters, pads, padded⟩ := encode_padded some_
  have inverse := decode_encode bytes
  have entered : Entered (encode bytes) outLen :=
    (padded_entered_iff padded).mpr (by rw [inverse]; exact capacity)
  have result := @accepts_padded beside (encode bytes) outLen letters pads padded (by omega) entered
  rw [inverse] at result
  simp only [encoded, decoded, base64Encode, standard, result, UInt32.zero_add,
    UInt32.toNat_ofNat', length]
  refine ⟨trivial, Nat.mod_eq_of_lt fits, trivial, trivial, ?_, trivial⟩
  exact Nat.mod_eq_of_lt (by omega)

/-- Five bytes, two of them with the high bit set. -/
theorem base64_round_trip_five :
    let bytes : List UInt8 := [1, 2, 3, 255, 128]
    let encoded := base64Encode bytes
    let decoded := base64Decode (fun _ => 0) (encode bytes) 5
    encoded.output = stores 0 (encode bytes) ∧
      encoded.outLen.toNat = 4 * ((bytes.length + 2) / 3) ∧
      (encode bytes).length = 4 * ((bytes.length + 2) / 3) ∧
      decoded.returned = true ∧ decoded.outLen.toNat = bytes.length ∧
      decoded.output = stores 0 bytes :=
  base64_round_trip (fun _ => 0) [1, 2, 3, 255, 128] (by decide) (by decide) 5 (by decide)

end XProject.Base.Crypto
