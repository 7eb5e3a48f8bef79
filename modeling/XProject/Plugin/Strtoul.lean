import XProject.Plugin.NumberIntrinsics
import XProject.Plugin.StringBounds

/-!
# `my_strtoul` as a conversion to 32 bits

The intrinsic keeps the host's 64-bit value in a signed variable and cuts it at
both ends of the range it takes for valid. A negative integer is such a value, and so is
a magnitude close to `2 ^ 64`, which only a value of 65 bits could tell from one.
-/

namespace XProject.Plugin

open XProject.Std
open StringSandbox

/-- What `strtoul` returns where `unsigned long` has 32 bits. -/
def strtoul32 (numeral : Numeral) : Nat :=
  if 2 ^ 32 - 1 < numeral.magnitude then 2 ^ 32 - 1
  else if numeral.negative then (2 ^ 32 - numeral.magnitude) % 2 ^ 32
  else numeral.magnitude

/-- The magnitudes that wrap into the range of the other sign. -/
def WrapsAround (numeral : Numeral) : Prop :=
  if numeral.negative then 2 ^ 64 - 2 ^ 32 + 2 ≤ numeral.magnitude ∧ numeral.magnitude ≤ 2 ^ 64 - 1
  else 2 ^ 64 - 2 ^ 32 + 1 ≤ numeral.magnitude ∧ numeral.magnitude ≤ 2 ^ 64 - 2

/-- The host's value, as a number. -/
theorem toNat_strtoul (numeral : Numeral) :
    (strtoul (some numeral)).toNat =
      if 2 ^ 64 ≤ numeral.magnitude then 2 ^ 64 - 1
      else if numeral.negative then (2 ^ 64 - numeral.magnitude) % 2 ^ 64
      else numeral.magnitude := by
  simp only [strtoul]
  by_cases small : numeral.magnitude < 2 ^ 64
  · rw [if_pos small, if_neg (Nat.not_le.mpr small)]
    have value : (UInt64.ofNat numeral.magnitude).toNat = numeral.magnitude := by
      rw [UInt64.toNat_ofNat', Nat.mod_eq_of_lt small]
    cases numeral.negative with
    | true =>
        rw [if_pos rfl, if_pos rfl, UInt64.toNat_neg, value]
        rfl
    | false =>
        rw [if_neg Bool.false_ne_true, if_neg Bool.false_ne_true, value]
  · rw [if_neg small, if_pos (Nat.not_lt.mp small)]
    rfl

/-- The cuts see the host's value as signed: they take what lies further than 32 bits
from both ends of its range, and the rest loses its upper half. -/
theorem toNat_clampUInt (value : UInt64) :
    (clampUInt value.toInt64).toNat =
      if 2 ^ 32 ≤ value.toNat ∧ value.toNat ≤ 2 ^ 64 - 2 ^ 32 then 2 ^ 32 - 1
      else value.toNat % 2 ^ 32 := by
  have bound := value.toNat_lt
  have signed : value.toInt64.toInt = if 2 * value.toNat < 2 ^ 64 then (value.toNat : Int)
      else (value.toNat : Int) - (2 ^ 64 : Nat) := BitVec.toInt_eq_toNat_cond value.toBitVec
  have most : uintMax.toInt = 2 ^ 32 - 1 := by decide
  have least : (-uintMax).toInt = -(2 ^ 32 - 1) := by decide
  have cut : uintMax.toUInt64.toUInt32.toNat = 2 ^ 32 - 1 := by decide
  simp only [clampUInt, gt_iff_lt, Int64.lt_iff_toInt_lt, most, least]
  by_cases large : (2 ^ 32 - 1 : Int) < value.toInt64.toInt
  · rw [if_pos large, cut, if_pos]
    split at signed <;> omega
  · rw [if_neg large]
    by_cases small : value.toInt64.toInt < -(2 ^ 32 - 1)
    · rw [if_pos small, cut, if_pos]
      split at signed <;> omega
    · rw [if_neg small, if_neg]
      · rfl
      · split at signed <;> omega

/-- A string that starts with an integer starts inside linear memory. -/
theorem valid_of_parsed {sandbox : StringSandbox} {str base : UInt32} {numeral : Numeral}
    (parsed : Numeral.parse base.toNat (sandbox.characters .char str.toNat) = some (some numeral)) :
    sandbox.pointerCast str = true := by
  rw [sandbox.pointerCast_iff]
  by_contra outside
  have none_ : sandbox.characters .char str.toNat = [] := by
    have nothing : sandbox.memorySize - str.toNat = 0 := by omega
    rw [characters, nothing]
    rfl
  rw [none_] at parsed
  cases parsed

/-- A conversion whose gas is paid returns the host's value narrowed, wherever the end goes. -/
theorem numberIntrinsic_ok {Host Result : Type} {sandbox : StringSandbox}
    {value : Option Numeral → Host} {narrow : Host → Result} {refusal : Result}
    {str strEnd base : UInt32} (paid : sandbox.gasConsume sandbox.intrinsicCallCost = true)
    (known : KnownBase base) {numeral : Numeral}
    (parsed : Numeral.parse base.toNat (sandbox.characters .char str.toNat) = some (some numeral)) :
    ∃ stored, numberIntrinsic sandbox value narrow refusal str strEnd base =
      .ok ⟨narrow (value (some numeral)), stored⟩ := by
  have consumed : sandbox.consume sandbox.intrinsicCallCost = .ok () := if_pos paid
  have read : sandbox.numeral str.toNat base =
      .ok (some numeral, some (str.toNat + numeral.length)) := by
    rw [StringSandbox.numeral, if_pos known, parsed]
    rfl
  rw [numberIntrinsic, bind_of_ok consumed, pointer_of_valid (valid_of_parsed parsed)]
  dsimp only
  rw [bind_of_ok read]
  dsimp only
  split
  · exact ⟨none, rfl⟩
  · cases sandbox.buffer strEnd 4 with
    | none => exact ⟨none, rfl⟩
    | some strEndPtr => exact ⟨_, rfl⟩

/-- The narrowed value is that of a 32-bit `strtoul` but for magnitudes that wrap around. -/
theorem clampUInt_strtoul_iff (numeral : Numeral) :
    (clampUInt (strtoul (some numeral)).toInt64).toNat = strtoul32 numeral ↔
      ¬WrapsAround numeral := by
  rw [toNat_clampUInt, toNat_strtoul, strtoul32, WrapsAround]
  cases numeral.negative with
  | true =>
      simp only [if_true]
      split <;> split <;> split <;> omega
  | false =>
      simp only [Bool.false_eq_true, if_false]
      split <;> split <;> split <;> omega

/-- For an integer that the host reads, `my_strtoul` returns what a 32-bit `strtoul` does
exactly when its magnitude does not wrap around. -/
theorem my_strtoul_iff {sandbox : StringSandbox} {str strEnd base : UInt32} {numeral : Numeral}
    (paid : sandbox.gasConsume sandbox.intrinsicCallCost = true)
    (known : 2 ≤ base.toNat ∧ base.toNat ≤ 36)
    (parsed : Numeral.parse base.toNat (sandbox.characters .char str.toNat) = some (some numeral)) :
    (∃ converted, myStrtoul sandbox str strEnd base = .ok converted ∧
      converted.result.toNat = strtoul32 numeral) ↔ ¬WrapsAround numeral := by
  obtain ⟨stored, returned⟩ := @numberIntrinsic_ok _ _ sandbox
    (fun found => (strtoul found).toInt64) clampUInt 0 str strEnd base paid (.inr known) _ parsed
  rw [← clampUInt_strtoul_iff, myStrtoul, returned]
  constructor
  · rintro ⟨converted, same, value⟩
    cases same
    exact value
  · intro value
    exact ⟨_, rfl, value⟩

/-- The text `-7`. -/
def minusSeven : StringSandbox :=
  .ofMemory (fun position : Fin 3 => [0x2d, 0x37, 0].get position) 100

/-- A negative integer is folded as it should be. -/
theorem my_strtoul_iff_negative :
    (∃ converted, myStrtoul minusSeven 0 0 10 = .ok converted ∧
      converted.result.toNat = strtoul32 ⟨true, 7, 2⟩) ↔ ¬WrapsAround ⟨true, 7, 2⟩ := by
  have parsed : Numeral.parse 10 (minusSeven.characters .char 0) = some (some ⟨true, 7, 2⟩) := rfl
  exact my_strtoul_iff (by decide) (by decide) parsed

/-- The text `18446744069414584321`, which is `2 ^ 64 - 2 ^ 32 + 1`. -/
def wrapping : StringSandbox :=
  .ofMemory (fun position : Fin 21 => [0x31, 0x38, 0x34, 0x34, 0x36, 0x37, 0x34, 0x34, 0x30, 0x36,
    0x39, 0x34, 0x31, 0x34, 0x35, 0x38, 0x34, 0x33, 0x32, 0x31, 0].get position) 100

/-- It is converted to 1 and not to the largest value. -/
theorem my_strtoul_wraps :
    Numeral.parse 10 (wrapping.characters .char 0) =
        some (some ⟨false, 2 ^ 64 - 2 ^ 32 + 1, 20⟩) ∧
      (myStrtoul wrapping 0 0 10).map (fun converted => converted.result) = .ok 1 ∧
      (1 : UInt32).toNat ≠ strtoul32 ⟨false, 2 ^ 64 - 2 ^ 32 + 1, 20⟩ :=
  ⟨rfl, by decide, by decide⟩

end XProject.Plugin
