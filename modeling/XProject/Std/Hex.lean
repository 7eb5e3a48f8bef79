import Mathlib.Algebra.Group.Nat.Defs
import Mathlib.Data.List.Basic
import Mathlib.Data.UInt

/-!
# Hexadecimal

Bytes are spelled by two lower-case digits each, the high half first. Reading
takes digits of either case, two at a time, and fails on any other character and
on a digit left over; what it reads spells the text again, in lower case.
-/

namespace XProject.Std.Hex

/-- The lower-case digit of a value below 16. -/
def digit (value : Nat) : UInt8 :=
  if value < 10 then UInt8.ofNat (value + 48) else UInt8.ofNat (value + 87)

/-- The value of a digit of either case. -/
def valueOf (char : UInt8) : Option Nat :=
  if 48 ≤ char.toNat ∧ char.toNat ≤ 57 then some (char.toNat - 48)
  else if 97 ≤ char.toNat ∧ char.toNat ≤ 102 then some (char.toNat - 87)
  else if 65 ≤ char.toNat ∧ char.toNat ≤ 70 then some (char.toNat - 55)
  else none

/-- A hexadecimal digit of either case. -/
def IsDigit (char : UInt8) : Prop :=
  (48 ≤ char.toNat ∧ char.toNat ≤ 57) ∨ (65 ≤ char.toNat ∧ char.toNat ≤ 70) ∨
    (97 ≤ char.toNat ∧ char.toNat ≤ 102)

instance (char : UInt8) : Decidable (IsDigit char) :=
  inferInstanceAs (Decidable (_ ∨ _ ∨ _))

theorem isDigit_iff {char : UInt8} : IsDigit char ↔ ∃ value, valueOf char = some value := by
  unfold IsDigit valueOf
  constructor
  · rintro (decimal | upper | lower)
    · exact ⟨_, if_pos decimal⟩
    · exact ⟨_, by rw [if_neg (by omega), if_neg (by omega), if_pos upper]⟩
    · exact ⟨_, by rw [if_neg (by omega), if_pos lower]⟩
  · rintro ⟨value, valued⟩
    split at valued
    · exact .inl ‹_›
    · split at valued
      · exact .inr (.inr ‹_›)
      · split at valued
        · exact .inr (.inl ‹_›)
        · cases valued

/-- The lower case of a letter. -/
def lower (char : UInt8) : UInt8 :=
  if 65 ≤ char.toNat ∧ char.toNat ≤ 90 then char + 32 else char

theorem toNat_digit {value : Nat} (small : value < 16) :
    (digit value).toNat = if value < 10 then value + 48 else value + 87 := by
  unfold digit
  split
  · rw [UInt8.toNat_ofNat', Nat.mod_eq_of_lt (by omega)]
  · rw [UInt8.toNat_ofNat', Nat.mod_eq_of_lt (by omega)]

/-- A digit has its value. -/
theorem valueOf_digit {value : Nat} (small : value < 16) : valueOf (digit value) = some value := by
  unfold valueOf
  rw [toNat_digit small]
  by_cases decimal : value < 10
  · rw [if_pos decimal, if_pos (by omega), Nat.add_sub_cancel]
  · rw [if_neg decimal, if_neg (by omega), if_pos (by omega), Nat.add_sub_cancel]

/-- Values are below 16, and their digits are the characters in lower case. -/
theorem valueOf_eq_some {char : UInt8} {value : Nat} (valued : valueOf char = some value) :
    value < 16 ∧ digit value = lower char := by
  have bound := char.toNat_lt
  unfold valueOf at valued
  unfold lower
  split at valued
  · cases valued
    refine ⟨by omega, UInt8.toNat_inj.mp ?_⟩
    rw [toNat_digit (by omega), if_pos (by omega), if_neg (by omega)]
    omega
  · split at valued
    · cases valued
      refine ⟨by omega, UInt8.toNat_inj.mp ?_⟩
      rw [toNat_digit (by omega), if_neg (by omega), if_neg (by omega)]
      omega
    · split at valued
      · cases valued
        refine ⟨by omega, UInt8.toNat_inj.mp ?_⟩
        rw [toNat_digit (by omega), if_neg (by omega), if_pos (by omega), UInt8.toNat_add]
        simp only [UInt8.reduceToNat]
        omega
      · cases valued

/-! ## Numerals -/

/-- The numeral of a number in lower case, without leading zeros. -/
def numeral (value : Nat) : List UInt8 :=
  if value < 16 then [digit value] else numeral (value / 16) ++ [digit (value % 16)]

/-- A numeral with zeros in front of it up to a width. -/
def padded (width value : Nat) : List UInt8 :=
  List.replicate (width - (numeral value).length) (digit 0) ++ numeral value

theorem length_numeral {value : Nat} : ∀ {count : Nat}, value < 16 ^ (count + 1) →
    (numeral value).length ≤ count + 1
  | 0, small => by
      rw [numeral, if_pos (by omega), List.length_singleton]
  | count + 1, bound => by
      rw [numeral]
      by_cases small : value < 16
      · rw [if_pos small, List.length_singleton]
        omega
      · have shorter : value / 16 < 16 ^ (count + 1) :=
          Nat.div_lt_of_lt_mul (by rwa [Nat.pow_succ'] at bound)
        have ih := length_numeral shorter
        rw [if_neg small, List.length_append, List.length_singleton]
        omega

theorem length_padded {width value count : Nat} (bound : value < 16 ^ (count + 1))
    (narrow : width ≤ count + 1) : (padded width value).length ≤ count + 1 := by
  have short := length_numeral bound
  rw [padded, List.length_append, List.length_replicate]
  omega

theorem mem_numeral {value : Nat} {char : UInt8} (inside : char ∈ numeral value) :
    ∃ v < 16, char = digit v := by
  induction value using numeral.induct with
  | case1 value small =>
      rw [numeral, if_pos small, List.mem_singleton] at inside
      exact ⟨value, small, inside⟩
  | case2 value large ih =>
      rw [numeral, if_neg large, List.mem_append, List.mem_singleton] at inside
      rcases inside with front | last
      · exact ih front
      · exact ⟨value % 16, Nat.mod_lt _ (by decide), last⟩

/-- A padded numeral has digits only. -/
theorem mem_padded {width value : Nat} {char : UInt8} (inside : char ∈ padded width value) :
    ∃ v < 16, char = digit v := by
  rcases List.mem_append.mp inside with zeros | rest
  · exact ⟨0, by decide, (List.mem_replicate.mp zeros).2⟩
  · exact mem_numeral rest

/-- A numeral has a first digit. -/
theorem padded_ne_nil (width value : Nat) : padded width value ≠ [] := by
  have some_ : numeral value ≠ [] := by
    rw [numeral]
    split
    · exact List.cons_ne_nil _ _
    · exact List.append_ne_nil_of_right_ne_nil _ (List.cons_ne_nil _ _)
  exact List.append_ne_nil_of_right_ne_nil _ some_

/-- The number that digits spell behind a number. -/
def numberFrom (number : Nat) : List UInt8 → Option Nat
  | [] => some number
  | char :: rest =>
      match valueOf char with
      | none => none
      | some value => numberFrom (number * 16 + value) rest

theorem numberFrom_append {front back : List UInt8} {number between : Nat}
    (read : numberFrom number front = some between) :
    numberFrom number (front ++ back) = numberFrom between back := by
  induction front generalizing number with
  | nil =>
      cases read
      rfl
  | cons char rest ih =>
      rw [numberFrom] at read
      rw [List.cons_append, numberFrom]
      cases valued : valueOf char with
      | none => simp [valued] at read
      | some value =>
          rw [valued] at read
          exact ih read

theorem numberFrom_digit {number value : Nat} (small : value < 16) :
    numberFrom number [digit value] = some (number * 16 + value) := by
  rw [numberFrom, valueOf_digit small]
  rfl

/-- The numeral of a number spells it. -/
theorem numberFrom_numeral (value : Nat) : numberFrom 0 (numeral value) = some value := by
  induction value using numeral.induct with
  | case1 value small =>
      rw [numeral, if_pos small, numberFrom_digit small, Nat.zero_mul, Nat.zero_add]
  | case2 value large ih =>
      rw [numeral, if_neg large, numberFrom_append ih, numberFrom_digit (Nat.mod_lt _ (by decide))]
      congr 1
      omega

/-- Zeros in front do not change it. -/
theorem numberFrom_padded (width value : Nat) : numberFrom 0 (padded width value) = some value := by
  have zeros : ∀ count, numberFrom 0 (List.replicate count (digit 0)) = some 0 := by
    intro count
    induction count with
    | zero => rfl
    | succ count ih =>
        rw [List.replicate_succ', numberFrom_append ih, numberFrom_digit (by decide)]
  rw [padded, numberFrom_append (zeros _), numberFrom_numeral]

/-- A number at the start of a text, and what is left behind its digits. -/
def readNumber (text : List UInt8) : Option (Nat × List UInt8) :=
  (numberFrom 0 (text.takeWhile fun char => decide (IsDigit char))).map fun number =>
    (number, text.dropWhile fun char => decide (IsDigit char))

/-- Digits are read up to the first character that is none. -/
theorem readNumber_append {digits rest : List UInt8} {number : Nat}
    (read : numberFrom 0 digits = some number) (only : ∀ char ∈ digits, IsDigit char)
    (ends : ∀ char ∈ rest.head?, ¬IsDigit char) :
    readNumber (digits ++ rest) = some (number, rest) := by
  have all : ∀ char ∈ digits, decide (IsDigit char) = true :=
    fun char inside => decide_eq_true (only char inside)
  rw [readNumber, List.takeWhile_append_of_pos all, List.dropWhile_append_of_pos all]
  cases rest with
  | nil =>
      rw [List.takeWhile_nil, List.dropWhile_nil, List.append_nil, read]
      rfl
  | cons char rest =>
      have stop : decide (IsDigit char) = false := decide_eq_false (ends char rfl)
      simp only [List.takeWhile_cons, List.dropWhile_cons, stop, Bool.false_eq_true, if_false,
        List.append_nil, read, Option.map_some]

theorem isDigit_digit {value : Nat} (small : value < 16) : IsDigit (digit value) :=
  isDigit_iff.mpr ⟨value, valueOf_digit small⟩

/-- A padded numeral is read up to the first character behind it that is no digit. -/
theorem readNumber_padded (width value : Nat) {rest : List UInt8}
    (ends : ∀ char ∈ rest.head?, ¬IsDigit char) :
    readNumber (padded width value ++ rest) = some (value, rest) := by
  refine readNumber_append (numberFrom_padded width value) (fun char inside => ?_) ends
  obtain ⟨v, small, rfl⟩ := mem_padded inside
  exact isDigit_digit small

theorem readNumber_numeral (value : Nat) {rest : List UInt8}
    (ends : ∀ char ∈ rest.head?, ¬IsDigit char) :
    readNumber (numeral value ++ rest) = some (value, rest) := by
  refine readNumber_append (numberFrom_numeral value) (fun char inside => ?_) ends
  obtain ⟨v, small, rfl⟩ := mem_numeral inside
  exact isDigit_digit small

/-! ## Bytes -/

/-- The two digits of a byte. -/
def pair (byte : UInt8) : List UInt8 := [digit (byte.toNat / 16), digit (byte.toNat % 16)]

/-- A byte's numeral padded to two digits. -/
theorem padded_two (byte : UInt8) : padded 2 byte.toNat = pair byte := by
  have bound := byte.toNat_lt
  by_cases small : byte.toNat < 16
  · have front : byte.toNat / 16 = 0 := by omega
    rw [padded, numeral, if_pos small, pair, front, Nat.mod_eq_of_lt small]
    rfl
  · have front : byte.toNat / 16 < 16 := by omega
    rw [padded, numeral, if_neg small, numeral, if_pos front, pair]
    rfl

/-- The digits of some bytes. -/
def spell (bytes : List UInt8) : List UInt8 := bytes.flatMap pair

/-- The bytes that digits spell, two digits each. -/
def decode : List UInt8 → Option (List UInt8)
  | [] => some []
  | [_] => none
  | high :: low :: rest =>
      match valueOf high, valueOf low, decode rest with
      | some high, some low, some bytes => some (UInt8.ofNat (high * 16 + low) :: bytes)
      | _, _, _ => none

theorem decode_cons {high low : UInt8} {rest : List UInt8} {bytes : List UInt8} :
    decode (high :: low :: rest) = some bytes ↔
      ∃ h l tail, valueOf high = some h ∧ valueOf low = some l ∧ decode rest = some tail ∧
        bytes = UInt8.ofNat (h * 16 + l) :: tail := by
  rw [decode]
  constructor
  · intro decoded
    split at decoded
    · rename_i h l tail isHigh isLow isRest
      cases decoded
      exact ⟨h, l, tail, isHigh, isLow, isRest, rfl⟩
    · cases decoded
  · rintro ⟨h, l, tail, isHigh, isLow, isRest, rfl⟩
    rw [isHigh, isLow, isRest]

/-- The digits of some bytes decode to them. -/
theorem decode_spell (bytes : List UInt8) : decode (spell bytes) = some bytes := by
  induction bytes with
  | nil => rfl
  | cons byte bytes ih =>
      have bound := byte.toNat_lt
      have same : UInt8.ofNat (byte.toNat / 16 * 16 + byte.toNat % 16) = byte := by
        apply UInt8.toNat_inj.mp
        rw [UInt8.toNat_ofNat']
        omega
      refine decode_cons.mpr ⟨_, _, bytes, valueOf_digit (by omega), valueOf_digit (by omega), ih, ?_⟩
      rw [same]

/-- What digits decode to is spelled by them in lower case. -/
theorem spell_of_decode : ∀ {text bytes : List UInt8}, decode text = some bytes →
    spell bytes = text.map lower
  | [], _, decoded => by
      cases decoded
      rfl
  | [_], _, decoded => by cases decoded
  | high :: low :: rest, bytes, decoded => by
      obtain ⟨h, l, tail, isHigh, isLow, isRest, rfl⟩ := decode_cons.mp decoded
      obtain ⟨smallHigh, digitHigh⟩ := valueOf_eq_some isHigh
      obtain ⟨smallLow, digitLow⟩ := valueOf_eq_some isLow
      have byte : (UInt8.ofNat (h * 16 + l)).toNat = h * 16 + l := by
        rw [UInt8.toNat_ofNat', Nat.mod_eq_of_lt (by omega)]
      have front : (h * 16 + l) / 16 = h := by omega
      have back : (h * 16 + l) % 16 = l := by omega
      rw [spell, List.flatMap_cons, ← spell, spell_of_decode isRest, pair, byte, front, back,
        digitHigh, digitLow]
      rfl

/-- Exactly the texts of an even number of digits decode. -/
theorem decode_exists_iff : ∀ text : List UInt8,
    (∃ bytes, decode text = some bytes) ↔ text.length % 2 = 0 ∧ ∀ char ∈ text, IsDigit char
  | [] => by simp [decode]
  | [_] => by simp [decode]
  | high :: low :: rest => by
      have ih := decode_exists_iff rest
      have parity : (high :: low :: rest).length % 2 = rest.length % 2 := by
        simp only [List.length_cons]
        omega
      rw [parity, List.forall_mem_cons, List.forall_mem_cons]
      constructor
      · rintro ⟨bytes, decoded⟩
        obtain ⟨h, l, tail, isHigh, isLow, isRest, _⟩ := decode_cons.mp decoded
        obtain ⟨even, digits⟩ := ih.mp ⟨tail, isRest⟩
        exact ⟨even, isDigit_iff.mpr ⟨h, isHigh⟩, isDigit_iff.mpr ⟨l, isLow⟩, digits⟩
      · rintro ⟨even, isHigh, isLow, digits⟩
        obtain ⟨tail, isRest⟩ := ih.mpr ⟨even, digits⟩
        obtain ⟨h, high_⟩ := isDigit_iff.mp isHigh
        obtain ⟨l, low_⟩ := isDigit_iff.mp isLow
        exact ⟨_, decode_cons.mpr ⟨h, l, tail, high_, low_, isRest, rfl⟩⟩

/-- What decodes to nothing is nothing. -/
theorem eq_nil_of_decode {text : List UInt8} (decoded : decode text = some []) : text = [] := by
  have spelled := spell_of_decode decoded
  exact List.map_eq_nil_iff.mp spelled.symm

end XProject.Std.Hex
