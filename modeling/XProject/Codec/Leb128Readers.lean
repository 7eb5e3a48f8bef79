import XProject.Codec.Leb128
import XProject.Std.Base128
import Mathlib.Tactic.IntervalCases

/-!
# What the LEB128 readers accept

A grammar bounds the number of bytes and the integer they spell. Each reader
accepts exactly the sequences of its grammar and stores the integer spelled.
-/

namespace XProject.Base.Leb128

open XProject.Std
open XProject.Std.Base128

/-- At most `limit` bytes spelling, by `value`, an integer from `low` up to
below `high`. -/
structure Grammar where
  limit : Nat
  value : List UInt8 → Int
  low : Int
  high : Int

namespace Grammar

/-- The first `length` bytes of `p` are a word of the grammar and end there. -/
structure Accepts (grammar : Grammar) (p : List UInt8) (length : Nat) : Prop where
  positive : 0 < length
  terminated : terminator p = some (length - 1)
  short : length ≤ grammar.limit
  low : grammar.low ≤ grammar.value (p.take length)
  high : grammar.value (p.take length) < grammar.high

/-- A reader accepts exactly the words of the grammar, with the integer they
spell as its result, and returns 0 on everything else. -/
structure RecognizedBy {width : Nat} (grammar : Grammar)
    (read : List UInt8 → BitVec width → Nat × BitVec width) : Prop where
  length_iff : ∀ p outValue length, 0 < length →
    ((read p outValue).1 = length ↔ grammar.Accepts p length)
  value : ∀ p outValue length, grammar.Accepts p length →
    (read p outValue).2 = BitVec.ofInt width (grammar.value (p.take length))
  refused : ∀ p outValue, (¬∃ length, grammar.Accepts p length) → (read p outValue).1 = 0

/-- The integer spelled is in range. -/
def InRange (grammar : Grammar) (bytes : List UInt8) : Prop :=
  grammar.low ≤ grammar.value bytes ∧ grammar.value bytes < grammar.high

/-- It suffices to follow the reader to the terminator: within the limit it
checks the range, and without a terminator there it refuses. -/
theorem RecognizedBy.of_terminator {width : Nat} {grammar : Grammar}
    {read : List UInt8 → BitVec width → Nat × BitVec width}
    (accepted : ∀ p outValue index, terminator p = some index → index < grammar.limit →
      grammar.InRange (p.take (index + 1)) →
      read p outValue = (index + 1, BitVec.ofInt width (grammar.value (p.take (index + 1)))))
    (overflowing : ∀ p outValue index, terminator p = some index → index < grammar.limit →
      ¬grammar.InRange (p.take (index + 1)) → (read p outValue).1 = 0)
    (unterminated : ∀ p outValue, (∀ index, terminator p = some index → grammar.limit ≤ index) →
      (read p outValue).1 = 0) :
    grammar.RecognizedBy read := by
  have onWord : ∀ p outValue length, grammar.Accepts p length →
      read p outValue = (length, BitVec.ofInt width (grammar.value (p.take length))) := by
    intro p outValue length accepts
    obtain ⟨index, rfl⟩ : ∃ index, length = index + 1 :=
      ⟨length - 1, by have positive := accepts.positive; omega⟩
    exact accepted p outValue index accepts.terminated accepts.short ⟨accepts.low, accepts.high⟩
  have onRest : ∀ p outValue, (¬∃ length, grammar.Accepts p length) →
      (read p outValue).1 = 0 := by
    intro p outValue noWord
    by_cases early : ∃ index, terminator p = some index ∧ index < grammar.limit
    · obtain ⟨index, ends, short⟩ := early
      refine overflowing p outValue index ends short fun inRange => noWord ⟨index + 1, ?_⟩
      exact ⟨Nat.succ_pos index, ends, short, inRange.1, inRange.2⟩
    · refine unterminated p outValue fun index ends => ?_
      by_contra short
      exact early ⟨index, ends, by omega⟩
  constructor
  · intro p outValue length positive
    constructor
    · intro returned
      by_cases word : ∃ other, grammar.Accepts p other
      · obtain ⟨other, accepts⟩ := word
        rw [onWord p outValue other accepts] at returned
        have same : other = length := returned
        rwa [← same]
      · have zero := onRest p outValue word
        omega
    · intro accepts
      rw [onWord p outValue length accepts]
  · intro p outValue length accepts
    rw [onWord p outValue length accepts]
  · exact onRest

/-- The form all readers have: up to the limit a check of the last byte decides
whether the integer is in range, and without a terminator there nothing is read. -/
theorem RecognizedBy.of_check {width : Nat} {grammar : Grammar}
    {read : List UInt8 → BitVec width → Nat × BitVec width}
    {overflows : List UInt8 → Nat → Prop} [∀ p index, Decidable (overflows p index)]
    (inRange_iff : ∀ {p : List UInt8} {index : Nat}, index < p.length → index < grammar.limit →
      (grammar.InRange (p.take (index + 1)) ↔ ¬overflows p index))
    (terminated : ∀ {p : List UInt8} {index : Nat}, terminator p = some index →
      index < grammar.limit → ∀ outValue, read p outValue =
        if overflows p index then (0, outValue)
        else (index + 1, BitVec.ofInt width (grammar.value (p.take (index + 1)))))
    (unterminated : ∀ {p : List UInt8}, (∀ index, terminator p = some index →
      grammar.limit ≤ index) → ∀ outValue, (read p outValue).1 = 0) :
    grammar.RecognizedBy read := by
  refine .of_terminator ?_ ?_ fun p outValue late => unterminated late outValue
  · intro p outValue index ends short inRange
    have fits := (inRange_iff (terminator_lt ends) short).mp inRange
    rw [terminated ends short, if_neg fits]
  · intro p outValue index ends short outOfRange
    have overflow := not_not.mp (outOfRange ∘ (inRange_iff (terminator_lt ends) short).mpr)
    rw [terminated ends short, if_pos overflow]

end Grammar

/-- The grammar of `ReadU32Leb128`. -/
def u32Grammar : Grammar := ⟨5, fun bytes => magnitude bytes, 0, 2 ^ 32⟩

/-- The grammar of `ReadS32Leb128`. -/
def s32Grammar : Grammar := ⟨5, signedMagnitude, -2 ^ 31, 2 ^ 31⟩

/-- The grammar of `ReadS64Leb128`. -/
def s64Grammar : Grammar := ⟨10, signedMagnitude, -2 ^ 63, 2 ^ 63⟩

/-! ## Terminators -/

theorem getD_of_lt {p : List UInt8} {index : Nat} (inside : index < p.length) :
    p.getD index 0 = p[index] := by
  simp [inside]

theorem stopsAt_eq {p : List UInt8} {index : Nat} (inside : index < p.length) :
    stopsAt p index = !continues p[index] := by
  rw [stopsAt, getD_of_lt inside]
  simp [inside, and_high]

theorem continues_of_stopsAt {p : List UInt8} {index : Nat} (inside : index < p.length)
    (stops : stopsAt p index = true) : continues (p.getD index 0) = false := by
  rw [stopsAt_eq inside] at stops
  rw [getD_of_lt inside]
  simpa using stops

/-- A cascade test succeeds at the terminator and at no byte before it. -/
theorem stopsAt_terminator {p : List UInt8} {index : Nat} (ends : terminator p = some index) :
    index < p.length ∧ stopsAt p index = true ∧
      ∀ before < index, stopsAt p before = false := by
  rw [terminator, List.findIdx?_eq_some_iff_getElem] at ends
  obtain ⟨inside, stops, continuing⟩ := ends
  refine ⟨inside, ?_, ?_⟩
  · rw [stopsAt_eq inside]
    exact stops
  · intro before earlier
    have more := continuing before earlier
    rw [stopsAt_eq (by omega)]
    simpa using more

/-- Without a terminator below `limit` no cascade test below `limit` succeeds. -/
theorem stopsAt_unterminated {p : List UInt8} {limit : Nat}
    (late : ∀ index, terminator p = some index → limit ≤ index) :
    ∀ index < limit, stopsAt p index = false := by
  intro index below
  by_cases inside : index < p.length
  · have member : p[index] ∈ p.take limit :=
      List.mem_take_iff_getElem.mpr ⟨index, by omega, rfl⟩
    have more := continuing_take_iff.mpr late _ member
    rw [stopsAt_eq inside, more]
    rfl
  · simp [stopsAt, inside]

/-! ## Accumulated values -/

theorem magnitude_take_succ {p : List UInt8} {index : Nat} (inside : index < p.length) :
    magnitude (p.take (index + 1)) =
      magnitude (p.take index) + 2 ^ (7 * index) * group (p.getD index 0) := by
  have length : (p.take index).length = index := List.length_take_of_le (by omega)
  rw [List.take_succ_eq_append_getElem inside, magnitude_append, length, magnitude_cons,
    magnitude_nil, getD_of_lt inside]
  simp

theorem magnitude_take_lt (p : List UInt8) (count : Nat) :
    magnitude (p.take count) < 2 ^ (7 * count) := by
  have bound := magnitude_lt (p.take count)
  have grows : 2 ^ (7 * (p.take count).length) ≤ 2 ^ (7 * count) :=
    Nat.pow_le_pow_right (by decide) (Nat.mul_le_mul_left 7 (List.length_take_le ..))
  omega

theorem byteAt_eq {width : Nat} (wide : 8 ≤ width) (p : List UInt8) (index shift : Nat) :
    byteAt width p index shift = BitVec.ofNat width (group (p.getD index 0) <<< shift) := by
  have byteFits : (p.getD index 0).toNat < 2 ^ width :=
    lt_of_lt_of_le (p.getD index 0).toNat_lt (Nat.pow_le_pow_right (by decide) wide)
  have maskFits : 127 < 2 ^ width :=
    lt_of_lt_of_le (by decide) (Nat.pow_le_pow_right (by decide) wide)
  apply BitVec.eq_of_toNat_eq
  simp only [byteAt, BitVec.toNat_shiftLeft, BitVec.toNat_and, BitVec.toNat_setWidth,
    UInt8.toNat_toBitVec, BitVec.toNat_ofNat, Nat.mod_eq_of_lt byteFits, Nat.mod_eq_of_lt maskFits,
    and_low]

/-- `LEB128_n(type)` is the number spelled by the first `n` bytes, cut to the type. -/
theorem leb128_eq {width : Nat} (wide : 8 ≤ width) (p : List UInt8) (count : Nat)
    (inside : count ≤ p.length) :
    leb128 width p count = BitVec.ofNat width (magnitude (p.take count)) := by
  induction count with
  | zero => rfl
  | succ index ih =>
      have grown := @magnitude_take_succ p index (by omega)
      cases index with
      | zero =>
          rw [leb128, byteAt_eq wide, grown]
          simp
      | succ index =>
          have below := magnitude_take_lt p (index + 1)
          have disjoint := Nat.shiftLeft_add_eq_or_of_lt below (group (p.getD (index + 1) 0))
          rw [leb128, byteAt_eq wide, ih (by omega), ← BitVec.ofNat_or, ← disjoint, grown,
            Nat.shiftLeft_eq, Nat.mul_comm, Nat.add_comm]

/-- Shifting the sign bit up and arithmetically down again extends the sign. -/
theorem signExtend_ofNat {width signBit : Nat} (inside : signBit < width) (value : Nat)
    (bound : value < 2 ^ (signBit + 1)) :
    signExtend (BitVec.ofNat width value) signBit =
      BitVec.ofInt width (BitVec.ofNat (signBit + 1) value).toInt := by
  obtain ⟨spare, rfl⟩ := Nat.exists_eq_add_of_le inside
  have amount : signBit.succ + spare - 1 - signBit = spare := by omega
  have turn : 2 ^ (signBit.succ + spare) = 2 ^ (signBit + 1) * 2 ^ spare := Nat.pow_add ..
  have scaled : value * 2 ^ spare < 2 ^ (signBit.succ + spare) := by
    rw [turn]
    exact Nat.mul_lt_mul_of_pos_right bound (Nat.two_pow_pos spare)
  have fits : value < 2 ^ (signBit.succ + spare) :=
    lt_of_lt_of_le bound (Nat.pow_le_pow_right (by decide) (by omega))
  have halves : 2 * (value * 2 ^ spare) < 2 ^ (signBit + 1) * 2 ^ spare ↔
      2 * value < 2 ^ (signBit + 1) := by
    rw [← Nat.mul_assoc]
    exact Nat.mul_lt_mul_right (Nat.two_pow_pos spare)
  have shifted : (BitVec.ofNat (signBit.succ + spare) value <<< spare).toInt =
      (BitVec.ofNat (signBit + 1) value).toInt * 2 ^ spare := by
    rw [BitVec.toInt_eq_toNat_cond, BitVec.toInt_eq_toNat_cond, BitVec.toNat_shiftLeft,
      BitVec.toNat_ofNat, BitVec.toNat_ofNat, Nat.mod_eq_of_lt fits, Nat.mod_eq_of_lt bound,
      Nat.shiftLeft_eq, Nat.mod_eq_of_lt scaled, turn]
    simp only [halves]
    split
    · push_cast
      ring
    · push_cast
      ring
  have unscaled : (BitVec.ofNat (signBit + 1) value).toInt * 2 ^ spare / 2 ^ spare =
      (BitVec.ofNat (signBit + 1) value).toInt :=
    Int.mul_ediv_cancel _ (by positivity)
  rw [signExtend, amount, BitVec.sshiftRight_eq, shifted, Int.shiftRight_eq_div_pow]
  push_cast
  rw [unscaled]

/-- Reading `count` bytes and extending from their top bit gives the signed
integer spelled, where the type has room for all of their bits. -/
theorem signExtend_leb128 {width count : Nat} (positive : 0 < count) (wide : 8 ≤ width)
    (fits : 7 * count ≤ width) {p : List UInt8} (inside : count ≤ p.length) :
    signExtend (leb128 width p count) (7 * count - 1) =
      BitVec.ofInt width (signedMagnitude (p.take count)) := by
  have length : (p.take count).length = count := List.length_take_of_le inside
  obtain ⟨signBit, bits⟩ : ∃ signBit, 7 * count = signBit + 1 := ⟨7 * count - 1, by omega⟩
  have bound := magnitude_take_lt p count
  rw [leb128_eq wide p count inside, signedMagnitude, length]
  rw [bits] at bound ⊢
  exact signExtend_ofNat (by omega) _ bound

/-- Where the groups fill the word, the signed and the unsigned reading have the same bits. -/
theorem ofInt_signedMagnitude {width : Nat} {bytes : List UInt8} (full : width ≤ 7 * bytes.length) :
    BitVec.ofInt width (signedMagnitude bytes) = BitVec.ofNat width (magnitude bytes) := by
  rw [signedMagnitude_eq]
  split
  · simp
  · obtain ⟨spare, bits⟩ := Nat.exists_eq_add_of_le full
    have turn : (2 : Int) ^ (7 * bytes.length) = (2 ^ width : Nat) * 2 ^ spare := by
      rw [bits, pow_add]
      push_cast
      rfl
    apply BitVec.eq_of_toNat_eq
    rw [BitVec.toNat_ofInt, BitVec.toNat_ofNat, turn, Int.sub_mul_emod_self_left]
    exact Int.toNat_natCast _

/-- The same for the first `count` bytes, as a reader accumulates them. -/
theorem ofInt_signedMagnitude_take {width count : Nat} (wide : 8 ≤ width)
    (full : width ≤ 7 * count) {p : List UInt8} (inside : count ≤ p.length) :
    BitVec.ofInt width (signedMagnitude (p.take count)) = leb128 width p count := by
  have length : (p.take count).length = count := List.length_take_of_le inside
  rw [ofInt_signedMagnitude (by omega), leb128_eq wide p count inside]

/-! ## The last partial group -/

/-- A property of the bytes without a continuation bit can be tested on all of them. -/
@[elab_as_elim]
theorem last_byte_cases {motive : UInt8 → Prop} (byte : UInt8) (last : continues byte = false)
    (every : ∀ bits : Fin 128, motive (UInt8.ofNat bits.val)) : motive byte := by
  have small : byte.toNat < 128 := by
    have bound := byte.toNat_lt
    simpa [continues] using last
  have here := every ⟨byte.toNat, small⟩
  rwa [UInt8.ofNat_toNat] at here

section LastGroup

variable (byte : UInt8) (last : continues byte = false)
include last

/-- The check of `ReadU32Leb128` on its fifth byte. -/
theorem u32_last_iff : (byte &&& 0xf0 != 0) = false ↔ group byte < 16 := by
  refine last_byte_cases byte last ?_
  decide +kernel

/-- The check of `ReadS32Leb128` on its fifth byte. -/
theorem s32_last_iff :
    ((byte &&& 0x8 != 0 && byte &&& 0xf0 != 0x70) ||
      (!(byte &&& 0x8 != 0) && byte &&& 0xf0 != 0)) = false ↔
      group byte < 8 ∨ 120 ≤ group byte := by
  refine last_byte_cases byte last ?_
  decide +kernel

/-- The check of `ReadS64Leb128` on its tenth byte. -/
theorem s64_last_iff :
    ((byte &&& 0x1 != 0 && byte &&& 0xfe != 0x7e) ||
      (!(byte &&& 0x1 != 0) && byte &&& 0xfe != 0)) = false ↔
      group byte < 1 ∨ 127 ≤ group byte := by
  refine last_byte_cases byte last ?_
  decide +kernel

end LastGroup

/-- Five bytes spell less than `2 ^ 32` exactly when the last group has four bits. -/
theorem magnitude_five_lt_iff {p : List UInt8} (inside : 4 < p.length) :
    magnitude (p.take 5) < 2 ^ 32 ↔ group (p.getD 4 0) < 16 := by
  have total := magnitude_take_succ inside
  have front := magnitude_take_lt p 4
  norm_num [-List.getD_eq_getElem?_getD] at total front
  omega

/-- Five bytes spell a signed 32-bit number exactly when the last group repeats
its fourth bit. -/
theorem signedMagnitude_five_iff {p : List UInt8} (inside : 4 < p.length) :
    (-2 ^ 31 ≤ signedMagnitude (p.take 5) ∧ signedMagnitude (p.take 5) < 2 ^ 31) ↔
      group (p.getD 4 0) < 8 ∨ 120 ≤ group (p.getD 4 0) := by
  have total := magnitude_take_succ inside
  have front := magnitude_take_lt p 4
  have last := group_lt (p.getD 4 0)
  have length : (p.take 5).length = 5 := List.length_take_of_le inside
  rw [signedMagnitude_eq, length]
  norm_num [-List.getD_eq_getElem?_getD] at total front ⊢
  split <;> omega

/-- Ten bytes spell a signed 64-bit number exactly when the last group repeats
its first bit. -/
theorem signedMagnitude_ten_iff {p : List UInt8} (inside : 9 < p.length) :
    (-2 ^ 63 ≤ signedMagnitude (p.take 10) ∧ signedMagnitude (p.take 10) < 2 ^ 63) ↔
      group (p.getD 9 0) < 1 ∨ 127 ≤ group (p.getD 9 0) := by
  have total := magnitude_take_succ inside
  have front := magnitude_take_lt p 9
  have last := group_lt (p.getD 9 0)
  have length : (p.take 10).length = 10 := List.length_take_of_le inside
  rw [signedMagnitude_eq, length]
  norm_num [-List.getD_eq_getElem?_getD] at total front ⊢
  split <;> omega

/-! ## What the readers return -/

section Returns

variable {p : List UInt8} {index : Nat}

/-- `ReadU32Leb128` on a sequence that ends within its five bytes. -/
theorem readU32Leb128_terminated (ends : terminator p = some index) (short : index < 5)
    (outValue : BitVec 32) :
    readU32Leb128 p outValue =
      if index = 4 ∧ ¬group (p.getD 4 0) < 16 then (0, outValue)
      else (index + 1, BitVec.ofNat 32 (magnitude (p.take (index + 1)))) := by
  obtain ⟨inside, stops, earlier⟩ := stopsAt_terminator ends
  rw [← leb128_eq (by decide) p (index + 1) inside]
  by_cases full : index = 4
  · subst full
    have check := u32_last_iff _ (continues_of_stopsAt inside stops)
    by_cases fits : group (p.getD 4 0) < 16
    · have passes := check.mpr fits
      rw [if_neg fun both => both.2 fits]
      simp only [readU32Leb128, stops, earlier, Nat.reduceLT, passes, Bool.false_eq_true, if_false,
        if_true]
    · have fails := eq_true_of_ne_false fun passes => fits (check.mp passes)
      rw [if_pos ⟨rfl, fits⟩]
      simp only [readU32Leb128, stops, earlier, Nat.reduceLT, fails, Bool.false_eq_true, if_false,
        if_true]
  · have partial_ : index < 4 := by omega
    rw [if_neg fun both => full both.1]
    interval_cases index <;> simp [readU32Leb128, stops, earlier]

/-- `ReadU32Leb128` on a sequence that does not end within its five bytes. -/
theorem readU32Leb128_unterminated (late : ∀ index, terminator p = some index → 5 ≤ index)
    (outValue : BitVec 32) : readU32Leb128 p outValue = (0, 0) := by
  have passed := stopsAt_unterminated late
  simp [readU32Leb128, passed]

/-- `ReadS32Leb128` on a sequence that ends within its five bytes. -/
theorem readS32Leb128_terminated (ends : terminator p = some index) (short : index < 5)
    (outValue : BitVec 32) :
    readS32Leb128 p outValue =
      if index = 4 ∧ ¬(group (p.getD 4 0) < 8 ∨ 120 ≤ group (p.getD 4 0)) then (0, outValue)
      else (index + 1, BitVec.ofInt 32 (signedMagnitude (p.take (index + 1)))) := by
  obtain ⟨inside, stops, earlier⟩ := stopsAt_terminator ends
  have extended := @signExtend_leb128 32 _ (Nat.succ_pos index) (by decide)
  by_cases full : index = 4
  · subst full
    have check := s32_last_iff _ (continues_of_stopsAt inside stops)
    have bits := @ofInt_signedMagnitude_take 32 5 (by decide) (by decide) p inside
    by_cases fits : group (p.getD 4 0) < 8 ∨ 120 ≤ group (p.getD 4 0)
    · have passes := check.mpr fits
      rw [if_neg fun both => both.2 fits, bits]
      simp only [readS32Leb128, stops, earlier, Nat.reduceLT, passes, Bool.false_eq_true, if_false,
        if_true]
    · have fails := eq_true_of_ne_false fun passes => fits (check.mp passes)
      rw [if_pos ⟨rfl, fits⟩]
      simp only [readS32Leb128, stops, earlier, Nat.reduceLT, fails, Bool.false_eq_true, if_false,
        if_true]
  · have partial_ : index < 4 := by omega
    rw [if_neg fun both => full both.1, ← extended (by omega) inside]
    interval_cases index <;> simp [readS32Leb128, stops, earlier]

/-- `ReadS32Leb128` on a sequence that does not end within its five bytes. -/
theorem readS32Leb128_unterminated (late : ∀ index, terminator p = some index → 5 ≤ index)
    (outValue : BitVec 32) : readS32Leb128 p outValue = (0, outValue) := by
  have passed := stopsAt_unterminated late
  simp [readS32Leb128, passed]

/-- `ReadS64Leb128` on a sequence that ends within its ten bytes. -/
theorem readS64Leb128_terminated (ends : terminator p = some index) (short : index < 10)
    (outValue : BitVec 64) :
    readS64Leb128 p outValue =
      if index = 9 ∧ ¬(group (p.getD 9 0) < 1 ∨ 127 ≤ group (p.getD 9 0)) then (0, outValue)
      else (index + 1, BitVec.ofInt 64 (signedMagnitude (p.take (index + 1)))) := by
  obtain ⟨inside, stops, earlier⟩ := stopsAt_terminator ends
  have extended := @signExtend_leb128 64 _ (Nat.succ_pos index) (by decide)
  by_cases full : index = 9
  · subst full
    have check := s64_last_iff _ (continues_of_stopsAt inside stops)
    have bits := @ofInt_signedMagnitude_take 64 10 (by decide) (by decide) p inside
    by_cases fits : group (p.getD 9 0) < 1 ∨ 127 ≤ group (p.getD 9 0)
    · have passes := check.mpr fits
      rw [if_neg fun both => both.2 fits, bits]
      simp only [readS64Leb128, stops, earlier, Nat.reduceLT, passes, Bool.false_eq_true, if_false,
        if_true]
    · have fails := eq_true_of_ne_false fun passes => fits (check.mp passes)
      rw [if_pos ⟨rfl, fits⟩]
      simp only [readS64Leb128, stops, earlier, Nat.reduceLT, fails, Bool.false_eq_true, if_false,
        if_true]
  · have partial_ : index < 9 := by omega
    rw [if_neg fun both => full both.1, ← extended (by omega) inside]
    interval_cases index <;> simp [readS64Leb128, stops, earlier]

/-- `ReadS64Leb128` on a sequence that does not end within its ten bytes. -/
theorem readS64Leb128_unterminated (late : ∀ index, terminator p = some index → 10 ≤ index)
    (outValue : BitVec 64) : readS64Leb128 p outValue = (0, outValue) := by
  have passed := stopsAt_unterminated late
  simp [readS64Leb128, passed]

/-! ## Ranges -/

/-- Below the limit of the bytes only the last byte allowed can leave the range. -/
theorem u32_inRange_iff (inside : index < p.length) (short : index < 5) :
    u32Grammar.InRange (p.take (index + 1)) ↔ ¬(index = 4 ∧ ¬group (p.getD 4 0) < 16) := by
  have bound := magnitude_take_lt p (index + 1)
  simp only [Grammar.InRange, u32Grammar]
  by_cases full : index = 4
  · subst full
    have five : magnitude (p.take (4 + 1)) < 2 ^ 32 ↔ group (p.getD 4 0) < 16 :=
      magnitude_five_lt_iff inside
    simp only [not_and, not_not, true_implies]
    omega
  · have smaller : 2 ^ (7 * (index + 1)) ≤ 2 ^ 28 := Nat.pow_le_pow_right (by decide) (by omega)
    have kept : ¬(index = 4 ∧ ¬group (p.getD 4 0) < 16) := fun both => full both.1
    simp only [kept, not_false_iff, iff_true]
    omega

/-- Before the last byte allowed no signed integer leaves the range. -/
theorem signedMagnitude_inside {last : Nat} {half : Int} (inside : index < p.length)
    (before : index ≤ last) (roomy : 64 * 128 ^ last ≤ half) :
    -half ≤ signedMagnitude (p.take (index + 1)) ∧ signedMagnitude (p.take (index + 1)) < half := by
  have length : (p.take (index + 1)).length = index + 1 := List.length_take_of_le inside
  have bounds := signedMagnitude_bounds length
  have smaller : (128 : Int) ^ index ≤ 128 ^ last := pow_le_pow_right₀ (by decide) before
  omega

theorem s32_inRange_iff (inside : index < p.length) (short : index < 5) :
    s32Grammar.InRange (p.take (index + 1)) ↔
      ¬(index = 4 ∧ ¬(group (p.getD 4 0) < 8 ∨ 120 ≤ group (p.getD 4 0))) := by
  by_cases full : index = 4
  · subst full
    simp only [not_and, not_not, true_implies]
    exact signedMagnitude_five_iff inside
  · have early : index ≤ 3 := by omega
    exact iff_of_true (signedMagnitude_inside inside early (by decide)) fun both => full both.1

theorem s64_inRange_iff (inside : index < p.length) (short : index < 10) :
    s64Grammar.InRange (p.take (index + 1)) ↔
      ¬(index = 9 ∧ ¬(group (p.getD 9 0) < 1 ∨ 127 ≤ group (p.getD 9 0))) := by
  by_cases full : index = 9
  · subst full
    simp only [not_and, not_not, true_implies]
    exact signedMagnitude_ten_iff inside
  · have early : index ≤ 8 := by omega
    exact iff_of_true (signedMagnitude_inside inside early (by decide)) fun both => full both.1

end Returns

/-! ## Recognition -/

theorem u32_recognized : u32Grammar.RecognizedBy readU32Leb128 := by
  refine .of_check u32_inRange_iff (fun ends short outValue => ?_) fun late outValue => ?_
  · rw [readU32Leb128_terminated ends short]
    simp [u32Grammar]
  · rw [readU32Leb128_unterminated late]

theorem s32_recognized : s32Grammar.RecognizedBy readS32Leb128 := by
  refine .of_check s32_inRange_iff readS32Leb128_terminated fun late outValue => ?_
  rw [readS32Leb128_unterminated late]

theorem s64_recognized : s64Grammar.RecognizedBy readS64Leb128 := by
  refine .of_check s64_inRange_iff readS64Leb128_terminated fun late outValue => ?_
  rw [readS64Leb128_unterminated late]

/-- Each LEB128 reader accepts exactly its grammar and stores the integer spelled. -/
theorem readers_recognize :
    u32Grammar.RecognizedBy readU32Leb128 ∧ s32Grammar.RecognizedBy readS32Leb128 ∧
      s64Grammar.RecognizedBy readS64Leb128 :=
  ⟨u32_recognized, s32_recognized, s64_recognized⟩

end XProject.Base.Leb128
