import Mathlib.Data.Nat.Digits.Defs
import Mathlib.Tactic.Ring

/-!
# Base-128 groups with continuation bits

A byte carries a seven-bit group and a continuation bit. This module fixes what
a byte sequence spells, as a natural number and as a two's-complement integer of
seven bits a group, where a sequence ends, and the shortest spelling of each
number. Readers and writers of this form are proved against these definitions.
-/

namespace XProject.Std.Base128

/-- The low seven bits of a byte. -/
def group (byte : UInt8) : Nat := byte.toNat % 128

/-- The high bit of a byte: another byte follows. -/
def continues (byte : UInt8) : Bool := 128 ≤ byte.toNat

/-- The natural number spelled by the groups, least significant first. -/
def magnitude (bytes : List UInt8) : Nat := Nat.ofDigits 128 (bytes.map group)

/-- The two's-complement integer of seven bits a byte spelled by the groups. -/
def signedMagnitude (bytes : List UInt8) : Int :=
  (BitVec.ofNat (7 * bytes.length) (magnitude bytes)).toInt

/-- The index of the first byte without a continuation bit. -/
def terminator (bytes : List UInt8) : Option Nat := bytes.findIdx? fun byte => !continues byte

/-- Every byte but the last continues, and the last does not. -/
structure Terminated (bytes : List UInt8) : Prop where
  nonempty : bytes ≠ []
  continuing : ∀ byte ∈ bytes.dropLast, continues byte = true
  stops : continues (bytes.getLast nonempty) = false

theorem group_lt (byte : UInt8) : group byte < 128 := Nat.mod_lt _ (by decide)

/-- Masking with `0x7f` leaves the group. -/
theorem and_low (byte : UInt8) : byte.toNat &&& 127 = group byte :=
  Nat.and_two_pow_sub_one_eq_mod byte.toNat 7

/-- Testing with `0x80` finds the continuation bit. -/
theorem and_high (byte : UInt8) : (byte &&& 128 == 0) = !continues byte := by
  have every : ∀ bits : Fin 256, (UInt8.ofNat bits.val &&& 128 == 0) =
      !continues (UInt8.ofNat bits.val) := by decide +kernel
  have here := every ⟨byte.toNat, byte.toNat_lt⟩
  rwa [UInt8.ofNat_toNat] at here

theorem two_pow_seven_mul (count : Nat) : 2 ^ (7 * count) = 128 ^ count := by
  rw [Nat.pow_mul]

@[simp] theorem magnitude_nil : magnitude [] = 0 := rfl

theorem magnitude_cons (byte : UInt8) (rest : List UInt8) :
    magnitude (byte :: rest) = group byte + 128 * magnitude rest := by
  simp [magnitude, Nat.ofDigits_cons]

theorem magnitude_append (front rest : List UInt8) :
    magnitude (front ++ rest) = magnitude front + 2 ^ (7 * front.length) * magnitude rest := by
  rw [two_pow_seven_mul]
  simp [magnitude, Nat.ofDigits_append]

/-- `n` groups spell less than `2 ^ (7 * n)`. -/
theorem magnitude_lt (bytes : List UInt8) : magnitude bytes < 2 ^ (7 * bytes.length) := by
  have digits : ∀ digit ∈ bytes.map group, digit < 128 := by
    intro digit member
    obtain ⟨byte, _, rfl⟩ := List.mem_map.mp member
    exact group_lt byte
  have bound := Nat.ofDigits_lt_base_pow_length (by decide) digits
  rwa [List.length_map, ← two_pow_seven_mul] at bound

/-- The signed reading subtracts a full turn from the upper half. -/
theorem signedMagnitude_eq (bytes : List UInt8) :
    signedMagnitude bytes = if 2 * magnitude bytes < 2 ^ (7 * bytes.length)
      then (magnitude bytes : Int) else magnitude bytes - 2 ^ (7 * bytes.length) := by
  rw [signedMagnitude, BitVec.toInt_eq_toNat_cond, BitVec.toNat_ofNat,
    Nat.mod_eq_of_lt (magnitude_lt bytes)]
  split <;> simp

theorem signedMagnitude_singleton (byte : UInt8) :
    signedMagnitude [byte] = if group byte < 64 then (group byte : Int) else group byte - 128 := by
  rw [signedMagnitude_eq, magnitude_cons]
  simp only [List.length_singleton, magnitude_nil]
  norm_num
  have halves : 2 * group byte < 128 ↔ group byte < 64 := by omega
  simp only [halves]

/-- A further byte in front shifts the signed reading by one group. -/
theorem signedMagnitude_cons (byte : UInt8) {rest : List UInt8} (nonempty : rest ≠ []) :
    signedMagnitude (byte :: rest) = group byte + 128 * signedMagnitude rest := by
  have positive := List.length_pos_iff.mpr nonempty
  have low := group_lt byte
  obtain ⟨more, length⟩ : ∃ more, rest.length = more + 1 := ⟨rest.length - 1, by omega⟩
  have turn : 2 ^ (7 * (byte :: rest).length) = 128 * 2 ^ (7 * rest.length) := by
    rw [List.length_cons, Nat.mul_succ, Nat.pow_add, Nat.mul_comm]
  have even : 2 ^ (7 * rest.length) = 2 * (64 * 2 ^ (7 * more)) := by
    rw [length, Nat.mul_succ, Nat.pow_add]
    ring
  have halves : 2 * (group byte + 128 * magnitude rest) < 128 * 2 ^ (7 * rest.length) ↔
      2 * magnitude rest < 2 ^ (7 * rest.length) := by
    omega
  have castTurn : (2 : Int) ^ (7 * (byte :: rest).length) = 128 * 2 ^ (7 * rest.length) := by
    exact_mod_cast turn
  rw [signedMagnitude_eq, signedMagnitude_eq, magnitude_cons, turn, castTurn]
  simp only [halves]
  split
  · push_cast
    ring
  · push_cast
    ring

/-- The terminator of a terminated sequence is its last byte, whatever follows. -/
theorem Terminated.terminator_append {bytes : List UInt8} (terminated : Terminated bytes)
    (rest : List UInt8) : terminator (bytes ++ rest) = some (bytes.length - 1) := by
  obtain ⟨nonempty, continuing, stops⟩ := terminated
  have positive := List.length_pos_iff.mpr nonempty
  rw [terminator, List.findIdx?_eq_some_iff_getElem]
  refine ⟨by rw [List.length_append]; omega, ?_, ?_⟩
  · rw [List.getElem_append_left (by omega), ← List.getLast_eq_getElem nonempty, stops]
    rfl
  · intro index before
    rw [List.getElem_append_left (by omega)]
    have inFront : index < bytes.dropLast.length := by
      rw [List.length_dropLast]
      exact before
    have member : bytes.dropLast[index] ∈ bytes.dropLast := List.getElem_mem inFront
    rw [List.getElem_dropLast] at member
    simp [continuing _ member]

/-- Prefixing a continuing byte keeps a sequence terminated. -/
theorem Terminated.cons {bytes : List UInt8} (terminated : Terminated bytes) {byte : UInt8}
    (more : continues byte = true) : Terminated (byte :: bytes) where
  nonempty := List.cons_ne_nil _ _
  continuing := by
    intro other member
    rw [List.dropLast_cons_of_ne_nil terminated.nonempty] at member
    rcases List.mem_cons.mp member with rfl | member
    · exact more
    · exact terminated.continuing other member
  stops := by
    rw [List.getLast_cons terminated.nonempty]
    exact terminated.stops

/-- The first byte of a longer terminated sequence continues, and what follows
it is terminated. -/
theorem Terminated.uncons {byte next : UInt8} {rest : List UInt8}
    (terminated : Terminated (byte :: next :: rest)) :
    continues byte = true ∧ Terminated (next :: rest) := by
  obtain ⟨_, continuing, stops⟩ := terminated
  rw [List.dropLast_cons_cons] at continuing
  refine ⟨continuing byte (by simp), List.cons_ne_nil _ _, ?_, ?_⟩
  · intro other member
    exact continuing other (List.mem_cons_of_mem _ member)
  · rwa [List.getLast_cons (List.cons_ne_nil _ _)] at stops

theorem Terminated.singleton {byte : UInt8} (last : continues byte = false) :
    Terminated [byte] where
  nonempty := List.cons_ne_nil _ _
  continuing := by simp
  stops := last

/-- Every byte of a terminated sequence cut short continues. -/
theorem Terminated.continuing_of_proper {bytes cut : List UInt8} (terminated : Terminated bytes)
    (part : cut <+: bytes) (proper : cut ≠ bytes) : ∀ byte ∈ cut, continues byte = true := by
  have whole := List.dropLast_concat_getLast terminated.nonempty
  rw [← whole] at part
  rcases List.prefix_concat_iff.mp part with all | inFront
  · exact absurd (all.trans whole) proper
  · intro byte member
    exact terminated.continuing byte (inFront.mem member)

theorem terminator_lt {bytes : List UInt8} {index : Nat} (ends : terminator bytes = some index) :
    index < bytes.length :=
  (List.findIdx?_eq_some_iff_getElem.mp ends).1

/-- The bytes up to the terminator are a terminated sequence. -/
theorem Terminated.of_terminator {bytes : List UInt8} {index : Nat}
    (ends : terminator bytes = some index) : Terminated (bytes.take (index + 1)) := by
  induction bytes generalizing index with
  | nil => cases ends
  | cons byte rest ih =>
      rw [terminator, List.findIdx?_cons] at ends
      cases more : continues byte with
      | false =>
          rw [more] at ends
          cases ends
          exact .singleton more
      | true =>
          rw [more] at ends
          obtain ⟨before, found, rfl⟩ := Option.map_eq_some_iff.mp ends
          rw [List.take_succ_cons]
          exact (ih found).cons more

/-- Without a terminator every byte continues. -/
theorem terminator_eq_none_iff {bytes : List UInt8} :
    terminator bytes = none ↔ ∀ byte ∈ bytes, continues byte = true := by
  simp [terminator]

/-- The first bytes all continue exactly when no terminator is among them. -/
theorem continuing_take_iff {bytes : List UInt8} {limit : Nat} :
    (∀ byte ∈ bytes.take limit, continues byte = true) ↔
      ∀ index, terminator bytes = some index → limit ≤ index := by
  rw [← terminator_eq_none_iff, terminator, List.findIdx?_take, Option.bind_eq_none_iff]
  simp [terminator]

/-- `n` groups spell a signed number below half a turn on either side. -/
theorem signedMagnitude_bounds {bytes : List UInt8} {more : Nat}
    (length : bytes.length = more + 1) :
    -(64 * 128 ^ more : Int) ≤ signedMagnitude bytes ∧ signedMagnitude bytes < 64 * 128 ^ more := by
  have bound := magnitude_lt bytes
  have turn : 2 ^ (7 * bytes.length) = 2 * (64 * 128 ^ more) := by
    rw [two_pow_seven_mul, length, Nat.pow_succ]
    omega
  have castTurn : (2 : Int) ^ (7 * bytes.length) = 2 * (64 * 128 ^ more) := by exact_mod_cast turn
  have castHalf : ((64 * 128 ^ more : Nat) : Int) = 64 * 128 ^ more := by push_cast; ring
  rw [signedMagnitude_eq, castTurn, turn]
  rw [turn] at bound
  rw [← castHalf]
  split <;> omega

/-! ## Shortest spellings -/

/-- The shortest spelling of a natural number. -/
def unsigned (value : Nat) : List UInt8 :=
  if value < 128 then [UInt8.ofNat value]
  else UInt8.ofNat (value % 128 + 128) :: unsigned (value / 128)
termination_by value

/-- The shortest spelling of an integer: the last group repeats its sign bit. -/
def signed (value : Int) : List UInt8 :=
  if (value / 128 = 0 ∧ value % 128 < 64) ∨ (value / 128 = -1 ∧ 64 ≤ value % 128) then
    [UInt8.ofNat (value % 128).toNat]
  else UInt8.ofNat ((value % 128).toNat + 128) :: signed (value / 128)
termination_by value.natAbs
decreasing_by omega

theorem group_ofNat (low : Nat) (bound : low < 128) : group (UInt8.ofNat low) = low := by
  rw [group, UInt8.toNat_ofNat']
  omega

theorem group_ofNat_more (low : Nat) (bound : low < 128) : group (UInt8.ofNat (low + 128)) = low := by
  rw [group, UInt8.toNat_ofNat']
  omega

theorem continues_ofNat (low : Nat) (bound : low < 128) : continues (UInt8.ofNat low) = false := by
  rw [continues, UInt8.toNat_ofNat', decide_eq_false_iff_not]
  omega

theorem continues_ofNat_more (low : Nat) (bound : low < 128) :
    continues (UInt8.ofNat (low + 128)) = true := by
  rw [continues, UInt8.toNat_ofNat', decide_eq_true_eq]
  omega

theorem unsigned_terminated (value : Nat) : Terminated (unsigned value) := by
  induction value using unsigned.induct with
  | case1 value small =>
      rw [unsigned, if_pos small]
      exact .singleton (continues_ofNat value small)
  | case2 value large ih =>
      rw [unsigned, if_neg large]
      exact ih.cons (continues_ofNat_more _ (Nat.mod_lt _ (by decide)))

theorem magnitude_unsigned (value : Nat) : magnitude (unsigned value) = value := by
  induction value using unsigned.induct with
  | case1 value small =>
      rw [unsigned, if_pos small, magnitude_cons, group_ofNat value small]
      rfl
  | case2 value large ih =>
      rw [unsigned, if_neg large, magnitude_cons, ih,
        group_ofNat_more _ (Nat.mod_lt _ (by decide))]
      omega

/-- A number of at most `7 * (more + 1)` bits is spelled by `more + 1` bytes. -/
theorem length_unsigned_le (value more : Nat) (bound : value < 128 ^ (more + 1)) :
    (unsigned value).length ≤ more + 1 := by
  induction more generalizing value with
  | zero => simp [unsigned, show value < 128 by simpa using bound]
  | succ more ih =>
      rw [unsigned]
      split
      · simp
      · have smaller : value / 128 < 128 ^ (more + 1) := by
          rw [Nat.div_lt_iff_lt_mul (by decide), ← Nat.pow_succ]
          exact bound
        have tail := ih (value / 128) smaller
        simp only [List.length_cons]
        omega

/-- A smaller number is spelled by no more bytes. -/
theorem length_unsigned_mono {small large : Nat} (le : small ≤ large) :
    (unsigned small).length ≤ (unsigned large).length := by
  induction small using unsigned.induct generalizing large with
  | case1 small last =>
      rw [unsigned, if_pos last, unsigned.eq_def large]
      split <;> simp
  | case2 small more ih =>
      have larger : ¬large < 128 := by omega
      rw [unsigned, if_neg more, unsigned.eq_def large, if_neg larger, List.length_cons,
        List.length_cons]
      exact Nat.succ_le_succ (ih (Nat.div_le_div_right le))

theorem signed_terminated (value : Int) : Terminated (signed value) := by
  induction value using signed.induct with
  | case1 value last =>
      rw [signed, if_pos last]
      exact .singleton (continues_ofNat _ (by omega))
  | case2 value notLast ih =>
      rw [signed, if_neg notLast]
      exact ih.cons (continues_ofNat_more _ (by omega))

theorem signedMagnitude_signed (value : Int) : signedMagnitude (signed value) = value := by
  induction value using signed.induct with
  | case1 value last =>
      rw [signed, if_pos last, signedMagnitude_singleton, group_ofNat _ (by omega)]
      split <;> omega
  | case2 value notLast ih =>
      rw [signed, if_neg notLast, signedMagnitude_cons _ (signed_terminated _).nonempty, ih,
        group_ofNat_more _ (by omega)]
      omega

/-- An integer is spelled by `more + 1` bytes exactly when it fits in
`7 * (more + 1)` bits with its sign. -/
theorem length_signed_le_iff (value : Int) (more : Nat) :
    (signed value).length ≤ more + 1 ↔
      -(64 * 128 ^ more : Int) ≤ value ∧ value < 64 * 128 ^ more := by
  constructor
  · intro short
    obtain ⟨exact_, length⟩ : ∃ exact_, (signed value).length = exact_ + 1 := by
      have positive := List.length_pos_iff.mpr (signed_terminated value).nonempty
      exact ⟨(signed value).length - 1, by omega⟩
    have bounds := signedMagnitude_bounds length
    rw [signedMagnitude_signed] at bounds
    have grows : (128 : Int) ^ exact_ ≤ 128 ^ more :=
      pow_le_pow_right₀ (by decide) (by omega)
    omega
  · rintro ⟨low, high⟩
    induction more generalizing value with
    | zero =>
        rw [signed, if_pos (by omega)]
        simp
    | succ more ih =>
        rw [signed]
        split
        · simp
        · have scaled : (128 : Int) ^ (more + 1) = 128 * 128 ^ more := by ring
          have tail := ih (value / 128) (by omega) (by omega)
          simp only [List.length_cons]
          omega

/-- The value of a word is spelled by enough bytes to hold its bits. -/
theorem length_signed_le {width more : Nat} (roomy : width ≤ 7 * (more + 1))
    (value : BitVec width) : (signed value.toInt).length ≤ more + 1 := by
  have turn : (64 * 128 ^ more : Int) = 2 ^ (6 + 7 * more) := by
    rw [pow_add, pow_mul]
    norm_num
  have wide : (2 : Int) ^ (width - 1) ≤ 2 ^ (6 + 7 * more) :=
    pow_le_pow_right₀ (by decide) (by omega)
  have low := value.le_toInt
  have high := value.toInt_lt
  rw [length_signed_le_iff, turn]
  omega

/-! ## Groups of machine words -/

/-- The byte `value & 0x7f`. -/
theorem lowByte_eq {width : Nat} (wide : 7 ≤ width) (value : BitVec width) :
    UInt8.ofBitVec ((value &&& BitVec.ofNat width 127).setWidth 8) =
      UInt8.ofNat (value.toNat % 128) := by
  have fits : 127 < 2 ^ width :=
    lt_of_lt_of_le (by decide) (Nat.pow_le_pow_right (by decide) wide)
  apply UInt8.toNat_inj.mp
  rw [UInt8.toNat_ofBitVec, BitVec.toNat_setWidth, BitVec.toNat_and, BitVec.toNat_ofNat,
    Nat.mod_eq_of_lt fits, UInt8.toNat_ofNat']
  exact congrArg (· % 2 ^ 8) (Nat.and_two_pow_sub_one_eq_mod value.toNat 7)

/-- The byte `uint8_t(value) & 0x7f`. -/
theorem byte_and_low {width : Nat} (value : BitVec width) :
    UInt8.ofBitVec (value.setWidth 8) &&& 0x7f = UInt8.ofNat (value.toNat % 128) := by
  apply UInt8.toNat_inj.mp
  rw [UInt8.toNat_and, UInt8.toNat_ofBitVec, BitVec.toNat_setWidth, UInt8.toNat_ofNat']
  have masked : value.toNat % 2 ^ 8 &&& 127 = value.toNat % 2 ^ 8 % 128 :=
    Nat.and_two_pow_sub_one_eq_mod _ 7
  rw [show (0x7f : UInt8).toNat = 127 from rfl, masked]
  omega

/-- Setting the continuation bit of a group adds 128. -/
theorem ofNat_or_more (low : Nat) (bound : low < 128) :
    UInt8.ofNat low ||| 0x80 = UInt8.ofNat (low + 128) := by
  have every : ∀ bits : Fin 128, UInt8.ofNat bits.val ||| 0x80 = UInt8.ofNat (bits.val + 128) := by
    decide +kernel
  exact every ⟨low, bound⟩

/-- Testing with `0x40` finds the sign bit of a group. -/
theorem ofNat_and_sign (low : Nat) (bound : low < 128) :
    (UInt8.ofNat low &&& 0x40 != 0) = decide (64 ≤ low) := by
  have every : ∀ bits : Fin 128, (UInt8.ofNat bits.val &&& 0x40 != 0) = decide (64 ≤ bits.val) := by
    decide +kernel
  exact every ⟨low, bound⟩

theorem ofNat_and_sign_clear (low : Nat) (bound : low < 128) :
    (UInt8.ofNat low &&& 0x40 == 0) = !decide (64 ≤ low) := by
  rw [← ofNat_and_sign low bound, bne, Bool.not_not]

section Words

variable {width : Nat}

theorem toInt_shifted (value : BitVec width) :
    (value.sshiftRight 7).toInt = value.toInt / 128 := by
  rw [BitVec.toInt_sshiftRight, Int.shiftRight_eq_div_pow]
  rfl

/-- The low group of a word is that of the integer it stands for. -/
theorem toNat_mod_eq (wide : 7 ≤ width) (value : BitVec width) :
    value.toNat % 128 = (value.toInt % 128).toNat := by
  obtain ⟨more, rfl⟩ := Nat.exists_eq_add_of_le wide
  have turn : 2 ^ (7 + more) = 128 * 2 ^ more := Nat.pow_add 2 7 more
  rw [BitVec.toInt_eq_toNat_cond, turn]
  push_cast
  split <;> omega

/-- A word equals a constant when the integers they stand for are equal. -/
theorem shifted_eq_iff (value : BitVec width) (constant : BitVec width) :
    value.sshiftRight 7 = constant ↔ value.toInt / 128 = constant.toInt := by
  rw [← BitVec.toInt_inj, toInt_shifted]

theorem toInt_neg_one (wide : 7 ≤ width) : (-1 : BitVec width).toInt = -1 := by
  have allOnes : (-1 : BitVec width) = BitVec.allOnes width := BitVec.neg_one_eq_allOnes
  rw [allOnes, BitVec.toInt_allOnes, if_pos (by omega)]

end Words

end XProject.Std.Base128
