import XProject.Crypto.Base64
import Mathlib.Tactic.NormNum

/-!
# The loop of `base64Decode` on letters

Letter by letter the loop keeps the bytes completed so far in the output and the
bits of the next one in `bin`.
-/

namespace XProject.Base.Crypto

open XProject.Std
open XProject.Std.Base64

/-! ## Characters -/

/-- What holds of each of the 256 bytes holds of every byte. -/
theorem every_byte {motive : UInt8 → Prop} (each : ∀ bits : Fin 256, motive (UInt8.ofNat bits.val))
    (byte : UInt8) : motive byte := by
  have here := each ⟨byte.toNat, byte.toNat_lt⟩
  rwa [UInt8.ofNat_toNat] at here

theorem promoted_low : ∀ char : UInt8, char < 128 → (promoted char).toInt = char.toNat :=
  every_byte (by decide +kernel)

/-- The upper half of the characters is negative. -/
theorem promoted_high : ∀ char : UInt8, 128 ≤ char → (promoted char).toInt < 0 :=
  every_byte (by decide +kernel)

theorem letter_low : ∀ char : UInt8, IsLetter char → char < 128 :=
  every_byte (by decide +kernel)

theorem letter_ne_pad {char : UInt8} (letter : IsLetter char) : char ≠ pad := by
  rintro rfl
  exact not_isLetter_pad letter

/-- A letter's entry is its value. -/
theorem decodeTable_letter : ∀ char : UInt8, ∀ value ∈ valueOf char,
    BitVec.ofInt 8 (decodeTable.getD char.toNat 0) = BitVec.ofNat 8 value :=
  every_byte (by decide +kernel)

/-- Every other entry is negative. -/
theorem decodeTable_other : ∀ char : UInt8, ¬IsLetter char →
    (BitVec.ofInt 8 (decodeTable.getD char.toNat 0)).toInt < 0 :=
  every_byte (by decide +kernel)

variable {beside : Int → BitVec 8}

/-- The lower half of the characters is looked up inside the table. -/
theorem decodeTableAt_low {char : UInt8} (low : char < 128) :
    decodeTableAt beside (promoted char).toInt =
      BitVec.ofInt 8 (decodeTable.getD char.toNat 0) := by
  have size : decodeTable.length = 256 := by decide +kernel
  have bound := char.toNat_lt
  have inside : (0 : Int) ≤ char.toNat ∧ (char.toNat : Int) < decodeTable.length := by
    rw [size]
    exact ⟨Int.natCast_nonneg _, by omega⟩
  rw [promoted_low char low, decodeTableAt, if_pos inside, Int.toNat_natCast]

/-! ## Stores -/

theorem stores_append (index : UInt32) (front back : List UInt8) :
    stores index (front ++ back) =
      stores index front ++ stores (index + UInt32.ofNat front.length) back := by
  induction front generalizing index with
  | nil => exact congrArg (stores · back) (UInt32.add_zero index).symm
  | cons byte front ih =>
      have next : index + 1 + UInt32.ofNat front.length =
          index + UInt32.ofNat (front.length + 1) := by
        rw [UInt32.ofNat_add, UInt32.add_assoc, UInt32.add_comm 1]
        rfl
      simp only [List.cons_append, stores, ih, next, List.length_cons]

/-- The stores of a short sequence are below its length. -/
theorem mem_stores {bytes : List UInt8} (short : bytes.length < 2 ^ 32) {at_ : UInt32}
    {byte : UInt8} (stored : (at_, byte) ∈ stores 0 bytes) : at_.toNat < bytes.length := by
  have general : ∀ (bytes : List UInt8) (index : UInt32),
      index.toNat + bytes.length < 2 ^ 32 → (at_, byte) ∈ stores index bytes →
        at_.toNat < index.toNat + bytes.length := by
    intro bytes
    induction bytes with
    | nil =>
        intro index _ stored
        exact absurd stored List.not_mem_nil
    | cons other bytes ih =>
        intro index short stored
        rw [List.length_cons] at short ⊢
        have next : (index + 1).toNat = index.toNat + 1 := by
          rw [UInt32.toNat_add, show (1 : UInt32).toNat = 1 from rfl]
          omega
        rcases List.mem_cons.mp stored with here | behind
        · have same : at_ = index := congrArg Prod.fst here
          rw [same]
          omega
        · have later := ih (index + 1) (by omega) behind
          omega
  have whole := general bytes 0 (by rw [show (0 : UInt32).toNat = 0 from rfl]; omega) stored
  rwa [show (0 : UInt32).toNat = 0 from rfl, Nat.zero_add] at whole

/-! ## Letter by letter -/

/-- The letters have been taken and nothing else: their bytes are stored, and
the bits of the byte begun are in `bin`. -/
structure Consumed (letters : List UInt8) (scan : Scan) : Prop where
  all : ∀ char ∈ letters, IsLetter char
  i : scan.i = UInt32.ofNat letters.length
  index : scan.index = UInt32.ofNat (octets (sextets letters)).length
  output : scan.output = stores 0 (octets (sextets letters))
  bin : letters.length % 4 ≠ 0 → scan.bin = BitVec.ofNat 32 (pending (sextets letters))
  lookups : scan.lookups = letters.map fun char => (char.toNat : Int)

theorem start_consumed : Consumed [] Scan.start where
  all := by simp
  i := rfl
  index := rfl
  output := rfl
  bin := by simp
  lookups := rfl

/-- `i & 0x03`. -/
theorem phase_eq (count : Nat) : (UInt32.ofNat count &&& 0x03).toNat = count % 4 := by
  have masked : count % 2 ^ 32 &&& 3 = count % 2 ^ 32 % 4 := Nat.and_two_pow_sub_one_eq_mod _ 2
  rw [UInt32.toNat_and, UInt32.toNat_ofNat', show (0x03 : UInt32).toNat = 3 from rfl, masked]
  omega

/-- The shifts and masks of the switch on a six-bit value. -/
theorem switch_words {value : Nat} (small : value < 64) :
    BitVec.ofNat 32 value <<< 2 = BitVec.ofNat 32 (value * 4) ∧
      (BitVec.ofNat 32 value).sshiftRight 4 = BitVec.ofNat 32 (value / 16) ∧
      (BitVec.ofNat 32 value).sshiftRight 2 = BitVec.ofNat 32 (value / 4) ∧
      (BitVec.ofNat 32 value &&& 0x0f) <<< 4 = BitVec.ofNat 32 (value % 16 * 16) ∧
      (BitVec.ofNat 32 value &&& 0x03) <<< 6 = BitVec.ofNat 32 (value % 4 * 64) := by
  have every : ∀ value : Fin 64,
      BitVec.ofNat 32 value.val <<< 2 = BitVec.ofNat 32 (value.val * 4) ∧
        (BitVec.ofNat 32 value.val).sshiftRight 4 = BitVec.ofNat 32 (value.val / 16) ∧
        (BitVec.ofNat 32 value.val).sshiftRight 2 = BitVec.ofNat 32 (value.val / 4) ∧
        (BitVec.ofNat 32 value.val &&& 0x0f) <<< 4 = BitVec.ofNat 32 (value.val % 16 * 16) ∧
        (BitVec.ofNat 32 value.val &&& 0x03) <<< 6 = BitVec.ofNat 32 (value.val % 4 * 64) := by
    decide +kernel
  exact every ⟨value, small⟩

/-- Bits below the bits left are added by an or. -/
theorem or_pending {high low phase : Nat} (top : 4 ^ phase ∣ high) (below : low < 4 ^ phase) :
    BitVec.ofNat 32 high ||| BitVec.ofNat 32 low = BitVec.ofNat 32 (high + low) := by
  obtain ⟨count, rfl⟩ := top
  have power : 4 ^ phase = 2 ^ (2 * phase) := (Nat.pow_mul 2 2 phase).symm
  have disjoint := Nat.shiftLeft_add_eq_or_of_lt (power ▸ below) count
  rw [Nat.shiftLeft_eq, ← power, Nat.mul_comm] at disjoint
  rw [← BitVec.ofNat_or, disjoint]

/-- A `char` stored from an `int`. -/
theorem ofBitVec_setWidth (number : Nat) :
    UInt8.ofBitVec ((BitVec.ofNat 32 number).setWidth 8) = UInt8.ofNat number := by
  apply UInt8.toNat_inj.mp
  rw [UInt8.toNat_ofBitVec, BitVec.toNat_setWidth, BitVec.toNat_ofNat, UInt8.toNat_ofNat']
  omega

/-- The byte a letter completes, with the letters before it. -/
def completed (values : List Nat) (value : Nat) : List UInt8 :=
  if values.length % 4 = 0 then []
  else [UInt8.ofNat (pending values + value / 4 ^ (3 - values.length % 4))]

/-- What a letter does, in each case of the switch. -/
theorem take_eq {scan : Scan} {values : List Nat} {value : Nat} (small : value < 64)
    (i : scan.i = UInt32.ofNat values.length)
    (bin : values.length % 4 ≠ 0 → scan.bin = BitVec.ofNat 32 (pending values)) :
    ∃ left, scan.take (BitVec.ofNat 32 value) =
        { scan with
          bin := left
          i := scan.i + 1
          index := scan.index + UInt32.ofNat (completed values value).length
          output := scan.output ++ stores scan.index (completed values value) } ∧
      ((values.length + 1) % 4 ≠ 0 → left = BitVec.ofNat 32 (pending (values ++ [value]))) := by
  obtain ⟨first, second, third, low, lowest⟩ := switch_words small
  have phase : (scan.i &&& 0x03).toNat = values.length % 4 := by rw [i, phase_eq]
  have top := pending_dvd values
  rw [pending_snoc values small, completed]
  have cases : values.length % 4 = 0 ∨ values.length % 4 = 1 ∨ values.length % 4 = 2 ∨
      values.length % 4 = 3 := by omega
  rcases cases with zero | one | two | three
  · rw [zero] at phase ⊢
    refine ⟨BitVec.ofNat 32 (value * 4), ?_, fun _ => ?_⟩
    · simp [Scan.take, phase, first, stores]
    · rw [show 4 ^ (3 - 0) = 64 from rfl, Nat.mod_eq_of_lt small, Nat.zero_add, Nat.pow_one]
  · rw [one] at phase top ⊢
    have held := bin (by omega)
    have whole := or_pending top (show value / 16 < 4 ^ 1 by omega)
    refine ⟨BitVec.ofNat 32 (value % 16 * 16), ?_, fun _ => rfl⟩
    simp only [Scan.take, phase, Scan.put, held, second, low, whole, ofBitVec_setWidth]
    rfl
  · rw [two] at phase top ⊢
    have held := bin (by omega)
    have whole := or_pending top (show value / 4 < 4 ^ 2 by omega)
    refine ⟨BitVec.ofNat 32 (value % 4 * 64), ?_, fun _ => rfl⟩
    simp only [Scan.take, phase, Scan.put, held, third, lowest, whole, ofBitVec_setWidth]
    rfl
  · rw [three] at phase top ⊢
    have held := bin (by omega)
    have whole := or_pending top (show value < 4 ^ 3 by omega)
    refine ⟨BitVec.ofNat 32 (pending values + value), ?_, fun more => absurd ?_ more⟩
    · simp only [Scan.take, phase, Scan.put, held, whole, ofBitVec_setWidth]
      rw [if_neg (by decide), show 3 - 3 = 0 from rfl, Nat.pow_zero, Nat.div_one]
      rfl
    · omega

/-- A character other than `=` is looked up. -/
theorem decodeChar_data {char : UInt8} (data : char ≠ pad) (current : List UInt8) (scan : Scan) :
    decodeChar beside char current scan =
      if (decodeTableAt beside (promoted char).toInt).toInt < 0
      then .error (scan.look (promoted char).toInt)
      else .ok ((scan.look (promoted char).toInt).take
        ((decodeTableAt beside (promoted char).toInt).signExtend 32)) :=
  if_neg data

/-- A letter's entry as an operand of the switch. -/
theorem entry_words {value : Nat} (small : value < 64) :
    ¬(BitVec.ofNat 8 value).toInt < 0 ∧
      (BitVec.ofNat 8 value).signExtend 32 = BitVec.ofNat 32 value := by
  have every : ∀ value : Fin 64, ¬(BitVec.ofNat 8 value.val).toInt < 0 ∧
      (BitVec.ofNat 8 value.val).signExtend 32 = BitVec.ofNat 32 value.val := by decide +kernel
  exact every ⟨value, small⟩

/-- A letter passes, wherever it stands, and is consumed. -/
theorem Consumed.letter {letters : List UInt8} {scan : Scan} (consumed : Consumed letters scan)
    {char : UInt8} (letter : IsLetter char) (current : List UInt8) :
    ∃ next, decodeChar beside char current scan = .ok next ∧
      Consumed (letters ++ [char]) next := by
  obtain ⟨value, spelled⟩ := isLetter_iff.mp letter
  have small := valueOf_lt spelled
  have low := letter_low char letter
  have entry := decodeTable_letter char value spelled
  obtain ⟨passes, word⟩ := entry_words small
  have values : sextets (letters ++ [char]) = sextets letters ++ [value] := by
    rw [sextets_append, sextets, sextets, List.filterMap_cons_some spelled, List.filterMap_nil]
  have count := length_sextets consumed.all
  have snoc : octets (sextets letters ++ [value]) =
      octets (sextets letters) ++ completed (sextets letters) value := octets_snoc _ value
  obtain ⟨left, taken, held⟩ := @take_eq (scan.look (promoted char).toInt) (sextets letters) value
    small (by rw [count]; exact consumed.i) (by rw [count]; exact consumed.bin)
  refine ⟨(scan.look (promoted char).toInt).take (BitVec.ofNat 32 value), ?_, ?_⟩
  · rw [decodeChar_data (letter_ne_pad letter), decodeTableAt_low low, entry, if_neg passes, word]
  · rw [taken]
    simp only [Scan.look]
    constructor
    · intro other member
      rcases List.mem_append.mp member with before | last
      · exact consumed.all other before
      · rw [List.mem_singleton.mp last]
        exact letter
    · rw [consumed.i, List.length_append, UInt32.ofNat_add]
      rfl
    · rw [consumed.index, values, snoc, List.length_append, UInt32.ofNat_add]
    · rw [consumed.output, consumed.index, values, snoc, stores_append, UInt32.zero_add]
    · rw [values, List.length_append, List.length_singleton, ← count]
      exact held
    · rw [consumed.lookups, promoted_low char low, List.map_append]
      rfl

theorem decodeFrom_ok {ch : UInt8} {current : List UInt8} {scan next : Scan}
    (passed : decodeChar beside ch current scan = .ok next) :
    decodeFrom beside (ch :: current) scan = decodeFrom beside current next :=
  congrArg (· >>= decodeFrom beside current) passed

theorem decodeFrom_error {ch : UInt8} {current : List UInt8} {scan final : Scan}
    (failed : decodeChar beside ch current scan = .error final) :
    decodeFrom beside (ch :: current) scan = .error final :=
  congrArg (· >>= decodeFrom beside current) failed

/-- Letters pass one after the other. -/
theorem Consumed.run {front : List UInt8} {scan : Scan} (consumed : Consumed front scan)
    {letters : List UInt8} (all : ∀ char ∈ letters, IsLetter char) (rest : List UInt8) :
    ∃ next, decodeFrom beside (letters ++ rest) scan = decodeFrom beside rest next ∧
      Consumed (front ++ letters) next := by
  induction letters generalizing front scan with
  | nil =>
      rw [List.append_nil]
      exact ⟨scan, rfl, consumed⟩
  | cons char letters ih =>
      obtain ⟨middle, passed, through⟩ := consumed.letter (all char (by simp)) (letters ++ rest)
      obtain ⟨next, run, behind⟩ := ih through
        fun other member => all other (List.mem_cons_of_mem _ member)
      rw [List.append_assoc] at behind
      refine ⟨next, ?_, behind⟩
      rw [List.cons_append, decodeFrom_ok passed, run]

/-- The letters in front of a text are consumed, whatever follows them. -/
theorem letters_run (beside : Int → BitVec 8) {letters : List UInt8}
    (all : ∀ char ∈ letters, IsLetter char) (rest : List UInt8) :
    ∃ scan, decodeFrom beside (letters ++ rest) .start = decodeFrom beside rest scan ∧
      Consumed letters scan :=
  start_consumed.run all rest

end XProject.Base.Crypto
