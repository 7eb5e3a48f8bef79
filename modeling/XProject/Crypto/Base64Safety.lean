import XProject.Crypto.Base64Decode

/-!
# What `base64Decode` reads and writes

The stores stay below the length predicted from the last two characters, which
fits the output, whatever the padding looks like. The table is read inside its
256 entries as long as no character of the upper half is reached: its index is
negative.
-/

namespace XProject.Base.Crypto

open XProject.Std
open XProject.Std.Base64

variable {beside : Int → BitVec 8} {text : List UInt8} {outLen : UInt32}

/-! ## Table indices -/

/-- The state when the loop ends, either way. -/
def ended : Except Scan Scan → Scan
  | .error scan => scan
  | .ok scan => scan

theorem take_lookups (ch : BitVec 32) (scan : Scan) : (scan.take ch).lookups = scan.lookups := by
  simp only [Scan.take]
  split <;> rfl

theorem decodeChar_lookups {ch : UInt8} {current : List UInt8} {scan : Scan} {at_ : Int}
    (member : at_ ∈ scan.lookups) : at_ ∈ (ended (decodeChar beside ch current scan)).lookups := by
  by_cases equals : ch = pad
  · rw [decodeChar, if_pos (show ch = 61 from equals)]
    split
    · exact member
    · split <;> exact member
  · rw [decodeChar_data equals]
    have grown : at_ ∈ (scan.look (promoted ch).toInt).lookups := List.mem_append_left _ member
    split
    · exact grown
    · rw [ended, take_lookups]
      exact grown

/-- An index that was used stays in the list. -/
theorem decodeFrom_lookups {current : List UInt8} {scan : Scan} {at_ : Int}
    (member : at_ ∈ scan.lookups) : at_ ∈ (ended (decodeFrom beside current scan)).lookups := by
  induction current generalizing scan with
  | nil => exact member
  | cons ch current ih =>
      have here := @decodeChar_lookups beside ch current scan at_ member
      cases passed : decodeChar beside ch current scan with
      | error final =>
          rw [passed] at here
          rw [decodeFrom_error passed]
          exact here
      | ok next =>
          rw [passed] at here
          rw [decodeFrom_ok passed]
          exact ih here

/-- A character other than `=` is looked up where it is reached. -/
theorem data_lookups {ch : UInt8} (data : ch ≠ pad) (current : List UInt8) (scan : Scan) :
    (promoted ch).toInt ∈ (ended (decodeFrom beside (ch :: current) scan)).lookups := by
  have used : (promoted ch).toInt ∈ (scan.look (promoted ch).toInt).lookups :=
    List.mem_append_right _ (List.mem_singleton_self _)
  have result := @decodeChar_data beside ch data current scan
  split at result
  · rw [decodeFrom_error result]
    exact used
  · rw [decodeFrom_ok result]
    refine decodeFrom_lookups ?_
    rw [take_lookups]
    exact used

/-- A call reports every index used in its loop. -/
theorem base64Decode_lookups (entered : Entered text outLen) :
    (base64Decode beside text outLen).lookups =
      (ended (decodeFrom beside text .start)).lookups := by
  obtain ⟨some_, aligned, roomy⟩ := entered.checks
  rw [base64Decode, if_neg some_, if_neg aligned, if_neg roomy]
  cases decodeFrom beside text .start with
  | error scan => rfl
  | ok scan =>
      dsimp only
      split <;> rfl

/-- A character of the upper half that is reached is an index below the table. -/
theorem HighReached.lookup {letters : List UInt8} {char : UInt8}
    (reached : HighReached text letters char) (entered : Entered text outLen) :
    ∃ at_ ∈ (base64Decode beside text outLen).lookups, at_ < 0 := by
  have data : char ≠ pad := by
    rintro rfl
    exact absurd reached.high (by decide)
  refine ⟨(promoted char).toInt, ?_, promoted_high char reached.high⟩
  rw [base64Decode_lookups entered]
  rcases reached.place with ⟨rest, shape⟩ | shape
  · obtain ⟨scan, run, _⟩ := letters_run beside reached.all (char :: rest)
    rw [shape, run]
    exact data_lookups data rest scan
  · obtain ⟨scan, run, consumed⟩ := letters_run beside reached.all [pad, char]
    have second : (scan.i &&& 0x03).toNat ≠ 1 := by
      have aligned := entered.aligned
      rw [shape, List.length_append, List.length_cons, List.length_singleton] at aligned
      rw [consumed.phase]
      omega
    have passed := @decodeChar_pad beside [char] (le_refl _) scan second
    rw [shape, run, decodeFrom_ok passed]
    exact data_lookups data [] scan

/-- The indices of characters of the lower half, or of letters, are in the table. -/
theorem codes_inside (chars : List UInt8) :
    ∀ at_ ∈ chars.map fun char => (char.toNat : Int), 0 ≤ at_ ∧ at_ < 256 := by
  intro at_ member
  obtain ⟨char, _, rfl⟩ := List.mem_map.mp member
  have bound := char.toNat_lt
  omega

theorem Stopped.lookups {letters : List UInt8} (stopped : Stopped beside text letters)
    (entered : Entered text outLen) :
    ∀ at_ ∈ (base64Decode beside text outLen).lookups, 0 ≤ at_ ∧ at_ < 256 := by
  rw [base64Decode_lookups entered]
  obtain ⟨scan, consumed, behind | ⟨char, low, behind⟩⟩ := stopped.run
  · rw [behind, ended, consumed.lookups]
    exact codes_inside letters
  · rw [behind, ended, Scan.look, consumed.lookups, promoted_low char low]
    intro at_ member
    rcases List.mem_append.mp member with before | here
    · exact codes_inside letters at_ before
    · exact codes_inside [char] at_ here

/-- The table is read inside its entries, and bytes that are neither letters nor
`=` are refused. -/
structure SafeOnBytes (beside : Int → BitVec 8) (text : List UInt8) (outLen : UInt32) : Prop where
  indices : ∀ at_ ∈ (base64Decode beside text outLen).lookups, 0 ≤ at_ ∧ at_ < 256
  refuses : (∃ byte ∈ text, ¬IsLetter byte ∧ byte ≠ pad) →
    (base64Decode beside text outLen).returned = false

/-- A padded text, or one with a letter behind `=`, has nothing to refuse. -/
theorem safeOnBytes_accepted {taken : List UInt8}
    (lookups : (base64Decode beside text outLen).lookups =
      taken.map fun char => (char.toNat : Int))
    (plain : ∀ byte ∈ text, IsLetter byte ∨ byte = pad) : SafeOnBytes beside text outLen where
  indices := by
    rw [lookups]
    exact codes_inside taken
  refuses := by
    rintro ⟨byte, member, other, data⟩
    rcases plain byte member with letter | equals
    · exact absurd letter other
    · exact absurd equals data

/-- Decoding is safe on exactly those inputs that are refused before the loop or on which
no character of the upper half is reached. Its counter `i` wraps. -/
theorem safeOnBytes_iff (beside : Int → BitVec 8) (text : List UInt8) (outLen : UInt32)
    (short : text.length < 2 ^ 32) :
    SafeOnBytes beside text outLen ↔
      ¬(Entered text outLen ∧ ∃ letters char, HighReached text letters char) := by
  constructor
  · rintro safe ⟨entered, letters, char, reached⟩
    obtain ⟨at_, member, below⟩ :=
      @HighReached.lookup beside text outLen letters char reached entered
    have inside := safe.indices at_ member
    omega
  · intro condition
    by_cases entered : Entered text outLen
    · rcases text_cases beside entered.nonempty entered.aligned with
        ⟨letters, pads, padded⟩ | ⟨letters, last, misplaced⟩ | ⟨letters, stopped⟩ | reached
      · have result := @accepts_padded beside text outLen letters pads padded short entered
        refine safeOnBytes_accepted (by rw [result]) fun byte member => ?_
        rw [padded.shape] at member
        rcases List.mem_append.mp member with front | back
        · exact .inl (padded.letters byte front)
        · exact .inr (List.eq_of_mem_replicate back)
      · have result := @accepts_misplaced beside text outLen letters last misplaced short entered
        refine safeOnBytes_accepted (by rw [result]) fun byte member => ?_
        rw [misplaced.shape] at member
        rcases List.mem_append.mp member with front | back
        · exact .inl (misplaced.letters byte front)
        · rcases List.mem_cons.mp back with equals | behind
          · exact .inr equals
          · rw [List.mem_singleton.mp behind]
            exact .inl misplaced.last
      · exact ⟨stopped.lookups entered, fun _ => stopped.refused outLen⟩
      · exact absurd ⟨entered, reached⟩ condition
    · have result := @base64Decode_refused beside text outLen entered
      constructor
      · rw [result]
        intro at_ member
        exact absurd member List.not_mem_nil
      · intro _
        rw [result]
        rfl

/-- A text of four letters. -/
theorem safeOnBytes_iff_letters :
    let text : List UInt8 := [84, 87, 70, 117]
    SafeOnBytes (fun _ => 0) text 3 ↔
      ¬(Entered text 3 ∧ ∃ letters char, HighReached text letters char) :=
  safeOnBytes_iff (fun _ => 0) [84, 87, 70, 117] 3 (by decide)

/-- The byte 0x80 in front of three letters reads `DecodeTable[-128]`. -/
theorem safeOnBytes_high : ¬SafeOnBytes (fun _ => 0) [0x80, 65, 65, 65] 3 := by
  intro safe
  have read : -128 ∈ (base64Decode (fun _ => 0) [0x80, 65, 65, 65] 3).lookups := by decide +kernel
  have inside := safe.indices (-128) read
  exact absurd inside.1 (by decide)

/-! ## Stores -/

/-- Stores of at most the predicted length are below the capacity. -/
theorem stores_below {bytes : List UInt8} (entered : Entered text outLen)
    (short : text.length < 2 ^ 32) (few : bytes.length ≤ expectLen text) {at_ : UInt32}
    {byte : UInt8} (stored : (at_, byte) ∈ stores 0 bytes) : at_.toNat < outLen.toNat := by
  have long := entered.long
  have expected := @expectLen_eq text (by omega)
  have room := entered.expectLen_le
  have below := mem_stores (by omega) stored
  omega

/-- No more is stored behind a part of the text than its other characters leave
room for. -/
theorem Stopped.few {letters : List UInt8} (stopped : Stopped beside text letters)
    (entered : Entered text outLen) : letters.length * 3 / 4 ≤ expectLen text := by
  have long := entered.long
  have expected := @expectLen_eq text (by omega)
  have rest := stopped.rest
  have aligned := entered.aligned
  have two : (text.drop (text.length - 2)).count pad ≤ (text.drop (text.length - 2)).length :=
    List.count_le_length
  rw [List.length_drop] at two
  omega

/-- A refused call leaves `out_len` alone. -/
theorem refused_outLen (refused : (base64Decode beside text outLen).returned = false) :
    (base64Decode beside text outLen).outLen = outLen := by
  by_cases entered : Entered text outLen
  · obtain ⟨some_, aligned, roomy⟩ := entered.checks
    rw [base64Decode, if_neg some_, if_neg aligned, if_neg roomy] at refused ⊢
    cases run : decodeFrom beside text .start with
    | error scan => rfl
    | ok scan =>
        rw [run] at refused
        dsimp only at refused ⊢
        split at refused
        · rename_i differs
          rw [if_pos differs]
          rfl
        · cases refused
  · rw [base64Decode_refused entered]
    rfl

/-- On characters of the lower half every store is below the capacity, and a call that
returns false leaves `out_len` alone. The counter `i` wraps. -/
theorem respects_capacity (beside : Int → BitVec 8) (text : List UInt8) (outLen : UInt32)
    (short : text.length < 2 ^ 32) (sevenBit : ∀ char ∈ text, char < 128) :
    (∀ at_ byte, (at_, byte) ∈ (base64Decode beside text outLen).output → at_ < outLen) ∧
      ((base64Decode beside text outLen).returned = false →
        (base64Decode beside text outLen).outLen = outLen) := by
  refine ⟨fun at_ byte stored => ?_, refused_outLen⟩
  rw [UInt32.lt_iff_toNat_lt]
  by_cases entered : Entered text outLen
  · rcases text_cases beside entered.nonempty entered.aligned with
      ⟨letters, pads, padded⟩ | ⟨letters, last, misplaced⟩ | ⟨letters, stopped⟩ |
        ⟨letters, char, reached⟩
    · rw [accepts_padded padded short entered] at stored
      exact stores_below entered short (padded_expectLen padded).2.1.le stored
    · rw [accepts_misplaced misplaced short entered] at stored
      refine stores_below entered short ?_ stored
      have all : ∀ char ∈ letters ++ [last], IsLetter char := by
        intro char member
        rcases List.mem_append.mp member with front | back
        · exact misplaced.letters char front
        · rw [List.mem_singleton.mp back]
          exact misplaced.last
      rw [length_octets, length_sextets all]
      exact misplaced.expectLen.2.le
    · obtain ⟨scan, consumed, behind | ⟨char, _, behind⟩⟩ := stopped.run
      · rw [base64Decode_error entered behind, Scan.failed, consumed.output] at stored
        refine stores_below entered short ?_ stored
        rw [length_octets, length_sextets consumed.all]
        exact stopped.few entered
      · rw [base64Decode_error entered behind, Scan.failed, Scan.look, consumed.output] at stored
        refine stores_below entered short ?_ stored
        rw [length_octets, length_sextets consumed.all]
        exact stopped.few entered
    · have member : char ∈ text := by
        rcases reached.place with ⟨rest, rfl⟩ | rfl <;> simp
      exact absurd (sevenBit char member) (UInt8.not_lt.mpr reached.high)
  · rw [base64Decode_refused entered] at stored
    exact absurd stored List.not_mem_nil

/-- "TWE=" into two bytes. -/
theorem respects_capacity_padded :
    let result := base64Decode (fun _ => 0) [84, 87, 69, 61] 2
    (∀ at_ byte, (at_, byte) ∈ result.output → at_ < 2) ∧
      (result.returned = false → result.outLen = 2) :=
  respects_capacity (fun _ => 0) [84, 87, 69, 61] 2 (by decide) (by simp)

end XProject.Base.Crypto
