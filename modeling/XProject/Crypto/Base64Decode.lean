import XProject.Crypto.Base64Scan

/-!
# What `base64Decode` accepts

What follows the letters at the front of a text decides how the loop ends: the
padding tests let every padded text pass, and also a last letter right behind a
single `=`.
-/

namespace XProject.Base.Crypto

open XProject.Std
open XProject.Std.Base64

variable {beside : Int → BitVec 8}

/-! ## Before and after the loop -/

/-- The loop is entered: the predicted length fits. -/
structure Entered (text : List UInt8) (outLen : UInt32) : Prop where
  nonempty : text ≠ []
  aligned : text.length % 4 = 0
  room : text.length / 4 * 3 ≤ outLen.toNat + (text.drop (text.length - 2)).count pad

/-- `padding` counts the `=` among the last two characters. -/
theorem padding_eq {text : List UInt8} (long : 2 ≤ text.length) :
    padding text = (text.drop (text.length - 2)).count pad := by
  obtain ⟨front, first, last, rfl⟩ : ∃ front first last, text = front ++ [first, last] := by
    have whole := List.take_append_drop (text.length - 2) text
    have two : (text.drop (text.length - 2)).length = 2 := by
      rw [List.length_drop]
      omega
    obtain ⟨first, last, shape⟩ := List.length_eq_two.mp two
    exact ⟨text.take (text.length - 2), first, last, by rw [← shape, whole]⟩
  have length : (front ++ [first, last]).length = front.length + 2 := by simp
  rw [padding, length]
  simp only [Nat.add_sub_cancel, List.drop_left, List.count_cons, List.count_nil, pad, beq_iff_eq]
  simp

/-- Letters in front do not matter. -/
theorem count_tail {letters : List UInt8} (all : ∀ char ∈ letters, IsLetter char)
    (rest : List UInt8) :
    ((letters ++ rest).drop ((letters ++ rest).length - 2)).count pad =
      (rest.drop (rest.length - 2)).count pad := by
  have behind : (letters ++ rest).length - 2 - letters.length = rest.length - 2 := by
    rw [List.length_append]
    omega
  have absent : (letters.drop ((letters ++ rest).length - 2)).count pad = 0 := by
    rw [List.count_eq_zero]
    intro member
    exact not_isLetter_pad (all pad (List.mem_of_mem_drop member))
  rw [List.drop_append, List.count_append, absent, behind, Nat.zero_add]

theorem low_two_bits (number : Nat) : number &&& 0x03 = number % 4 :=
  Nat.and_two_pow_sub_one_eq_mod number 2

theorem expectLen_eq {text : List UInt8} (long : 2 ≤ text.length) :
    expectLen text = text.length / 4 * 3 - (text.drop (text.length - 2)).count pad := by
  rw [expectLen, padding_eq long, Nat.shiftRight_eq_div_pow]

variable {text : List UInt8} {outLen : UInt32}

theorem Entered.long (entered : Entered text outLen) : 4 ≤ text.length := by
  have positive := List.length_pos_iff.mpr entered.nonempty
  have aligned := entered.aligned
  omega

/-- Outside of these conditions nothing is read from the table or stored. -/
theorem base64Decode_refused (refused : ¬Entered text outLen) :
    base64Decode beside text outLen = Scan.start.failed outLen := by
  rw [base64Decode, low_two_bits]
  by_cases empty : text.length = 0
  · rw [if_pos empty]
  by_cases aligned : text.length % 4 = 0
  · have expected := @expectLen_eq text (by omega)
    have narrow : outLen.toNat < expectLen text := by
      by_contra roomy
      refine refused ⟨fun nil => empty (by rw [nil]; rfl), aligned, ?_⟩
      omega
    rw [if_neg empty, if_neg (not_not.mpr aligned), if_pos narrow]
  · rw [if_neg empty, if_pos aligned]

/-- Inside them every check before the loop passes. -/
theorem Entered.checks (entered : Entered text outLen) :
    ¬text.length = 0 ∧ ¬text.length &&& 0x03 ≠ 0 ∧ ¬outLen.toNat < expectLen text := by
  have long := entered.long
  have expected := @expectLen_eq text (by omega)
  have room := entered.room
  rw [low_two_bits]
  exact ⟨by omega, not_not.mpr entered.aligned, by omega⟩

theorem Entered.expectLen_le (entered : Entered text outLen) : expectLen text ≤ outLen.toNat :=
  not_lt.mp entered.checks.2.2

theorem base64Decode_error (entered : Entered text outLen) {scan : Scan}
    (run : decodeFrom beside text .start = .error scan) :
    base64Decode beside text outLen = scan.failed outLen := by
  obtain ⟨some_, aligned, roomy⟩ := entered.checks
  rw [base64Decode, if_neg some_, if_neg aligned, if_neg roomy, run]

/-- Where the loop has consumed some letters and the count is the predicted one. -/
theorem base64Decode_ok (entered : Entered text outLen) (short : text.length < 2 ^ 32)
    {letters : List UInt8} {scan : Scan} (run : decodeFrom beside text .start = .ok scan)
    (consumed : Consumed letters scan) (count : letters.length * 3 / 4 = expectLen text) :
    base64Decode beside text outLen =
      ⟨true, UInt32.ofNat (expectLen text), stores 0 (octets (sextets letters)),
        letters.map fun char => (char.toNat : Int)⟩ := by
  have long := entered.long
  have expected := @expectLen_eq text (by omega)
  have index : scan.index.toNat = expectLen text := by
    rw [consumed.index, UInt32.toNat_ofNat', length_octets, length_sextets consumed.all, count]
    omega
  obtain ⟨some_, aligned, roomy⟩ := entered.checks
  rw [base64Decode, if_neg some_, if_neg aligned, if_neg roomy, run]
  simp only [index, ne_eq, not_true_eq_false, if_false, consumed.output, consumed.lookups]

/-! ## What follows the letters -/

/-- `=` as the last or the last but one character passes, where it is not the second
of its group. -/
theorem decodeChar_pad {current : List UInt8} (last : current.length ≤ 1) {scan : Scan}
    (phase : (scan.i &&& 0x03).toNat ≠ 1) : decodeChar beside pad current scan = .ok scan := by
  have third : scan.i &&& 0x03 ≠ 1 := fun same => phase (by rw [same]; rfl)
  have here : ¬(current.length ≠ 0 ∧ current.length ≠ 1) := by omega
  rw [decodeChar, if_pos (show pad = 61 from rfl), if_neg here, if_neg (fun all => third all.2.2)]

/-- `=` before the last two characters ends the loop. -/
theorem decodeChar_early {current : List UInt8} (early : 2 ≤ current.length) (scan : Scan) :
    decodeChar beside pad current scan = .error scan := by
  have here : current.length ≠ 0 ∧ current.length ≠ 1 := by omega
  rw [decodeChar, if_pos (show pad = 61 from rfl), if_pos here]

/-- So does a character of the lower half without a value. -/
theorem decodeChar_invalid {char : UInt8} (data : char ≠ pad) (other : ¬IsLetter char)
    (low : char < 128) (current : List UInt8) (scan : Scan) :
    decodeChar beside char current scan = .error (scan.look (promoted char).toInt) := by
  rw [decodeChar_data data, decodeTableAt_low low, if_pos (decodeTable_other char other)]

theorem Consumed.phase {letters : List UInt8} {scan : Scan} (consumed : Consumed letters scan) :
    (scan.i &&& 0x03).toNat = letters.length % 4 := by
  rw [consumed.i, phase_eq]

/-- Pads that complete the last group pass. -/
theorem Consumed.pads {letters : List UInt8} {scan : Scan} (consumed : Consumed letters scan)
    {pads : Nat} (few : pads ≤ 2) (aligned : (letters.length + pads) % 4 = 0) :
    decodeFrom beside (List.replicate pads pad) scan = .ok scan := by
  have phase := consumed.phase
  have second : pads ≠ 0 → (scan.i &&& 0x03).toNat ≠ 1 := by omega
  match pads, few with
  | 0, _ => rfl
  | 1, _ => exact decodeFrom_ok (decodeChar_pad (Nat.zero_le _) (second (by decide)))
  | 2, _ =>
      have first := @decodeChar_pad beside [pad] (le_refl _) scan (second (by decide))
      have last := @decodeChar_pad beside [] (Nat.zero_le _) scan (second (by decide))
      exact (decodeFrom_ok first).trans (decodeFrom_ok last)

/-- The prediction is right for a padded text. -/
theorem padded_expectLen {letters : List UInt8} {pads : Nat} (padded : Padded text letters pads) :
    (text.drop (text.length - 2)).count pad = pads ∧ (decode text).length = expectLen text ∧
      letters.length * 3 / 4 = expectLen text := by
  have length := padded.length
  have aligned := padded.aligned
  have few := padded.few
  have positive := List.length_pos_iff.mpr padded.nonempty
  have values := length_octets (sextets letters)
  rw [length_sextets padded.letters] at values
  have count : (text.drop (text.length - 2)).count pad = pads := by
    have whole : List.length (List.replicate pads pad) - 2 = 0 := by
      rw [List.length_replicate]
      omega
    rw [padded.shape, count_tail padded.letters, whole, List.drop_zero, List.count_replicate_self]
  have expected := @expectLen_eq text (by omega)
  rw [count] at expected
  rw [padded.decoded, values]
  exact ⟨count, by omega, by omega⟩

/-- The loop is entered when the output holds the bytes. -/
theorem padded_entered_iff {letters : List UInt8} {pads : Nat}
    (padded : Padded text letters pads) :
    Entered text outLen ↔ (decode text).length ≤ outLen.toNat := by
  obtain ⟨count, predicted, _⟩ := padded_expectLen padded
  have aligned := padded.aligned
  have positive := List.length_pos_iff.mpr padded.nonempty
  have expected := @expectLen_eq text (by omega)
  constructor
  · intro entered
    have room := entered.room
    omega
  · intro capacity
    exact ⟨padded.nonempty, aligned, by omega⟩

/-- A padded text is accepted into an output that holds its bytes. -/
theorem accepts_padded {letters : List UInt8} {pads : Nat} (padded : Padded text letters pads)
    (short : text.length < 2 ^ 32) (entered : Entered text outLen) :
    base64Decode beside text outLen =
      ⟨true, UInt32.ofNat (decode text).length, stores 0 (decode text),
        letters.map fun char => (char.toNat : Int)⟩ := by
  obtain ⟨_, length, count⟩ := padded_expectLen padded
  obtain ⟨scan, run, consumed⟩ := letters_run beside padded.letters (List.replicate pads pad)
  have aligned := padded.aligned
  rw [padded.length] at aligned
  rw [← padded.shape] at run
  have finished := run.trans (consumed.pads padded.few aligned)
  rw [base64Decode_ok entered short finished consumed count, length, padded.decoded]

/-- Letters, one `=` and one more letter. -/
structure Misplaced (text letters : List UInt8) (last : UInt8) : Prop where
  shape : text = letters ++ [pad, last]
  letters : ∀ char ∈ letters, IsLetter char
  last : IsLetter last
  aligned : text.length % 4 = 0

theorem Misplaced.length {letters : List UInt8} {last : UInt8}
    (misplaced : Misplaced text letters last) : text.length = letters.length + 2 := by
  rw [misplaced.shape, List.length_append]
  rfl

/-- The `=` is counted, so the letter behind it is predicted too. -/
theorem Misplaced.expectLen {letters : List UInt8} {last : UInt8}
    (misplaced : Misplaced text letters last) :
    (text.drop (text.length - 2)).count pad = 1 ∧
      (letters ++ [last]).length * 3 / 4 = expectLen text := by
  have length := misplaced.length
  have aligned := misplaced.aligned
  have count : (text.drop (text.length - 2)).count pad = 1 := by
    rw [misplaced.shape, count_tail misplaced.letters]
    simp [letter_ne_pad misplaced.last]
  have expected := @expectLen_eq text (by omega)
  rw [count] at expected
  rw [List.length_append, List.length_singleton]
  exact ⟨count, by omega⟩

theorem Misplaced.entered_iff {letters : List UInt8} {last : UInt8}
    (misplaced : Misplaced text letters last) :
    Entered text outLen ↔ text.length / 4 * 3 - 1 ≤ outLen.toNat := by
  have length := misplaced.length
  have count := misplaced.expectLen.1
  constructor
  · intro entered
    have room := entered.room
    omega
  · intro room
    refine ⟨fun empty => ?_, misplaced.aligned, by omega⟩
    rw [empty, List.length_nil] at length
    omega

/-- A letter behind the only `=` is accepted. -/
theorem accepts_misplaced {letters : List UInt8} {last : UInt8}
    (misplaced : Misplaced text letters last) (short : text.length < 2 ^ 32)
    (entered : Entered text outLen) :
    base64Decode beside text outLen =
      ⟨true, UInt32.ofNat (Crypto.expectLen text), stores 0 (octets (sextets (letters ++ [last]))),
        (letters ++ [last]).map fun char => (char.toNat : Int)⟩ := by
  obtain ⟨scan, run, consumed⟩ := letters_run beside misplaced.letters [pad, last]
  rw [← misplaced.shape] at run
  have length := misplaced.length
  have aligned := misplaced.aligned
  have second : (scan.i &&& 0x03).toNat ≠ 1 := by
    rw [consumed.phase]
    omega
  have passed := @decodeChar_pad beside [last] (le_refl _) scan second
  obtain ⟨final, taken, through⟩ := consumed.letter misplaced.last []
  have finished := run.trans ((decodeFrom_ok passed).trans (decodeFrom_ok taken))
  exact base64Decode_ok entered short finished through misplaced.expectLen.2

/-! ## Every other text -/

/-- The loop returns false behind some letters at the front, on a character of the
lower half or on `=` in the wrong place. -/
structure Stopped (beside : Int → BitVec 8) (text letters : List UInt8) : Prop where
  front : letters <+: text
  rest : letters.length + (text.drop (text.length - 2)).count pad ≤ text.length
  run : ∃ scan, Consumed letters scan ∧ (decodeFrom beside text .start = .error scan ∨
    ∃ char, char < 128 ∧ decodeFrom beside text .start = .error (scan.look (promoted char).toInt))

/-- A character of the upper half follows the letters at the front, or it is the
last one and a single `=` stands between. -/
structure HighReached (text letters : List UInt8) (char : UInt8) : Prop where
  all : ∀ char ∈ letters, IsLetter char
  high : 128 ≤ char
  place : (∃ rest, text = letters ++ char :: rest) ∨ text = letters ++ [pad, char]

/-- The letters at the front of a text. -/
theorem split_letters (text : List UInt8) : ∃ letters rest, text = letters ++ rest ∧
    (∀ char ∈ letters, IsLetter char) ∧ ∀ char more, rest = char :: more → ¬IsLetter char := by
  induction text with
  | nil => exact ⟨[], [], rfl, by simp, fun _ _ same => nomatch same⟩
  | cons first text ih =>
      by_cases letter : IsLetter first
      · obtain ⟨letters, rest, rfl, all, other⟩ := ih
        refine ⟨first :: letters, rest, rfl, ?_, other⟩
        intro char member
        rcases List.mem_cons.mp member with rfl | behind
        · exact letter
        · exact all char behind
      · refine ⟨[], first :: text, rfl, by simp, ?_⟩
        rintro char more same
        obtain ⟨rfl, _⟩ := List.cons.inj same
        exact letter

/-- Where the loop stops behind the letters at the front. -/
theorem stopped_of_rest {letters rest : List UInt8} (all : ∀ char ∈ letters, IsLetter char)
    (stops : ∀ scan, Consumed letters scan → decodeFrom beside rest scan = .error scan ∨
      ∃ char, char < 128 ∧ decodeFrom beside rest scan = .error (scan.look (promoted char).toInt)) :
    Stopped beside (letters ++ rest) letters where
  front := List.prefix_append letters rest
  rest := by
    have few : (rest.drop (rest.length - 2)).count pad ≤ (rest.drop (rest.length - 2)).length :=
      List.count_le_length
    rw [List.length_drop] at few
    rw [count_tail all, List.length_append]
    omega
  run := by
    obtain ⟨scan, run, consumed⟩ := letters_run beside all rest
    rw [run]
    exact ⟨scan, consumed, stops scan consumed⟩

/-- A text of full groups is padded, or it has a last letter behind a single `=`, or the
loop stops at a character of the lower half, or it gets to one of the upper half. -/
theorem text_cases (beside : Int → BitVec 8) (some_ : text ≠ []) (aligned : text.length % 4 = 0) :
    (∃ letters pads, Padded text letters pads) ∨ (∃ letters last, Misplaced text letters last) ∨
      (∃ letters, Stopped beside text letters) ∨ ∃ letters char, HighReached text letters char := by
  obtain ⟨letters, rest, rfl, all, other⟩ := split_letters text
  match rest with
  | [] =>
      refine .inl ⟨letters, 0, rfl, all, by decide, aligned, some_⟩
  | char :: more =>
      have invalid := other char more rfl
      by_cases equals : char = pad
      · subst equals
        match more with
        | [] => exact .inl ⟨letters, 1, rfl, all, by decide, aligned, some_⟩
        | [last] =>
            have second : ∀ scan, Consumed letters scan → (scan.i &&& 0x03).toNat ≠ 1 := by
              intro scan consumed
              rw [List.length_append, List.length_cons, List.length_singleton] at aligned
              rw [consumed.phase]
              omega
            by_cases equals : last = pad
            · rw [equals] at aligned some_ ⊢
              exact .inl ⟨letters, 2, rfl, all, by decide, aligned, some_⟩
            by_cases letter : IsLetter last
            · exact .inr (.inl ⟨letters, last, rfl, all, letter, aligned⟩)
            by_cases low : last < 128
            · refine .inr (.inr (.inl ⟨letters, stopped_of_rest all fun scan consumed => ?_⟩))
              have passed := @decodeChar_pad beside [last] (le_refl _) scan (second scan consumed)
              refine .inr ⟨last, low, ?_⟩
              exact (decodeFrom_ok passed).trans
                (decodeFrom_error (decodeChar_invalid equals letter low [] scan))
            · have high := UInt8.not_lt.mp low
              exact .inr (.inr (.inr ⟨letters, last, all, high, .inr rfl⟩))
        | next :: last :: more =>
            refine .inr (.inr (.inl ⟨letters, stopped_of_rest all fun scan _ => .inl ?_⟩))
            exact decodeFrom_error (decodeChar_early (by simp) scan)
      by_cases low : char < 128
      · refine .inr (.inr (.inl ⟨letters, stopped_of_rest all fun scan _ => .inr ?_⟩))
        exact ⟨char, low, decodeFrom_error (decodeChar_invalid equals invalid low more scan)⟩
      · have high := UInt8.not_lt.mp low
        exact .inr (.inr (.inr ⟨letters, char, all, high, .inl ⟨more, rfl⟩⟩))

/-! ## The accepted texts -/

/-- Exactly the padded texts are accepted, with their bytes as the output. -/
structure DecodesStandard (beside : Int → BitVec 8) (text : List UInt8) (outLen : UInt32) :
    Prop where
  returns : (base64Decode beside text outLen).returned = true ↔
    ∃ letters pads, Padded text letters pads
  output : (base64Decode beside text outLen).returned = true →
    (base64Decode beside text outLen).output = stores 0 (decode text) ∧
      (base64Decode beside text outLen).outLen.toNat = (decode text).length

/-- A padded text has as many bytes as its letters have full ones. -/
theorem length_decode_le {letters : List UInt8} {pads : Nat}
    (padded : Padded text letters pads) : (decode text).length ≤ text.length := by
  have length := padded.length
  rw [padded.decoded, length_octets, length_sextets padded.letters]
  omega

/-- A padded text is decoded as the standard says. -/
theorem decodesStandard_padded (beside : Int → BitVec 8) {letters : List UInt8} {pads : Nat}
    (padded : Padded text letters pads) (short : text.length < 2 ^ 32)
    (capacity : (decode text).length ≤ outLen.toNat) : DecodesStandard beside text outLen := by
  have entered := (padded_entered_iff padded).mpr capacity
  have result := @accepts_padded beside text outLen letters pads padded short entered
  have smaller := length_decode_le padded
  constructor
  · rw [result]
    exact iff_of_true rfl ⟨letters, pads, padded⟩
  · intro _
    rw [result]
    refine ⟨rfl, ?_⟩
    rw [UInt32.toNat_ofNat', Nat.mod_eq_of_lt (by omega)]

/-- A text that is refused and not padded is decoded as the standard says as well. -/
theorem decodesStandard_refused
    (refused : (base64Decode beside text outLen).returned = false)
    (other : ¬∃ letters pads, Padded text letters pads) :
    DecodesStandard beside text outLen := by
  constructor
  · rw [refused]
    exact iff_of_false Bool.false_ne_true other
  · intro accepted
    rw [refused] at accepted
    cases accepted

theorem Stopped.refused {letters : List UInt8} (stopped : Stopped beside text letters)
    (outLen : UInt32) : (base64Decode beside text outLen).returned = false := by
  by_cases entered : Entered text outLen
  · obtain ⟨scan, _, behind | ⟨char, _, behind⟩⟩ := stopped.run
    · rw [base64Decode_error entered behind]
      rfl
    · rw [base64Decode_error entered behind]
      rfl
  · rw [base64Decode_refused entered]
    rfl

/-- A text with a letter behind `=` is not padded. -/
theorem Misplaced.not_padded {letters : List UInt8} {last : UInt8}
    (misplaced : Misplaced text letters last) : ¬∃ letters pads, Padded text letters pads := by
  rintro ⟨front, pads, padded⟩
  have ends : text.getLast? = some last := by
    rw [misplaced.shape]
    simp
  rw [padded.shape] at ends
  rcases Nat.eq_zero_or_pos pads with rfl | positive
  · have inside : pad ∈ front := by
      have whole := padded.shape
      rw [misplaced.shape, List.replicate_zero, List.append_nil] at whole
      rw [← whole]
      simp
    exact not_isLetter_pad (padded.letters pad inside)
  · have lastPad : (front ++ List.replicate pads pad).getLast? = some pad := by
      simp [List.getLast?_append, List.getLast?_replicate, Nat.pos_iff_ne_zero.mp positive]
    rw [lastPad] at ends
    exact letter_ne_pad misplaced.last (Option.some.inj ends).symm

/-- On characters of the lower half the decoder follows the standard, given a
capacity for what the standard decodes, except on a text with a last letter
behind a single `=` that gets past the capacity check. Its counter `i` wraps. -/
theorem decodesStandard_iff (beside : Int → BitVec 8) (text : List UInt8) (outLen : UInt32)
    (short : text.length < 2 ^ 32) (sevenBit : ∀ char ∈ text, char < 128)
    (capacity : (∃ letters pads, Padded text letters pads) →
      (decode text).length ≤ outLen.toNat) :
    DecodesStandard beside text outLen ↔
      ¬((∃ letters last, Misplaced text letters last) ∧
        text.length / 4 * 3 - 1 ≤ outLen.toNat) := by
  constructor
  · rintro standard ⟨⟨letters, last, misplaced⟩, room⟩
    have entered := misplaced.entered_iff.mpr room
    have accepted := @accepts_misplaced beside text outLen letters last misplaced short entered
    exact misplaced.not_padded (standard.returns.mp (by rw [accepted]))
  · intro condition
    by_cases padded : ∃ letters pads, Padded text letters pads
    · obtain ⟨letters, pads, here⟩ := padded
      exact decodesStandard_padded beside here short (capacity ⟨letters, pads, here⟩)
    refine decodesStandard_refused ?_ padded
    by_cases entered : Entered text outLen
    · rcases text_cases beside entered.nonempty entered.aligned with
        here | ⟨letters, last, misplaced⟩ | ⟨letters, stopped⟩ | ⟨letters, char, high⟩
      · exact absurd here padded
      · have room := misplaced.entered_iff.mp entered
        exact absurd ⟨⟨letters, last, misplaced⟩, room⟩ condition
      · exact stopped.refused outLen
      · have member : char ∈ text := by
          rcases high.place with ⟨rest, rfl⟩ | rfl <;> simp
        exact absurd (sevenBit char member) (UInt8.not_lt.mpr high.high)
    · rw [base64Decode_refused entered]
      rfl

/-- "TWE=" into three bytes. -/
theorem decodesStandard_iff_padded :
    let text : List UInt8 := [84, 87, 69, 61]
    DecodesStandard (fun _ => 0) text 3 ↔
      ¬((∃ letters last, Misplaced text letters last) ∧
        text.length / 4 * 3 - 1 ≤ (3 : UInt32).toNat) :=
  decodesStandard_iff (fun _ => 0) [84, 87, 69, 61] 3 (by decide) (by simp) fun _ => by decide

/-- "AA=A" is accepted. -/
theorem decodesStandard_misplaced :
    (∀ char ∈ [65, 65, 61, 65], char < (128 : UInt8)) ∧
      ¬DecodesStandard (fun _ => 0) [65, 65, 61, 65] 3 := by
  have misplaced : Misplaced [65, 65, 61, 65] [65, 65] 65 :=
    ⟨rfl, List.forall_mem_cons.mpr ⟨by decide, List.forall_mem_singleton.mpr (by decide)⟩,
      by decide, by decide⟩
  have accepted : (base64Decode (fun _ => 0) [65, 65, 61, 65] 3).returned = true := by
    decide +kernel
  refine ⟨by simp, fun standard => ?_⟩
  exact misplaced.not_padded (standard.returns.mp accepted)

end XProject.Base.Crypto
