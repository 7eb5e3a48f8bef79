import Mathlib.Algebra.Group.Nat.Defs
import Mathlib.Data.List.Basic

/-!
# Base64

The encoding of RFC 4648: 24 bits at a time, three bytes become four letters of
six bits each. A last group of one or two bytes is filled with zero bits and
padded with `=`. Decoding drops the bits that do not fill a byte, so what a
reader has of a byte after some letters is their `pending` bits.
-/

namespace XProject.Std.Base64

/-- `=`. -/
def pad : UInt8 := 61

/-- The letter of a six-bit value. -/
def letter (sextet : Nat) : UInt8 :=
  if sextet < 26 then UInt8.ofNat (sextet + 65)
  else if sextet < 52 then UInt8.ofNat (sextet + 71)
  else if sextet < 62 then UInt8.ofNat (sextet - 4)
  else if sextet = 62 then 43
  else 47

/-- The six-bit value of a letter. -/
def valueOf (char : UInt8) : Option Nat :=
  if 65 ≤ char ∧ char ≤ 90 then some (char.toNat - 65)
  else if 97 ≤ char ∧ char ≤ 122 then some (char.toNat - 71)
  else if 48 ≤ char ∧ char ≤ 57 then some (char.toNat + 4)
  else if char = 43 then some 62
  else if char = 47 then some 63
  else none

/-- One of the 64 letters. -/
def IsLetter (char : UInt8) : Prop := (valueOf char).isSome = true

instance (char : UInt8) : Decidable (IsLetter char) :=
  inferInstanceAs (Decidable ((valueOf char).isSome = true))

/-- The values of some letters. -/
def sextets (letters : List UInt8) : List Nat := letters.filterMap valueOf

/-! ## Encoding -/

/-- The 24 bits of three bytes. -/
def group (a b c : UInt8) : Nat := a.toNat * 65536 + b.toNat * 256 + c.toNat

/-- The four letters of 24 bits. -/
def quartet (bits : Nat) : List UInt8 :=
  [letter (bits / 262144), letter (bits / 4096 % 64), letter (bits / 64 % 64), letter (bits % 64)]

/-- The padded encoding. -/
def encode : List UInt8 → List UInt8
  | a :: b :: c :: rest => quartet (group a b c) ++ encode rest
  | [a, b] => (quartet (group a b 0)).take 3 ++ [pad]
  | [a] => (quartet (group a 0 0)).take 2 ++ [pad, pad]
  | [] => []

/-! ## Decoding -/

/-- The bytes whose bits some six-bit values hold in full. -/
def octets : List Nat → List UInt8
  | s :: t :: u :: v :: rest =>
      UInt8.ofNat (s * 4 + t / 16) :: UInt8.ofNat (t % 16 * 16 + u / 4) ::
        UInt8.ofNat (u % 4 * 64 + v) :: octets rest
  | [s, t, u] => [UInt8.ofNat (s * 4 + t / 16), UInt8.ofNat (t % 16 * 16 + u / 4)]
  | [s, t] => [UInt8.ofNat (s * 4 + t / 16)]
  | [_] => []
  | [] => []

/-- The bits left, at the top of the byte they begin. -/
def pending : List Nat → Nat
  | _ :: _ :: _ :: _ :: rest => pending rest
  | [_, _, u] => u % 4 * 64
  | [_, t] => t % 16 * 16
  | [s] => s * 4
  | [] => 0

/-- Letters, then as many pads as the last group lacks. -/
structure Padded (text letters : List UInt8) (pads : Nat) : Prop where
  shape : text = letters ++ List.replicate pads pad
  letters : ∀ char ∈ letters, IsLetter char
  few : pads ≤ 2
  aligned : text.length % 4 = 0
  nonempty : text ≠ []

/-- The bytes of a padded text. -/
def decode (text : List UInt8) : List UInt8 := octets (sextets text)

/-! ## Letters and their values -/

theorem valueOf_letter {sextet : Nat} (small : sextet < 64) :
    valueOf (letter sextet) = some sextet := by
  have every : ∀ value : Fin 64, valueOf (letter value.val) = some value.val := by decide +kernel
  exact every ⟨sextet, small⟩

theorem valueOf_lt {char : UInt8} {sextet : Nat} (value : valueOf char = some sextet) :
    sextet < 64 := by
  have every : ∀ bits : Fin 256, ∀ sextet ∈ valueOf (UInt8.ofNat bits.val), sextet < 64 := by
    decide +kernel
  have here := every ⟨char.toNat, char.toNat_lt⟩
  rw [UInt8.ofNat_toNat] at here
  exact here sextet value

theorem letter_isLetter {sextet : Nat} (small : sextet < 64) : IsLetter (letter sextet) := by
  rw [IsLetter, valueOf_letter small]
  rfl

theorem valueOf_pad : valueOf pad = none := by decide

theorem not_isLetter_pad : ¬IsLetter pad := by decide

theorem isLetter_iff {char : UInt8} : IsLetter char ↔ ∃ sextet, valueOf char = some sextet :=
  Option.isSome_iff_exists

/-- Letters and values are as many. -/
theorem length_sextets {letters : List UInt8} (all : ∀ char ∈ letters, IsLetter char) :
    (sextets letters).length = letters.length := by
  induction letters with
  | nil => rfl
  | cons char letters ih =>
      obtain ⟨sextet, value⟩ := isLetter_iff.mp (all char (by simp))
      have tail := ih fun other member => all other (List.mem_cons_of_mem _ member)
      rw [sextets, List.filterMap_cons_some value, List.length_cons, List.length_cons]
      exact congrArg (· + 1) tail

theorem sextets_append (front back : List UInt8) :
    sextets (front ++ back) = sextets front ++ sextets back :=
  List.filterMap_append

/-- Pads have no value. -/
theorem sextets_pads (letters : List UInt8) (pads : Nat) :
    sextets (letters ++ List.replicate pads pad) = sextets letters := by
  have none_ : sextets (List.replicate pads pad) = [] := by
    rw [sextets, List.filterMap_eq_nil_iff]
    intro char member
    rw [List.eq_of_mem_replicate member, valueOf_pad]
  rw [sextets_append, none_, List.append_nil]

theorem Padded.length {text letters : List UInt8} {pads : Nat}
    (padded : Padded text letters pads) : text.length = letters.length + pads := by
  rw [padded.shape, List.length_append, List.length_replicate]

theorem Padded.decoded {text letters : List UInt8} {pads : Nat}
    (padded : Padded text letters pads) : decode text = octets (sextets letters) := by
  rw [decode, padded.shape, sextets_pads]

/-! ## Reading value after value -/

theorem length_octets (values : List Nat) : (octets values).length = values.length * 3 / 4 := by
  induction values using octets.induct with
  | case1 s t u v rest ih =>
      simp only [octets, List.length_cons, ih]
      omega
  | case2 s t u => simp [octets]
  | case3 s t => simp [octets]
  | case4 s => simp [octets]
  | case5 => rfl

/-- One more value fills the byte its predecessors began, unless there was none. -/
theorem octets_snoc (values : List Nat) (value : Nat) :
    octets (values ++ [value]) = octets values ++
      if values.length % 4 = 0 then []
      else [UInt8.ofNat (pending values + value / 4 ^ (3 - values.length % 4))] := by
  induction values using octets.induct with
  | case1 s t u v rest ih =>
      have aligned : (s :: t :: u :: v :: rest).length % 4 = rest.length % 4 := by
        simp only [List.length_cons]
        omega
      simp only [List.cons_append, octets, pending, ih, aligned]
  | case2 s t u => simp [octets, pending]
  | case3 s t => simp [octets, pending]
  | case4 s => simp [octets, pending]
  | case5 => rfl

theorem pending_snoc (values : List Nat) {value : Nat} (small : value < 64) :
    pending (values ++ [value]) =
      value % 4 ^ (3 - values.length % 4) * 4 ^ (values.length % 4 + 1) := by
  induction values using octets.induct with
  | case1 s t u v rest ih =>
      have aligned : (s :: t :: u :: v :: rest).length % 4 = rest.length % 4 := by
        simp only [List.length_cons]
        omega
      simp only [List.cons_append, pending, ih, aligned]
  | case2 s t u => simp [pending, Nat.mod_one]
  | case3 s t => simp [pending]
  | case4 s => simp [pending]
  | case5 => simp [pending, Nat.mod_eq_of_lt small]

/-- The bits left are at the top of their byte. -/
theorem pending_dvd (values : List Nat) : 4 ^ (values.length % 4) ∣ pending values := by
  induction values using octets.induct with
  | case1 s t u v rest ih =>
      have aligned : (s :: t :: u :: v :: rest).length % 4 = rest.length % 4 := by
        simp only [List.length_cons]
        omega
      rwa [aligned, pending]
  | case2 s t u => exact Nat.dvd_mul_left 64 (u % 4)
  | case3 s t => exact Nat.dvd_mul_left 16 (t % 16)
  | case4 s => exact Nat.dvd_mul_left 4 s
  | case5 => simp [pending]

/-! ## Encoding and back -/

/-- The four values of 24 bits. -/
def quarters (bits : Nat) : List Nat :=
  [bits / 262144, bits / 4096 % 64, bits / 64 % 64, bits % 64]

theorem quarters_lt {bits value : Nat} (small : bits < 2 ^ 24) (member : value ∈ quarters bits) :
    value < 64 := by
  simp only [quarters, List.mem_cons, List.not_mem_nil, or_false] at member
  omega

theorem group_lt (a b c : UInt8) : group a b c < 2 ^ 24 := by
  have first := a.toNat_lt
  have second := b.toNat_lt
  have third := c.toNat_lt
  rw [group]
  omega

/-- Spelling values and reading the letters gives the values. -/
theorem sextets_map_letter {values : List Nat} (small : ∀ value ∈ values, value < 64) :
    sextets (values.map letter) = values := by
  induction values with
  | nil => rfl
  | cons value values ih =>
      have tail := ih fun other member => small other (List.mem_cons_of_mem _ member)
      rw [List.map_cons, sextets, List.filterMap_cons_some (valueOf_letter (small value (by simp)))]
      exact congrArg (value :: ·) tail

/-- The first letters of a group, and their values. -/
theorem sextets_take_quartet (a b c : UInt8) (count : Nat) :
    sextets ((quartet (group a b c)).take count) = (quarters (group a b c)).take count := by
  have spelled : quartet (group a b c) = (quarters (group a b c)).map letter := rfl
  rw [spelled, ← List.map_take]
  exact sextets_map_letter fun value member =>
    quarters_lt (group_lt a b c) (List.mem_of_mem_take member)

/-- The bytes of a group, each from the values it has bits in. -/
theorem octets_quarters (a b c : UInt8) :
    UInt8.ofNat (group a b c / 262144 * 4 + group a b c / 4096 % 64 / 16) = a ∧
      UInt8.ofNat (group a b c / 4096 % 64 % 16 * 16 + group a b c / 64 % 64 / 4) = b ∧
      UInt8.ofNat (group a b c / 64 % 64 % 4 * 64 + group a b c % 64) = c := by
  have first := a.toNat_lt
  have second := b.toNat_lt
  have third := c.toNat_lt
  refine ⟨?_, ?_, ?_⟩
  · apply UInt8.toNat_inj.mp
    rw [UInt8.toNat_ofNat', group]
    omega
  · apply UInt8.toNat_inj.mp
    rw [UInt8.toNat_ofNat', group]
    omega
  · apply UInt8.toNat_inj.mp
    rw [UInt8.toNat_ofNat', group]
    omega

/-- The encoding decodes to the bytes. -/
theorem decode_encode (bytes : List UInt8) : decode (encode bytes) = bytes := by
  induction bytes using encode.induct with
  | case1 a b c rest ih =>
      obtain ⟨first, second, third⟩ := octets_quarters a b c
      have values := sextets_take_quartet a b c 4
      rw [encode, decode, sextets_append, show quartet (group a b c) =
        (quartet (group a b c)).take 4 from rfl, values]
      simp only [quarters, List.take_succ_cons, List.take_zero, List.cons_append, List.nil_append,
        octets, first, second, third]
      exact congrArg (a :: b :: c :: ·) ih
  | case2 a b =>
      obtain ⟨first, second, _⟩ := octets_quarters a b 0
      have values := sextets_take_quartet a b 0 3
      have padded := sextets_pads ((quartet (group a b 0)).take 3) 1
      rw [encode, decode, show [pad] = List.replicate 1 pad from rfl, padded, values]
      simp only [quarters, List.take_succ_cons, List.take_zero, octets, first, second]
  | case3 a =>
      obtain ⟨first, _⟩ := octets_quarters a 0 0
      have values := sextets_take_quartet a 0 0 2
      have padded := sextets_pads ((quartet (group a 0 0)).take 2) 2
      rw [encode, decode, show [pad, pad] = List.replicate 2 pad from rfl, padded, values]
      simp only [quarters, List.take_succ_cons, List.take_zero, octets, first]
  | case4 => rfl

/-- Four characters for every three bytes begun. -/
theorem length_encode (bytes : List UInt8) :
    (encode bytes).length = 4 * ((bytes.length + 2) / 3) := by
  induction bytes using encode.induct with
  | case1 a b c rest ih =>
      simp only [encode, List.length_append, ih, quartet, List.length_cons, List.length_nil]
      omega
  | case2 a b => simp [encode, quartet]
  | case3 a => simp [encode, quartet]
  | case4 => rfl

theorem take_quartet_letters (a b c : UInt8) (count : Nat) :
    ∀ char ∈ (quartet (group a b c)).take count, IsLetter char := by
  intro char member
  have inside : char ∈ (quarters (group a b c)).map letter := List.mem_of_mem_take member
  obtain ⟨value, origin, rfl⟩ := List.mem_map.mp inside
  exact letter_isLetter (quarters_lt (group_lt a b c) origin)

/-- An encoding is letters with at most two pads behind them. -/
theorem encode_shape (bytes : List UInt8) : ∃ letters pads,
    encode bytes = letters ++ List.replicate pads pad ∧ (∀ char ∈ letters, IsLetter char) ∧
      pads ≤ 2 := by
  induction bytes using encode.induct with
  | case1 a b c rest ih =>
      obtain ⟨letters, pads, shape, all, few⟩ := ih
      refine ⟨quartet (group a b c) ++ letters, pads, ?_, ?_, few⟩
      · rw [encode, shape, List.append_assoc]
      · intro char member
        rcases List.mem_append.mp member with front | back
        · exact take_quartet_letters a b c 4 char front
        · exact all char back
  | case2 a b => exact ⟨_, 1, rfl, take_quartet_letters a b 0 3, by omega⟩
  | case3 a => exact ⟨_, 2, rfl, take_quartet_letters a 0 0 2, by omega⟩
  | case4 => exact ⟨[], 0, rfl, by simp, by omega⟩

/-- The encoding of some bytes is a padded text. -/
theorem encode_padded {bytes : List UInt8} (some_ : bytes ≠ []) :
    ∃ letters pads, Padded (encode bytes) letters pads := by
  obtain ⟨letters, pads, shape, all, few⟩ := encode_shape bytes
  have length := length_encode bytes
  have positive := List.length_pos_iff.mpr some_
  refine ⟨letters, pads, shape, all, few, by omega, ?_⟩
  intro empty
  rw [empty, List.length_nil] at length
  omega

end XProject.Std.Base64
