import XProject.Plugin.GuestStrings
import XProject.Plugin.Strtoul

/-!
# Numbers a guest reads out of a text

The conversions tell where they ended through a cell in linear memory. A guest that
goes on from there reads one integer of a text after the other, each brought into the
range of the result, and stops when the end does not move. The end of a conversion that
finds no integer is where it started.
-/

namespace XProject.Plugin

open XProject.Std
open StringSandbox

/-- The conversions of the module. -/
inductive Conversion where
  | strtol
  | strtoul
  | strtoll
  | strtoull

namespace Conversion

/-- A conversion with its result as a number. -/
def call (sandbox : StringSandbox) (str strEnd base : UInt32) :
    Conversion → Intrinsic (Converted Int)
  | .strtol => (myStrtol sandbox str strEnd base).map fun converted =>
      ⟨converted.result.toInt, converted.stored⟩
  | .strtoul => (myStrtoul sandbox str strEnd base).map fun converted =>
      ⟨converted.result.toNat, converted.stored⟩
  | .strtoll => (myStrtoll sandbox str strEnd base).map fun converted =>
      ⟨converted.result.toInt, converted.stored⟩
  | .strtoull => (myStrtoull sandbox str strEnd base).map fun converted =>
      ⟨converted.result.toNat, converted.stored⟩

/-- An integer in the range of the result: a signed result stops at the ends of its
range, an unsigned one is taken modulo its size as long as the magnitude fits. -/
def expected {base : Nat} (item : Numeral.Spelled base) : Conversion → Int
  | .strtol => max (-2 ^ 31) (min (2 ^ 31 - 1) item.integer)
  | .strtoul => if item.numeral.magnitude < 2 ^ 32 then item.integer % 2 ^ 32 else 2 ^ 32 - 1
  | .strtoll => max (-2 ^ 63) (min (2 ^ 63 - 1) item.integer)
  | .strtoull => if item.numeral.magnitude < 2 ^ 64 then item.integer % 2 ^ 64 else 2 ^ 64 - 1

/-- `my_strtoul` cuts the host's 64 bits, so some magnitudes beyond 32 bits wrap around. -/
def Exact {base : Nat} (item : Numeral.Spelled base) : Conversion → Prop
  | .strtoul => ¬WrapsAround item.numeral
  | _ => True

end Conversion

/-! ## The narrowed values -/

theorem toInt_strtol (numeral : Numeral) :
    (strtol (some numeral)).toInt =
      max (-2 ^ 63) (min (2 ^ 63 - 1)
        (if numeral.negative then -(numeral.magnitude : Int) else numeral.magnitude)) := by
  have positive : (0 : Int) ≤ numeral.magnitude := Int.natCast_nonneg numeral.magnitude
  cases negative : numeral.negative with
  | true =>
      simp only [strtol, negative, if_true]
      rw [Int64.toInt_ofInt_of_le (by omega) (by omega)]
      omega
  | false =>
      simp only [strtol, negative, if_false, Bool.false_eq_true]
      rw [Int64.toInt_ofInt_of_le (by omega) (by omega)]
      omega

theorem toInt_clampInt (value : Int64) :
    (clampInt value).toInt = max (-2 ^ 31) (min (2 ^ 31 - 1) value.toInt) := by
  have most : intMax.toInt = 2 ^ 31 - 1 := rfl
  have least : intMin.toInt = -2 ^ 31 := rfl
  simp only [clampInt, gt_iff_lt, Int64.lt_iff_toInt_lt, most, least]
  by_cases large : (2 ^ 31 - 1 : Int) < value.toInt
  · rw [if_pos large]
    change (2 ^ 31 - 1 : Int) = _
    omega
  · by_cases small : value.toInt < -2 ^ 31
    · rw [if_neg large, if_pos small]
      change (-2 ^ 31 : Int) = _
      omega
    · rw [if_neg large, if_neg small, Int64.toInt_toInt32]
      rw [Int.bmod_eq_of_le (by omega) (by omega)]
      omega

/-- What the host's values become for a spelled integer. -/
theorem narrowed {base : Nat} (item : Numeral.Spelled base) :
    (clampInt (strtol (some item.numeral))).toInt = Conversion.expected item .strtol ∧
      (¬WrapsAround item.numeral →
        ((clampUInt (strtoul (some item.numeral)).toInt64).toNat : Int) =
          Conversion.expected item .strtoul) ∧
      (strtol (some item.numeral)).toInt = Conversion.expected item .strtoll ∧
      ((strtoul (some item.numeral)).toNat : Int) = Conversion.expected item .strtoull := by
  have signed := toInt_strtol item.numeral
  have unsigned := toNat_strtoul item.numeral
  have same : item.integer = if item.numeral.negative then -(item.numeral.magnitude : Int)
      else item.numeral.magnitude := rfl
  rw [← same] at signed
  refine ⟨?_, fun apart => ?_, signed, ?_⟩
  · rw [toInt_clampInt, signed, Conversion.expected]
    omega
  · have cut := (clampUInt_strtoul_iff item.numeral).mpr apart
    rw [strtoul32] at cut
    rw [cut, Conversion.expected, same]
    cases item.numeral.negative with
    | true =>
        simp only [if_true]
        split <;> split <;> omega
    | false =>
        simp only [Bool.false_eq_true, if_false]
        split <;> split <;> omega
  · rw [unsigned, Conversion.expected, same]
    cases item.numeral.negative with
    | true =>
        simp only [if_true]
        split <;> split <;> omega
    | false =>
        simp only [Bool.false_eq_true, if_false]
        split <;> split <;> omega

/-! ## One conversion -/

/-- The guest's cell for the end of a conversion. -/
structure Cell (sandbox : StringSandbox) (cell : UInt32) : Prop where
  notNull : cell ≠ xNull
  room : cell.toNat + 4 ≤ sandbox.memorySize

/-- The sandbox after the end was stored in a cell. -/
def afterConversion {Result : Type} (sandbox : StringSandbox) (converted : Converted Result) :
    StringSandbox :=
  match converted.stored with
  | some (start, offset) => sandbox.store start ([offset.toBitVec] : List (Character .wchar))
  | none => sandbox

section Conversions

variable {sandbox : StringSandbox} {str cell base : UInt32}

/-- What a conversion returns and stores for what the host finds, which ends `length`
characters further. -/
theorem numberIntrinsic_gives {Host Result : Type} {value : Option Numeral → Host}
    {narrow : Host → Result} {refusal : Result} (known : KnownBase base)
    (isCell : Cell sandbox cell)
    (offsets : ∀ position < sandbox.memorySize,
      sandbox.linearMemoryOffset position = UInt32.ofNat position) {found : Option Numeral}
    (parsed : Numeral.parse base.toNat (sandbox.characters .char str.toNat) = some found)
    (inside : str.toNat + (found.map fun numeral => numeral.length).getD 0 < sandbox.memorySize) :
    Gives (numberIntrinsic sandbox value narrow refusal str cell base)
      ⟨narrow (value found), some (cell.toNat,
        UInt32.ofNat (str.toNat + (found.map fun numeral => numeral.length).getD 0))⟩ := by
  have read : sandbox.numeral str.toNat base = .ok (found,
      some (str.toNat + (found.map fun numeral => numeral.length).getD 0)) := by
    rw [StringSandbox.numeral, if_pos known, parsed]
    rfl
  have valid : sandbox.pointerCast str = true := (sandbox.pointerCast_iff str).mpr (by omega)
  have room : sandbox.buffer cell 4 = some cell.toNat := buffer_of_inside isCell.room
  generalize (found.map fun numeral => numeral.length).getD 0 = length at *
  have offset : (if str.toNat ≠ str.toNat + length then
      sandbox.linearMemoryOffset (str.toNat + length) else str) =
        UInt32.ofNat (str.toNat + length) := by
    split
    · exact offsets _ inside
    · have none_ : length = 0 := by omega
      rw [none_, Nat.add_zero, UInt32.ofNat_toNat]
  refine gives_consume (.inr ?_)
  rw [pointer_of_valid valid]
  dsimp only
  rw [bind_of_ok read]
  dsimp only
  rw [if_neg isCell.notNull, room]
  dsimp only
  rw [offset]
  rfl

/-- A conversion ends behind the integer that the host finds, and tells so. -/
theorem call_gives (conversion : Conversion) (known : KnownBase base)
    (isCell : Cell sandbox cell)
    (offsets : ∀ position < sandbox.memorySize,
      sandbox.linearMemoryOffset position = UInt32.ofNat position) {found : Option Numeral}
    (parsed : Numeral.parse base.toNat (sandbox.characters .char str.toNat) = some found)
    (inside : str.toNat + (found.map fun numeral => numeral.length).getD 0 < sandbox.memorySize) :
    ∃ result, Gives (conversion.call sandbox str cell base) ⟨result, some (cell.toNat,
        UInt32.ofNat (str.toNat + (found.map fun numeral => numeral.length).getD 0))⟩ ∧
      ∀ item : Numeral.Spelled base.toNat, found = some item.numeral → conversion.Exact item →
        result = conversion.expected item := by
  cases conversion with
  | strtol =>
      refine ⟨_, gives_map (numberIntrinsic_gives known isCell offsets parsed inside) _, ?_⟩
      rintro item rfl _
      exact (narrowed item).1
  | strtoul =>
      refine ⟨_, gives_map (numberIntrinsic_gives known isCell offsets parsed inside) _, ?_⟩
      rintro item rfl apart
      exact (narrowed item).2.1 apart
  | strtoll =>
      refine ⟨_, gives_map (numberIntrinsic_gives known isCell offsets parsed inside) _, ?_⟩
      rintro item rfl _
      exact (narrowed item).2.2.1
  | strtoull =>
      refine ⟨_, gives_map (numberIntrinsic_gives known isCell offsets parsed inside) _, ?_⟩
      rintro item rfl _
      exact (narrowed item).2.2.2

/-- What the guest loads from the cell afterwards. -/
theorem cell_afterConversion (isCell : Cell sandbox cell) {Result : Type} (result : Result)
    (offset : UInt32) :
    UInt32.ofBitVec
      ((afterConversion sandbox ⟨result, some (cell.toNat, offset)⟩).character .wchar cell.toNat) =
        offset := by
  have stored := @character_store sandbox .wchar cell.toNat 0 [offset.toBitVec] offset.toBitVec rfl
    isCell.room
  rw [Nat.mul_zero, Nat.add_zero] at stored
  exact congrArg UInt32.ofBitVec stored

theorem changed_afterConversion {Result : Type} (result : Result) (offset : UInt32) :
    Changed sandbox (afterConversion sandbox ⟨result, some (cell.toNat, offset)⟩) cell.toNat
      (cell.toNat + 4) :=
  @Changed.store sandbox sandbox .wchar _ _ (Changed.refl sandbox cell.toNat (cell.toNat + 4))
    cell.toNat [offset.toBitVec] (le_refl _) (le_refl _)

end Conversions

/-! ## A text read to its end -/

/-- The guest's loop: convert from where the last conversion ended, until one does not
advance; `fuel` bounds the number of conversions. -/
def readNumbers (conversion : Conversion) (cell base : UInt32) :
    (fuel : Nat) → (str : UInt32) → StringSandbox → Intrinsic (List Int × UInt32 × StringSandbox)
  | 0, str, sandbox => pure ([], str, sandbox)
  | fuel + 1, str, sandbox => do
      let converted ← conversion.call sandbox str cell base
      let next := afterConversion sandbox converted
      let strEnd := UInt32.ofBitVec (next.character .wchar cell.toNat)
      if strEnd = str then pure ([], str, next)
      else
        let (results, final) ← readNumbers conversion cell base fuel strEnd next
        pure (converted.result :: results, final)

/-- What stands behind the front of a string is a string. -/
theorem Text.suffix {sandbox : StringSandbox} {width : CharWidth} {start : Nat}
    {front back : List (Character width)} (lies : sandbox.Text width start (front ++ back)) :
    sandbox.Text width (start + width.bytes * front.length) back := by
  have inside := lies.inside
  rw [List.length_append, Nat.add_assoc, Nat.mul_add] at inside
  have aligned : (start + width.bytes * front.length) % width.bytes = 0 := by
    rw [Nat.add_mul_mod_self_left]
    exact lies.aligned
  refine ⟨aligned, fun member => lies.plain (List.mem_append_right front member), by omega, ?_⟩
  intro index most
  have here := lies.holds (front.length + index) (by rw [List.length_append]; omega)
  rw [List.append_assoc, List.getElem?_append_right (Nat.le_add_right _ _),
    Nat.add_sub_cancel_left, Nat.mul_add, ← Nat.add_assoc] at here
  exact here

section Texts

variable {sandbox : StringSandbox} {str cell base : UInt32}

/-- A conversion that does not advance ends the loop. -/
theorem readNumbers_stop {conversion : Conversion} {result : Int} (isCell : Cell sandbox cell)
    (given : Gives (conversion.call sandbox str cell base) ⟨result, some (cell.toNat, str)⟩)
    (fuel : Nat) :
    Gives (readNumbers conversion cell base (fuel + 1) str sandbox)
      ([], str, afterConversion sandbox ⟨result, some (cell.toNat, str)⟩) := by
  refine gives_bind given (.inr ?_)
  dsimp only
  rw [cell_afterConversion isCell, if_pos rfl]
  rfl

/-- One that advances is followed by the next. -/
theorem readNumbers_next {conversion : Conversion} {result : Int} (isCell : Cell sandbox cell)
    {strEnd : UInt32} (advances : strEnd ≠ str)
    (given : Gives (conversion.call sandbox str cell base) ⟨result, some (cell.toNat, strEnd)⟩)
    {fuel : Nat} {results : List Int} {final : UInt32 × StringSandbox}
    (goesOn : Gives (readNumbers conversion cell base fuel strEnd
      (afterConversion sandbox ⟨result, some (cell.toNat, strEnd)⟩)) (results, final)) :
    Gives (readNumbers conversion cell base (fuel + 1) str sandbox)
      (result :: results, final) := by
  refine gives_bind given ?_
  dsimp only
  rw [cell_afterConversion isCell, if_neg advances]
  exact gives_bind goesOn (.inr rfl)

/-- Where a text ends no conversion advances. -/
theorem readNumbers_end (conversion : Conversion) (known : 2 ≤ base.toNat ∧ base.toNat ≤ 36)
    (isCell : Cell sandbox cell)
    (offsets : ∀ position < sandbox.memorySize,
      sandbox.linearMemoryOffset position = UInt32.ofNat position)
    (lies : sandbox.Text .char str.toNat []) (fuel : Nat) :
    ∃ final, Gives (readNumbers conversion cell base (fuel + 1) str sandbox) ([], str, final) ∧
      Changed sandbox final cell.toNat (cell.toNat + 4) := by
  obtain ⟨rest, begins⟩ := lies.characters
  have inside := lies.inside
  rw [List.length_nil, CharWidth.bytes] at inside
  have stops : Numeral.Stops base.toNat 0 := Numeral.stops_of_not_digit (by decide)
  have parsed : Numeral.parse base.toNat (sandbox.characters .char str.toNat) = some none := by
    rw [begins]
    exact Numeral.parse_nothing (by omega) stops (by decide) (by decide) rest
  obtain ⟨result, given, _⟩ :=
    call_gives conversion (.inr known) isCell offsets parsed (by simp; omega)
  have same : UInt32.ofNat (str.toNat +
      ((none : Option Numeral).map fun numeral => numeral.length).getD 0) = str :=
    UInt32.ofNat_toNat
  rw [same] at given
  exact ⟨_, readNumbers_stop isCell given fuel, changed_afterConversion result str⟩

/-- What comes first in a text is converted, and the next conversion starts behind it. -/
theorem call_integer (conversion : Conversion) (known : 2 ≤ base.toNat ∧ base.toNat ≤ 36)
    (isCell : Cell sandbox cell) (small : sandbox.memorySize ≤ 2 ^ 32)
    (offsets : ∀ position < sandbox.memorySize,
      sandbox.linearMemoryOffset position = UInt32.ofNat position)
    {item : Numeral.Spelled base.toNat} {items : List (Numeral.Spelled base.toNat)}
    (apart : ∀ item ∈ items, item.Apart) (exact_ : conversion.Exact item)
    (lies : sandbox.Text .char str.toNat (item.chars ++ items.flatMap Numeral.Spelled.chars)) :
    ∃ strEnd : UInt32, strEnd.toNat = str.toNat + item.chars.length ∧
      Gives (conversion.call sandbox str cell base)
        ⟨conversion.expected item, some (cell.toNat, strEnd)⟩ := by
  obtain ⟨rest, begins⟩ := lies.characters
  have inside : str.toNat + 1 * ((item.chars ++ items.flatMap Numeral.Spelled.chars).length + 1) ≤
      sandbox.memorySize := lies.inside
  rw [List.length_append] at inside
  have stops : Numeral.Stops base.toNat 0 := Numeral.stops_of_not_digit (by decide)
  obtain ⟨stop, more, behind, stopsThere⟩ := Numeral.stops_behind apart stops rest
  have parsed : Numeral.parse base.toNat (sandbox.characters .char str.toNat) =
      some (some item.numeral) := by
    have whole : sandbox.characters .char str.toNat = item.chars ++ stop :: more := by
      rw [← behind, ← List.append_assoc]
      exact begins
    rw [whole]
    exact Numeral.parse_spelled (by omega) item stopsThere more
  obtain ⟨result, given, value⟩ :=
    call_gives conversion (.inr known) isCell offsets parsed (by simp [Numeral.Spelled.numeral]; omega)
  rw [value item rfl exact_] at given
  refine ⟨UInt32.ofNat (str.toNat + item.chars.length), ?_, given⟩
  rw [UInt32.toNat_ofNat', Nat.mod_eq_of_lt (by omega)]

/-- A text of integers, each set apart from the one before by white space or a sign, is
read to its end: the loop returns the integers in order, each brought into the range of
the conversion's result, and stops at the terminator, unless gas runs out. Nothing but
the cell changes. `my_strtoul` is exact but for the magnitudes that wrap around. -/
theorem numbers_read (conversion : Conversion) (known : 2 ≤ base.toNat ∧ base.toNat ≤ 36)
    (isCell : Cell sandbox cell) (small : sandbox.memorySize ≤ 2 ^ 32)
    (offsets : ∀ position < sandbox.memorySize,
      sandbox.linearMemoryOffset position = UInt32.ofNat position)
    {items : List (Numeral.Spelled base.toNat)} (apart : ∀ item ∈ items.tail, item.Apart)
    (exact_ : ∀ item ∈ items, conversion.Exact item)
    (lies : sandbox.Text .char str.toNat (items.flatMap Numeral.Spelled.chars))
    (clear : cell.toNat + 4 ≤ str.toNat ∨
      str.toNat + (items.flatMap Numeral.Spelled.chars).length < cell.toNat)
    {fuel : Nat} (enough : items.length < fuel) :
    ∃ strEnd final, Gives (readNumbers conversion cell base fuel str sandbox)
        (items.map conversion.expected, strEnd, final) ∧
      strEnd.toNat = str.toNat + (items.flatMap Numeral.Spelled.chars).length ∧
      Changed sandbox final cell.toNat (cell.toNat + 4) := by
  obtain ⟨fuel, rfl⟩ := Nat.exists_eq_add_one_of_ne_zero (Nat.ne_zero_of_lt enough)
  induction items generalizing sandbox str fuel with
  | nil =>
      obtain ⟨final, given, changed⟩ := readNumbers_end conversion known isCell offsets lies fuel
      exact ⟨str, final, given, rfl, changed⟩
  | cons item items ih =>
      obtain ⟨here, later⟩ := List.forall_mem_cons.mp exact_
      obtain ⟨next, moved, given⟩ :=
        call_integer conversion known isCell small offsets apart here lies
      have longer := List.length_pos_iff.mpr item.chars_ne_nil
      have advances : next ≠ str := by
        rintro rfl
        omega
      rw [List.flatMap_cons, List.length_append] at clear ⊢
      have changed := @changed_afterConversion sandbox cell _ (conversion.expected item) next
      have behind : sandbox.Text .char (str.toNat + 1 * item.chars.length)
          (items.flatMap Numeral.Spelled.chars) := Text.suffix lies
      rw [Nat.one_mul, ← moved] at behind
      have remains := behind.frame changed.memorySize fun position from_ upTo =>
        changed.outside position (by
          change position < next.toNat + 1 * ((items.flatMap Numeral.Spelled.chars).length + 1)
            at upTo
          omega)
      obtain ⟨memory, host⟩ := changed.same
      have sameSize := changed.memorySize
      obtain ⟨fuel, rfl⟩ := Nat.exists_eq_add_one_of_ne_zero (show fuel ≠ 0 by
        rintro rfl
        simp at enough)
      have cellAfter : Cell (afterConversion sandbox
          ⟨conversion.expected item, some (cell.toNat, next)⟩) cell :=
        ⟨isCell.notNull, by rw [sameSize]; exact isCell.room⟩
      obtain ⟨strEnd, final, goesOn, ended, changedLater⟩ :=
        ih cellAfter (by rw [sameSize]; exact small) (by rw [host]; exact offsets)
          (fun other member => apart other (List.mem_of_mem_tail member)) later remains
          (by omega) fuel (by simpa using enough)
      exact ⟨strEnd, final, readNumbers_next isCell advances given goesOn, by omega,
        changed.trans changedLater⟩

/-- The text `12 -9999999999+5` in base 10, with a cell behind it. -/
def threeNumbers : StringSandbox :=
  .ofMemory (fun position : Fin 32 =>
    [0x31, 0x32, 0x20, 0x2d, 0x39, 0x39, 0x39, 0x39, 0x39, 0x39, 0x39, 0x39, 0x39, 0x39, 0x2b,
      0x35, 0].getD position.val 0) 100

/-- `my_strtol` reads the three integers, the second one as the least `int`. -/
theorem numbers_read_three :
    ∃ strEnd final, Gives (readNumbers .strtol 24 10 4 0 threeNumbers)
        ([12, -2147483648, 5], strEnd, final) ∧
      strEnd.toNat = 16 ∧ Changed threeNumbers final 24 28 := by
  let items : List (Numeral.Spelled 10) :=
    [⟨[], [], [0x31, 0x32], by decide, by decide, by decide, by decide⟩,
      ⟨[0x20], [0x2d], List.replicate 10 0x39, by decide, by decide, by decide, by decide⟩,
      ⟨[], [0x2b], [0x35], by decide, by decide, by decide, by decide⟩]
  have apart : ∀ item ∈ items.tail, item.Apart :=
    List.forall_mem_cons.mpr ⟨.inl (by decide), List.forall_mem_singleton.mpr (.inr (by decide))⟩
  have lies : threeNumbers.Text .char 0 (items.flatMap Numeral.Spelled.chars) :=
    ⟨by decide, by decide +kernel, by decide +kernel, by decide +kernel⟩
  exact @numbers_read threeNumbers 0 24 10 .strtol (by decide) ⟨by decide, by decide⟩ (by decide)
    (fun _ _ => rfl) items apart (fun _ _ => trivial) lies (.inr (by decide +kernel)) 4 (by decide)

end Texts

end XProject.Plugin
