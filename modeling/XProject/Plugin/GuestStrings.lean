import XProject.Plugin.StringBounds
import XProject.Stream.Reading

/-!
# Strings a guest builds in linear memory

What the string intrinsics store is put into linear memory, and a guest goes on with
the next call. A string that is copied and appended to, piece by piece, is the one that
the calls name, and nothing else in linear memory changes.
-/

namespace XProject.Plugin

open XProject.Std
open StringSandbox

namespace StringSandbox

variable {sandbox : StringSandbox} {width : CharWidth}

/-! ## Storing characters -/

/-- The byte that characters have at an offset. -/
def storedByte (chars : List (Character width)) (offset : Nat) : Option UInt8 :=
  chars[offset / width.bytes]?.map fun ch : Character width =>
    UInt8.ofBitVec (BitVec.setWidth 8 (ch >>> (8 * (offset % width.bytes))))

/-- The sandbox after characters were stored from a position on. -/
def store (sandbox : StringSandbox) (start : Nat) (chars : List (Character width)) :
    StringSandbox :=
  { sandbox with
    memory := fun position =>
      if start ≤ position.val then
        (storedByte chars (position.val - start)).getD (sandbox.memory position)
      else sandbox.memory position }

/-- The sandbox after a call that copies. -/
def after (sandbox : StringSandbox) (copied : Copied width) : StringSandbox :=
  match copied.stored with
  | some (start, chars) => sandbox.store start chars
  | none => sandbox

@[simp] theorem store_memorySize (start : Nat) (chars : List (Character width)) :
    (sandbox.store start chars).memorySize = sandbox.memorySize := rfl

theorem byte_store (start position : Nat) (chars : List (Character width)) :
    (sandbox.store start chars).byte position =
      if position < sandbox.memorySize ∧ start ≤ position then
        (storedByte chars (position - start)).getD (sandbox.byte position)
      else sandbox.byte position := by
  by_cases inside : position < sandbox.memorySize
  · by_cases behind : start ≤ position
    · rw [if_pos ⟨inside, behind⟩]
      simp only [byte, store, dif_pos inside, if_pos behind]
    · rw [if_neg fun both => behind both.2]
      simp only [byte, store, dif_pos inside, if_neg behind]
  · rw [if_neg fun both => inside both.1]
    simp only [byte, store, dif_neg inside]

/-- Outside the characters stored nothing changes. -/
theorem byte_store_outside {start position : Nat} {chars : List (Character width)}
    (outside : position < start ∨ start + width.bytes * chars.length ≤ position) :
    (sandbox.store start chars).byte position = sandbox.byte position := by
  rw [byte_store]
  split
  · have far : chars.length ≤ (position - start) / width.bytes := by
      rw [Nat.le_div_iff_mul_le (bytes_pos width), Nat.mul_comm]
      omega
    rw [storedByte, List.getElem?_eq_none far, Option.map_none, Option.getD_none]
  · rfl

/-- A byte of a character stored. -/
theorem byte_store_inside {start index offset : Nat} {chars : List (Character width)}
    {ch : Character width} (found : chars[index]? = some ch) (part : offset < width.bytes)
    (inside : start + width.bytes * chars.length ≤ sandbox.memorySize) :
    (sandbox.store start chars).byte (start + width.bytes * index + offset) =
      UInt8.ofBitVec (BitVec.setWidth 8 (ch >>> (8 * offset))) := by
  have below : index < chars.length := (List.getElem?_eq_some_iff.mp found).1
  have fits := Nat.mul_le_mul_left width.bytes (Nat.succ_le_of_lt below)
  rw [Nat.mul_succ] at fits
  have within : start + width.bytes * index + offset < sandbox.memorySize := by omega
  have from_ : start + width.bytes * index + offset - start = width.bytes * index + offset := by
    omega
  have behind : start ≤ start + width.bytes * index + offset := by omega
  rw [byte_store, if_pos ⟨within, behind⟩, from_, storedByte, Nat.mul_add_div (bytes_pos width),
    Nat.div_eq_of_lt part, Nat.add_zero, found, Nat.mul_add_mod, Nat.mod_eq_of_lt part]
  rfl

/-- A character stored is there afterwards. -/
theorem character_store {start index : Nat} {chars : List (Character width)}
    {ch : Character width} (found : chars[index]? = some ch)
    (inside : start + width.bytes * chars.length ≤ sandbox.memorySize) :
    (sandbox.store start chars).character width (start + width.bytes * index) = ch := by
  have bytes : (List.range width.bytes).map (fun offset =>
      ((sandbox.store start chars).byte (start + width.bytes * index + offset)).toNat) =
      (Base.littleEndianBytes width.bytes ch).map UInt8.toNat := by
    rw [Base.littleEndianBytes, List.map_map]
    refine List.map_congr_left fun offset member => ?_
    rw [byte_store_inside found (List.mem_range.mp member) inside]
    rfl
  rw [character, bytes]
  exact Base.littleEndian_bytes width.bytes ch

/-- A character whose bytes are the same is the same. -/
theorem character_congr {other : StringSandbox} {position : Nat}
    (same : ∀ offset < width.bytes,
      other.byte (position + offset) = sandbox.byte (position + offset)) :
    other.character width position = sandbox.character width position := by
  have bytes : (List.range width.bytes).map (fun offset =>
      (other.byte (position + offset)).toNat) = (List.range width.bytes).map fun offset =>
        (sandbox.byte (position + offset)).toNat :=
    List.map_congr_left fun offset member => by rw [same offset (List.mem_range.mp member)]
  rw [character, character, bytes]

/-! ## Strings in linear memory -/

/-- A string lies wholly inside linear memory from an aligned position on, its terminator
behind it. -/
structure Text (sandbox : StringSandbox) (width : CharWidth) (start : Nat)
    (text : List (Character width)) : Prop where
  aligned : width.Aligned start
  plain : 0 ∉ text
  inside : start + width.bytes * (text.length + 1) ≤ sandbox.memorySize
  holds : ∀ index ≤ text.length,
    sandbox.character width (start + width.bytes * index) = (text ++ [0])[index]?.getD 0

/-- The characters from the start of a string on. -/
theorem Text.characters {start : Nat} {text : List (Character width)}
    (lies : sandbox.Text width start text) :
    ∃ rest, sandbox.characters width start = text ++ 0 :: rest := by
  have begins : text ++ [0] <+: sandbox.characters width start := by
    rw [List.prefix_iff_getElem?]
    intro index below
    rw [List.length_append, List.length_singleton] at below
    have here := lies.holds index (Nat.le_of_lt_succ below)
    have fits : width.bytes * (index + 1) ≤ width.bytes * (text.length + 1) :=
      Nat.mul_le_mul_left _ below
    have inside := lies.inside
    refine getElem?_characters.mpr ⟨by omega, ?_⟩
    rw [here, List.getElem?_eq_getElem, Option.getD_some]
  obtain ⟨rest, whole⟩ := begins
  exact ⟨rest, by rw [← whole, List.append_assoc]; rfl⟩

/-- A string none of whose bytes changes stays. -/
theorem Text.frame {other : StringSandbox} {start : Nat} {text : List (Character width)}
    (lies : sandbox.Text width start text) (size : other.memorySize = sandbox.memorySize)
    (same : ∀ position, start ≤ position →
      position < start + width.bytes * (text.length + 1) →
        other.byte position = sandbox.byte position) : other.Text width start text := by
  refine ⟨lies.aligned, lies.plain, by rw [size]; exact lies.inside, fun index most => ?_⟩
  rw [← lies.holds index most]
  refine character_congr fun offset part => same _ (by omega) ?_
  have fits : width.bytes * index + width.bytes ≤ width.bytes * (text.length + 1) :=
    Nat.mul_le_mul_left width.bytes (Nat.succ_le_succ most)
  omega

/-- Characters stored behind the front of a string, with a terminator, go on with it. -/
theorem Text.appended {start : Nat} {text more : List (Character width)}
    (aligned : width.Aligned start) (plain : 0 ∉ text ++ more)
    (inside : start + width.bytes * ((text ++ more).length + 1) ≤ sandbox.memorySize)
    (front : ∀ index < text.length,
      sandbox.character width (start + width.bytes * index) = text[index]?.getD 0) :
    (sandbox.store (start + width.bytes * text.length) (more ++ [0])).Text width start
      (text ++ more) := by
  have total : start + width.bytes * text.length + width.bytes * (more ++ [0]).length =
      start + width.bytes * ((text ++ more).length + 1) := by
    rw [List.length_append, List.length_append, List.length_singleton, Nat.add_assoc,
      ← Nat.mul_add, ← Nat.add_assoc text.length]
  refine ⟨aligned, plain, inside, fun index most => ?_⟩
  rcases Nat.lt_or_ge index text.length with before | behind
  · have fits : width.bytes * index + width.bytes ≤ width.bytes * text.length :=
      Nat.mul_le_mul_left width.bytes (Nat.succ_le_of_lt before)
    rw [List.append_assoc, List.getElem?_append_left before, ← front index before]
    exact character_congr fun offset part => byte_store_outside (.inl (by omega))
  · obtain ⟨further, rfl⟩ := Nat.exists_eq_add_of_le behind
    rw [List.length_append] at most
    have below : further < (more ++ [0]).length := by
      rw [List.length_append, List.length_singleton]
      omega
    have stored := @character_store sandbox width (start + width.bytes * text.length) further
      (more ++ [0]) _ (List.getElem?_eq_getElem below) (le_of_eq_of_le total inside)
    rw [List.append_assoc, List.getElem?_append_right behind, Nat.add_sub_cancel_left,
      List.getElem?_eq_getElem below, Option.getD_some, Nat.mul_add, ← Nat.add_assoc]
    exact stored

/-! ## Calls on strings -/

/-- Where sizes in bytes are at most those of a 32-bit memory, they fit 64 bits. -/
theorem toNat_scaled {count : Nat} (fits : width.bytes * count ≤ 2 ^ 32) :
    (UInt64.ofNat count * width.size).toNat = width.bytes * count := by
  have positive := bytes_pos width
  have small : count ≤ 2 ^ 32 := le_trans (Nat.le_mul_of_pos_left count positive) fits
  have size : width.size.toNat = width.bytes := by cases width <;> rfl
  rw [UInt64.toNat_mul, UInt64.toNat_ofNat', size, Nat.mod_eq_of_lt (by omega : count < 2 ^ 64),
    Nat.mul_comm, Nat.mod_eq_of_lt (by omega)]

theorem pointer_of_text {offset : UInt32} {text : List (Character width)}
    (lies : sandbox.Text width offset.toNat text) : sandbox.pointer offset = some offset.toNat := by
  have inside := lies.inside
  have positive : 0 < width.bytes * (text.length + 1) :=
    Nat.mul_pos (bytes_pos width) (Nat.succ_pos _)
  exact pointer_of_valid ((sandbox.pointerCast_iff offset).mpr (by omega))

theorem strlen_of_text {start : Nat} {text : List (Character width)}
    (lies : sandbox.Text width start text) :
    sandbox.strlen width start = .ok (UInt64.ofNat text.length) := by
  obtain ⟨rest, whole⟩ := lies.characters
  rw [StringSandbox.strlen, bind_of_ok (handed_of_aligned lies.aligned), whole,
    CString.strlen_text lies.plain]
  rfl

/-- Gas is paid, or the call stops. -/
theorem consume_cases (cost : UInt64) :
    sandbox.consume cost = .error .outOfGas ∨ sandbox.consume cost = .ok () := by
  rw [consume]
  split
  · exact .inr rfl
  · exact .inl rfl

/-- A buffer that lies inside linear memory is valid. -/
theorem buffer_of_inside {offset : UInt32} {size : UInt64}
    (inside : offset.toNat + size.toNat ≤ sandbox.memorySize) :
    sandbox.buffer offset size = some offset.toNat :=
  if_pos ((sandbox.bufferCast_iff offset size).mpr inside)

end StringSandbox

section Calls

variable {sandbox : StringSandbox} {width : CharWidth}

/-- A call stops for lack of gas or returns the value. -/
def Gives {Result : Type} (call : Intrinsic Result) (value : Result) : Prop :=
  call = .error .outOfGas ∨ call = .ok value

theorem gives_consume {Result : Type} {cost : UInt64} {next : Unit → Intrinsic Result}
    {value : Result} (goesOn : Gives (next ()) value) :
    Gives (sandbox.consume cost >>= next) value := by
  rcases sandbox.consume_cases cost with stopped | paid
  · rw [stopped]
    exact .inl rfl
  · rw [bind_of_ok paid]
    exact goesOn

/-- A call goes on with the value that another one gives. -/
theorem gives_bind {Result Next : Type} {call : Intrinsic Result} {value : Result}
    {next : Result → Intrinsic Next} {final : Next} (given : Gives call value)
    (goesOn : Gives (next value) final) : Gives (call >>= next) final := by
  rcases given with stopped | returned
  · rw [stopped]
    exact .inl rfl
  · rw [bind_of_ok returned]
    exact goesOn

theorem gives_map {Result Next : Type} {call : Intrinsic Result} {value : Result}
    (given : Gives call value) (f : Result → Next) : Gives (call.map f) (f value) := by
  rcases given with stopped | returned
  · rw [stopped]
    exact .inl rfl
  · rw [returned]
    exact .inr rfl

theorem lengthIntrinsic_text {str : UInt32} {text : List (Character width)}
    (lies : sandbox.Text width str.toNat text) :
    Gives (lengthIntrinsic sandbox width str) (UInt64.ofNat text.length).toUInt32 := by
  refine gives_consume (.inr ?_)
  rw [pointer_of_text lies]
  dsimp only
  rw [bind_of_ok (strlen_of_text lies)]
  rfl

/-- Strings are told apart, whatever the host returns for characters that differ. -/
theorem compareIntrinsic_text {left right : UInt32} {first second : List (Character width)}
    (faithful : ∀ one other : Character width, sandbox.comparison one other = 0 ↔ one = other)
    (liesLeft : sandbox.Text width left.toNat first)
    (liesRight : sandbox.Text width right.toNat second) :
    ∃ result, Gives (compareIntrinsic sandbox width left right) result ∧
      (result = 0 ↔ first = second) := by
  obtain ⟨leftRest, leftWhole⟩ := liesLeft.characters
  obtain ⟨rightRest, rightWhole⟩ := liesRight.characters
  obtain ⟨one, other, decided, equal⟩ :=
    CString.strcmp_text liesLeft.plain liesRight.plain leftRest rightRest
  refine ⟨sandbox.comparison one other, gives_consume (.inr ?_), (faithful one other).trans equal⟩
  rw [pointer_of_text liesLeft, pointer_of_text liesRight]
  dsimp only
  rw [StringSandbox.strcmp, bind_of_ok (handed_of_aligned liesLeft.aligned),
    bind_of_ok (handed_of_aligned liesRight.aligned), leftWhole, rightWhole, decided]
  rfl

/-- A string is copied with its terminator. -/
theorem copyIntrinsic_text (small : sandbox.memorySize ≤ 2 ^ 32) {dst src : UInt32}
    {text : List (Character width)} (lies : sandbox.Text width src.toNat text)
    (aligned : width.Aligned dst.toNat)
    (room : dst.toNat + width.bytes * (text.length + 1) ≤ sandbox.memorySize) :
    Gives (copyIntrinsic sandbox width dst src) ⟨dst, some (dst.toNat, text ++ [0])⟩ := by
  have scaled := @toNat_scaled width (text.length + 1) (by omega)
  have positive := Nat.le_mul_of_pos_left (text.length + 1) (bytes_pos width)
  have count : (UInt64.ofNat (text.length + 1)).toNat = text.length + 1 := by
    rw [UInt64.toNat_ofNat', Nat.mod_eq_of_lt (by omega)]
  have next : UInt64.ofNat text.length + 1 = UInt64.ofNat (text.length + 1) :=
    (UInt64.ofNat_add text.length 1).symm
  obtain ⟨rest, whole⟩ := lies.characters
  rw [copyIntrinsic, pointer_of_text lies]
  dsimp only
  rw [bind_of_ok (strlen_of_text lies)]
  refine gives_consume (.inr ?_)
  rw [next, buffer_of_inside (by rw [scaled]; exact room)]
  dsimp only
  rw [StringSandbox.strncpy, bind_of_ok (handed_of_aligned aligned),
    bind_of_ok (handed_of_aligned lies.aligned), whole, count, CString.strncpy_text lies.plain]
  rfl

/-- `my_strncat` takes the length of its source or the count, whichever is smaller. -/
theorem least_count {length : Nat} (small : length < 2 ^ 64) (count : UInt32) :
    (if UInt64.ofNat length > count.toUInt64 then count.toUInt64 else UInt64.ofNat length) =
      UInt64.ofNat (min count.toNat length) := by
  have bound := count.toNat_lt
  have exact_ : (UInt64.ofNat length).toNat = length := by
    rw [UInt64.toNat_ofNat', Nat.mod_eq_of_lt small]
  have less : UInt64.ofNat length > count.toUInt64 ↔ count.toNat < length := by
    rw [gt_iff_lt, UInt64.lt_iff_toNat_lt, UInt32.toNat_toUInt64, exact_]
  apply UInt64.toNat_inj.mp
  rw [UInt64.toNat_ofNat', Nat.mod_eq_of_lt (by omega)]
  by_cases longer : count.toNat < length
  · rw [if_pos (less.mpr longer), UInt32.toNat_toUInt64]
    omega
  · rw [if_neg (mt less.mp longer), exact_]
    omega

/-- At most `count` characters of a string are appended to another. -/
theorem concatIntrinsic_text (small : sandbox.memorySize ≤ 2 ^ 32) {dst src count : UInt32}
    {front text : List (Character width)} (liesDst : sandbox.Text width dst.toNat front)
    (lies : sandbox.Text width src.toNat text)
    (room : dst.toNat + width.bytes * ((front ++ text.take count.toNat).length + 1) ≤
      sandbox.memorySize) :
    Gives (concatIntrinsic sandbox width dst src count)
      ⟨dst, some (dst.toNat + width.bytes * front.length, text.take count.toNat ++ [0])⟩ := by
  have inside := lies.inside
  have positive := Nat.le_mul_of_pos_left (text.length + 1) (bytes_pos width)
  rw [List.length_append, List.length_take] at room
  have countSmall := count.toNat_lt
  have srcCount := least_count (show text.length < 2 ^ 64 by omega) count
  have taken : (UInt64.ofNat (min count.toNat text.length)).toNat =
      min count.toNat text.length := by
    rw [UInt64.toNat_ofNat', Nat.mod_eq_of_lt (by omega)]
  have scaled := @toNat_scaled width (front.length + min count.toNat text.length + 1) (by omega)
  have dstCount : UInt64.ofNat front.length + 1 + UInt64.ofNat (min count.toNat text.length) =
      UInt64.ofNat (front.length + min count.toNat text.length + 1) := by
    rw [UInt64.ofNat_add, UInt64.ofNat_add, UInt64.add_assoc, UInt64.add_comm 1, ← UInt64.add_assoc]
    rfl
  obtain ⟨rest, whole⟩ := lies.characters
  obtain ⟨restDst, wholeDst⟩ := liesDst.characters
  rw [concatIntrinsic, pointer_of_text lies, pointer_of_text liesDst]
  dsimp only
  rw [bind_of_ok (strlen_of_text lies), bind_of_ok (strlen_of_text liesDst), srcCount, dstCount]
  refine gives_consume (.inr ?_)
  rw [buffer_of_inside (by rw [scaled]; exact room)]
  dsimp only
  rw [StringSandbox.strncat, bind_of_ok (handed_of_aligned liesDst.aligned),
    bind_of_ok (handed_of_aligned lies.aligned), wholeDst, CString.strlen_text liesDst.plain, whole,
    taken, CString.strncat_text lies.plain, ← List.take_eq_take_min]
  rfl

end Calls

/-! ## A string built piece by piece -/

/-- The guest's calls of `my_strncat` or `my_wcsncat` on one destination, with their sources and
counts. -/
def appendAll (width : CharWidth) (dst : UInt32) :
    List (UInt32 × UInt32) → StringSandbox → Intrinsic StringSandbox
  | [], sandbox => pure sandbox
  | (src, count) :: rest, sandbox => do
      let copied ← concatIntrinsic sandbox width dst src count
      appendAll width dst rest (sandbox.after copied)

/-- First `my_strcpy` or `my_wcscpy`, then the calls that append. -/
def build (width : CharWidth) (dst src : UInt32) (pieces : List (UInt32 × UInt32))
    (sandbox : StringSandbox) : Intrinsic StringSandbox := do
  let copied ← copyIntrinsic sandbox width dst src
  appendAll width dst pieces (sandbox.after copied)

/-- A string in linear memory and how many of its characters are asked for. -/
structure Piece (width : CharWidth) where
  src : UInt32
  count : UInt32
  text : List (Character width)

namespace Piece

variable {width : CharWidth}

/-- What is appended of a piece. -/
def taken (piece : Piece width) : List (Character width) := piece.text.take piece.count.toNat

def arguments (piece : Piece width) : UInt32 × UInt32 := (piece.src, piece.count)

/-- The string is not where the destination is. -/
def Apart (piece : Piece width) (low high : Nat) : Prop :=
  piece.src.toNat + width.bytes * (piece.text.length + 1) ≤ low ∨ high ≤ piece.src.toNat

end Piece

/-- A sandbox that differs from an earlier one by the bytes in a range. -/
structure Changed (before after : StringSandbox) (low high : Nat) : Prop where
  same : ∃ memory, after = { before with memory := memory }
  outside : ∀ position, position < low ∨ high ≤ position →
    after.byte position = before.byte position

namespace Changed

variable {before sandbox : StringSandbox} {width : CharWidth} {low high : Nat}

theorem refl (sandbox : StringSandbox) (low high : Nat) : Changed sandbox sandbox low high :=
  ⟨⟨sandbox.memory, rfl⟩, fun _ _ => rfl⟩

theorem memorySize (changed : Changed before sandbox low high) :
    sandbox.memorySize = before.memorySize := by
  obtain ⟨memory, rfl⟩ := changed.same
  rfl

theorem trans {after : StringSandbox} (changed : Changed before sandbox low high)
    (later : Changed sandbox after low high) : Changed before after low high := by
  refine ⟨?_, fun position outside => ?_⟩
  · obtain ⟨memory, rfl⟩ := changed.same
    obtain ⟨more, rfl⟩ := later.same
    exact ⟨more, rfl⟩
  · rw [later.outside position outside, changed.outside position outside]

/-- Characters stored in the range. -/
theorem store (changed : Changed before sandbox low high) {start : Nat}
    {chars : List (Character width)} (from_ : low ≤ start)
    (upTo : start + width.bytes * chars.length ≤ high) :
    Changed before (sandbox.store start chars) low high := by
  refine ⟨?_, fun position outside => ?_⟩
  · obtain ⟨memory, rfl⟩ := changed.same
    exact ⟨_, rfl⟩
  · rw [byte_store_outside (by omega), changed.outside position outside]

/-- A string outside the range is as it was. -/
theorem text (changed : Changed before sandbox low high) {piece : Piece width}
    (lies : before.Text width piece.src.toNat piece.text) (apart : piece.Apart low high) :
    sandbox.Text width piece.src.toNat piece.text := by
  refine lies.frame changed.memorySize fun position from_ upTo => changed.outside position ?_
  rcases apart with ahead | behind
  · exact .inl (by omega)
  · exact .inr (by omega)

end Changed

section Runs

variable {before : StringSandbox} {width : CharWidth}

/-- What one call after the other appends. By induction on the calls. -/
theorem appendAll_text (small : before.memorySize ≤ 2 ^ 32) {dst : UInt32} {high : Nat}
    (inside : high ≤ before.memorySize) {pieces : List (Piece width)}
    (each : ∀ piece ∈ pieces, before.Text width piece.src.toNat piece.text)
    (apart : ∀ piece ∈ pieces, piece.Apart dst.toNat high) {sandbox : StringSandbox}
    {front : List (Character width)} (changed : Changed before sandbox dst.toNat high)
    (lies : sandbox.Text width dst.toNat front)
    (room : dst.toNat + width.bytes * ((front ++ pieces.flatMap Piece.taken).length + 1) ≤ high) :
    appendAll width dst (pieces.map Piece.arguments) sandbox = .error .outOfGas ∨
      ∃ after, appendAll width dst (pieces.map Piece.arguments) sandbox = .ok after ∧
        after.Text width dst.toNat (front ++ pieces.flatMap Piece.taken) ∧
        Changed before after dst.toNat high := by
  induction pieces generalizing sandbox front with
  | nil =>
      refine .inr ⟨sandbox, rfl, ?_, changed⟩
      rwa [List.flatMap_nil, List.append_nil]
  | cons piece pieces ih =>
      rw [List.flatMap_cons, ← List.append_assoc] at room ⊢
      have fits : width.bytes * ((front ++ piece.taken).length + 1) ≤
          width.bytes * ((front ++ piece.taken ++ pieces.flatMap Piece.taken).length + 1) := by
        exact Nat.mul_le_mul_left _ (Nat.succ_le_succ (List.sublist_append_left ..).length_le)
      have size := changed.memorySize
      have source := changed.text (each piece (by simp)) (apart piece (by simp))
      have within : dst.toNat + width.bytes * ((front ++ piece.taken).length + 1) ≤
          sandbox.memorySize := by omega
      have call := concatIntrinsic_text (by omega) lies source within
      have changedNext : Changed before (sandbox.store (dst.toNat + width.bytes * front.length)
          (piece.taken ++ [0])) dst.toNat high := by
        refine changed.store (Nat.le_add_right ..) ?_
        rw [Nat.add_assoc, ← Nat.mul_add, List.length_append, List.length_singleton,
          ← Nat.add_assoc, ← List.length_append]
        omega
      have plain : 0 ∉ front ++ piece.taken := by
        rw [List.mem_append, not_or]
        exact ⟨lies.plain, fun member => source.plain (List.mem_of_mem_take member)⟩
      have front_ : ∀ index < front.length,
          sandbox.character width (dst.toNat + width.bytes * index) = front[index]?.getD 0 := by
        intro index below
        rw [lies.holds index (Nat.le_of_lt below), List.getElem?_append_left below]
      have liesNext := Text.appended lies.aligned plain within front_
      have rest := ih (fun other member => each other (List.mem_cons_of_mem _ member))
        (fun other member => apart other (List.mem_cons_of_mem _ member)) changedNext liesNext room
      rw [List.map_cons, Piece.arguments, appendAll]
      rcases call with stopped | copied
      · rw [stopped]
        exact .inl rfl
      · rw [bind_of_ok copied]
        exact rest

/-- A guest copies a string and appends any number of strings to it, each cut to a count, none of
them where the destination is; wide strings and their destination are aligned. Unless gas runs
out the destination then holds exactly the characters asked for and a terminator, and no other
byte of linear memory changed; `my_strlen` counts them, and `my_strcmp` returns 0 exactly for the
same string. So do the calls on wide strings. -/
theorem strings_built (small : before.memorySize ≤ 2 ^ 32)
    (faithful : ∀ one other : Character width, before.comparison one other = 0 ↔ one = other)
    {dst : UInt32} (aligned : width.Aligned dst.toNat) {first : Piece width}
    {pieces : List (Piece width)}
    (each : ∀ piece ∈ first :: pieces, before.Text width piece.src.toNat piece.text)
    (inside : dst.toNat + width.bytes * ((first.text ++ pieces.flatMap Piece.taken).length + 1) ≤
      before.memorySize)
    (apart : ∀ piece ∈ first :: pieces, piece.Apart dst.toNat
      (dst.toNat + width.bytes * ((first.text ++ pieces.flatMap Piece.taken).length + 1))) :
    build width dst first.src (pieces.map Piece.arguments) before = .error .outOfGas ∨
      ∃ after, build width dst first.src (pieces.map Piece.arguments) before = .ok after ∧
        after.Text width dst.toNat (first.text ++ pieces.flatMap Piece.taken) ∧
        (∀ position, position < dst.toNat ∨
            dst.toNat + width.bytes * ((first.text ++ pieces.flatMap Piece.taken).length + 1) ≤
              position → after.byte position = before.byte position) ∧
        (∃ length, Gives (lengthIntrinsic after width dst) length ∧
          length.toNat = (first.text ++ pieces.flatMap Piece.taken).length) ∧
        ∀ other text, after.Text width other.toNat text →
          ∃ result, Gives (compareIntrinsic after width dst other) result ∧
            (result = 0 ↔ first.text ++ pieces.flatMap Piece.taken = text) := by
  obtain ⟨source, others⟩ := List.forall_mem_cons.mp each
  obtain ⟨_, othersApart⟩ := List.forall_mem_cons.mp apart
  have fits : width.bytes * (first.text.length + 1) ≤
      width.bytes * ((first.text ++ pieces.flatMap Piece.taken).length + 1) := by
    exact Nat.mul_le_mul_left _ (Nat.succ_le_succ (List.sublist_append_left ..).length_le)
  have within : dst.toNat + width.bytes * (first.text.length + 1) ≤ before.memorySize := by omega
  have lies : (before.store dst.toNat (first.text ++ [0])).Text width dst.toNat first.text :=
    @Text.appended before width dst.toNat [] first.text aligned source.plain within nofun
  have changed : Changed before (before.store dst.toNat (first.text ++ [0])) dst.toNat
      (dst.toNat + width.bytes * ((first.text ++ pieces.flatMap Piece.taken).length + 1)) := by
    refine (Changed.refl before _ _).store (le_refl _) ?_
    have stored : (first.text ++ [0]).length = first.text.length + 1 := List.length_append
    rw [stored]
    omega
  have run := appendAll_text small inside others othersApart changed lies (le_refl _)
  rw [build]
  rcases copyIntrinsic_text small source aligned within with stopped | copied
  · rw [stopped]
    exact .inl rfl
  · rw [bind_of_ok copied]
    rcases run with stopped | ⟨after, returned, built, changes⟩
    · exact .inl stopped
    · refine .inr ⟨after, returned, built, changes.outside, ⟨_, lengthIntrinsic_text built, ?_⟩,
        fun other text another => ?_⟩
      · have positive := Nat.le_mul_of_pos_left
          ((first.text ++ pieces.flatMap Piece.taken).length + 1) (bytes_pos width)
        rw [UInt64.toNat_toUInt32, UInt64.toNat_ofNat']
        omega
      · obtain ⟨memory, rfl⟩ := changes.same
        exact compareIntrinsic_text faithful built another

/-- Two strings, `ab` and `cde`, in a small linear memory. -/
def twoTexts : StringSandbox :=
  .ofMemory (fun position : Fin 32 => [97, 98, 0, 99, 100, 101, 0].getD position.val 0) 100

/-- The wide strings `ab` and `c`. -/
def wideTexts : StringSandbox :=
  .ofMemory (fun position : Fin 64 =>
    [97, 0, 0, 0, 98, 0, 0, 0, 0, 0, 0, 0, 99, 0, 0, 0, 0, 0, 0, 0].getD position.val 0) 100

theorem ofMemory_faithful {memorySize : Nat} {memory : Fin memorySize → UInt8} {gas : Nat}
    (one other : Character width) :
    (StringSandbox.ofMemory memory gas).comparison one other = 0 ↔ one = other := by
  cases width with
  | char =>
      change (if one = other then (0 : Int32) else if one.toNat < other.toNat then -1 else 1) = 0 ↔ _
      split
      · exact iff_of_true rfl ‹_›
      · split <;> exact iff_of_false (by decide) ‹_›
  | wchar =>
      change (if one = other then (0 : Int32) else if one.toInt < other.toInt then -1 else 1) = 0 ↔ _
      split
      · exact iff_of_true rfl ‹_›
      · split <;> exact iff_of_false (by decide) ‹_›

/-- A run that gas does not stop. -/
theorem built_of_isOk {Result : Type} {run : Intrinsic Result} {holds : Result → Prop}
    (goes : run.isOk = true)
    (built : run = .error .outOfGas ∨ ∃ after, run = .ok after ∧ holds after) :
    ∃ after, run = .ok after ∧ holds after := by
  refine built.resolve_left fun stopped => ?_
  rw [stopped] at goes
  cases goes

/-- `ab` is copied, and two characters of `cde` and then all of it are appended; and the wide
`c` to the wide `ab`. -/
theorem strings_built_two :
    (∃ after, build .char 16 0 [(3, 2), (3, 9)] twoTexts = .ok after ∧
      after.Text .char 16 [97, 98, 99, 100, 99, 100, 101] ∧
        ∀ position, position < 16 ∨ 24 ≤ position →
          after.byte position = twoTexts.byte position) ∧
    ∃ after, build .wchar 32 0 [(12, 5)] wideTexts = .ok after ∧
      after.Text .wchar 32 [97, 98, 99] ∧
        ∀ position, position < 32 ∨ 48 ≤ position →
          after.byte position = wideTexts.byte position := by
  constructor
  · have first : twoTexts.Text .char 0 [97, 98] :=
      ⟨by decide, by decide, by decide, by decide +kernel⟩
    have second : twoTexts.Text .char 3 [99, 100, 101] :=
      ⟨by decide, by decide, by decide, by decide +kernel⟩
    obtain ⟨after, returned, built, outside, _⟩ := built_of_isOk (by decide +kernel)
      (@strings_built twoTexts .char (by decide) ofMemory_faithful 16 (by decide) ⟨0, 0, [97, 98]⟩
        [⟨3, 2, [99, 100, 101]⟩, ⟨3, 9, [99, 100, 101]⟩]
        (List.forall_mem_cons.mpr ⟨first, List.forall_mem_cons.mpr
          ⟨second, List.forall_mem_singleton.mpr second⟩⟩) (by decide)
        (List.forall_mem_cons.mpr ⟨.inl (by decide), List.forall_mem_cons.mpr
          ⟨.inl (by decide), List.forall_mem_singleton.mpr (.inl (by decide))⟩⟩))
    exact ⟨after, returned, built, outside⟩
  · have first : wideTexts.Text .wchar 0 [97, 98] :=
      ⟨by decide, by decide, by decide, by decide +kernel⟩
    have second : wideTexts.Text .wchar 12 [99] :=
      ⟨by decide, by decide, by decide, by decide +kernel⟩
    obtain ⟨after, returned, built, outside, _⟩ := built_of_isOk (by decide +kernel)
      (@strings_built wideTexts .wchar (by decide) ofMemory_faithful 32 (by decide) ⟨0, 0, [97, 98]⟩
        [⟨12, 5, [99]⟩]
        (List.forall_mem_cons.mpr ⟨first, List.forall_mem_singleton.mpr second⟩) (by decide)
        (List.forall_mem_cons.mpr ⟨.inl (by decide), List.forall_mem_singleton.mpr
          (.inl (by decide))⟩))
    exact ⟨after, returned, built, outside⟩

end Runs
end XProject.Plugin
