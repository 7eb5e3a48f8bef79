import XProject.Std.Machine
import XProject.Plugin.GuestStrings
import XProject.Plugin.WideSearch

/-!
# Linear memory as an array of bytes

To a guest the sized intrinsics are operations on an array of bytes. Ranges that do not
lie inside it are refused, and the guest is not told unless the answer says so; `memcpy`
of ranges that overlap is left open. What a guest's calls answer and what they leave in
linear memory is what the operations on the array say, call after call.
-/

namespace XProject.Plugin

open XProject.Std
open StringSandbox

/-- A byte of linear memory. -/
abbrev Byte := Character .char

/-- A guest's call of a sized intrinsic. -/
inductive MemoryCall where
  | memcpy (dst src size : UInt32)
  | memmove (dst src size : UInt32)
  | memset (dst : UInt32) (val : Int32) (size : UInt32)
  | memcmp (left right size : UInt32)
  | memchr (offset : UInt32) (ch : Int32) (count : UInt32)

/-- The bytes a call writes if its ranges are valid. -/
def MemoryCall.Writes (index : Nat) : MemoryCall → Prop
  | .memcpy dst _ size | .memmove dst _ size | .memset dst _ size =>
      dst.toNat ≤ index ∧ index < dst.toNat + size.toNat
  | .memcmp .. | .memchr .. => False

/-! ## The array -/

namespace GuestArray

/-- A range that lies inside the array. -/
def Inside (memory : List Byte) (offset size : UInt32) : Prop :=
  offset.toNat + size.toNat ≤ memory.length

instance decideInside (memory : List Byte) (offset size : UInt32) :
    Decidable (Inside memory offset size) :=
  inferInstanceAs (Decidable (_ ≤ _))

/-- Two ranges of one size without a common byte. -/
def Apart (left right size : UInt32) : Prop :=
  left.toNat + size.toNat ≤ right.toNat ∨ right.toNat + size.toNat ≤ left.toNat

instance decideApart (left right size : UInt32) : Decidable (Apart left right size) :=
  inferInstanceAs (Decidable (_ ∨ _))

/-- The bytes in a range. -/
def range (memory : List Byte) (offset size : UInt32) : List Byte :=
  (memory.drop offset.toNat).take size.toNat

/-- The array with bytes in the place of those from an offset on. -/
def splice (memory : List Byte) (start : Nat) (bytes : List Byte) : List Byte :=
  memory.take start ++ bytes ++ memory.drop (start + bytes.length)

/-- The array after bytes were moved, unless one of the ranges is refused. -/
def moved (memory : List Byte) (dst src size : UInt32) : List Byte :=
  if Inside memory dst size ∧ Inside memory src size then
    splice memory dst.toNat (range memory src size)
  else memory

/-- The array after a range was filled, unless it is refused. -/
def filled (memory : List Byte) (dst size : UInt32) (byte : Byte) : List Byte :=
  if Inside memory dst size then splice memory dst.toNat (List.replicate size.toNat byte)
  else memory

/-- The order of the first bytes that differ, 0 without any, and -1 if a range is refused. -/
def compared (order : Byte → Byte → Int32) (memory : List Byte) (left right size : UInt32) :
    Int32 :=
  if Inside memory left size ∧ Inside memory right size then
    (((range memory left size).zip (range memory right size)).find?
      fun pair => pair.1 ≠ pair.2).elim 0 fun pair => order pair.1 pair.2
  else -1

/-- The offset of the first byte equal to `ch`, null without one. The search ends with
the array, whose remaining size is taken in 32 bits. -/
def found (memory : List Byte) (offset : UInt32) (ch : Byte) (count : UInt32) : UInt32 :=
  let most := min ((memory.length - offset.toNat) % 2 ^ 32) count.toNat
  (((memory.drop offset.toNat).take most).idxOf? ch).elim xNull fun index =>
    UInt32.ofNat (offset.toNat + index)

/-- What a call answers and leaves. -/
def apply (order : Byte → Byte → Int32) (memory : List Byte) :
    MemoryCall → Option (BitVec 32 × List Byte)
  | .memcpy dst src size =>
      if Inside memory dst size ∧ Inside memory src size ∧ ¬Apart dst src size then none
      else some (dst.toBitVec, moved memory dst src size)
  | .memmove dst src size => some (dst.toBitVec, moved memory dst src size)
  | .memset dst val size =>
      some (dst.toBitVec, filled memory dst size (val.toBitVec.setWidth 8))
  | .memcmp left right size =>
      some ((compared order memory left right size).toBitVec, memory)
  | .memchr offset ch count =>
      some ((found memory offset (ch.toBitVec.setWidth 8) count).toBitVec, memory)

/-- The array under one call after another. -/
@[reducible] def machine (order : Byte → Byte → Int32) : Machine MemoryCall (BitVec 32) where
  State := List Byte
  step := apply order

theorem length_range {memory : List Byte} {offset size : UInt32} (inside : Inside memory offset size) :
    (range memory offset size).length = size.toNat := by
  unfold Inside at inside
  rw [range, List.length_take, List.length_drop]
  omega

/-- A byte of the array after a store. -/
theorem getElem?_splice {memory bytes : List Byte} {start : Nat}
    (inside : start + bytes.length ≤ memory.length) (index : Nat) :
    (splice memory start bytes)[index]? =
      if start ≤ index ∧ index < start + bytes.length then bytes[index - start]?
      else memory[index]? := by
  have front : (memory.take start).length = start := by
    rw [List.length_take]
    omega
  rw [splice, List.append_assoc]
  rcases Nat.lt_or_ge index start with before | behind
  · rw [if_neg (by omega), List.getElem?_append_left (by omega), List.getElem?_take_of_lt before]
  · rw [List.getElem?_append_right (by omega), front]
    rcases Nat.lt_or_ge index (start + bytes.length) with within | past
    · rw [if_pos ⟨behind, within⟩, List.getElem?_append_left (by omega)]
    · have rest : start + bytes.length + (index - start - bytes.length) = index := by omega
      rw [if_neg (by omega), List.getElem?_append_right (by omega), List.getElem?_drop, rest]

/-- A call changes no byte that it does not write. -/
theorem apply_outside {order : Byte → Byte → Int32} {memory after : List Byte} {call : MemoryCall}
    {answer : BitVec 32} (applied : apply order memory call = some (answer, after)) {index : Nat}
    (outside : ¬call.Writes index) : after[index]? = memory[index]? := by
  have spliced : ∀ {dst size : UInt32} {bytes : List Byte}, Inside memory dst size →
      bytes.length = size.toNat → ¬(dst.toNat ≤ index ∧ index < dst.toNat + size.toNat) →
      (splice memory dst.toNat bytes)[index]? = memory[index]? := by
    intro dst size bytes inside length other
    unfold Inside at inside
    rw [getElem?_splice (by omega), if_neg (by omega)]
  have kept : ∀ {dst src size : UInt32}, ¬(dst.toNat ≤ index ∧ index < dst.toNat + size.toNat) →
      (moved memory dst src size)[index]? = memory[index]? := by
    intro dst src size other
    rw [moved]
    split
    · rename_i inside
      exact spliced inside.1 (length_range inside.2) other
    · rfl
  have set : ∀ {dst size : UInt32}, ¬(dst.toNat ≤ index ∧ index < dst.toNat + size.toNat) →
      ∀ byte, (filled memory dst size byte)[index]? = memory[index]? := by
    intro dst size other byte
    rw [filled]
    split
    · rename_i inside
      exact spliced inside (List.length_replicate ..) other
    · rfl
  cases call with
  | memcpy dst src size =>
      rw [apply, Option.ite_none_left_eq_some] at applied
      cases applied.2
      exact kept outside
  | memmove dst src size =>
      cases applied
      exact kept outside
  | memset dst val size =>
      cases applied
      exact set outside _
  | memcmp left right size | memchr offset ch count =>
      cases applied
      rfl

/-- Nor do several. -/
theorem run_outside {order : Byte → Byte → Int32} {memory after : List Byte}
    {calls : List MemoryCall} {answers : List (BitVec 32)}
    (ran : (machine order).run memory calls = some (answers, after)) {index : Nat}
    (outside : ∀ call ∈ calls, ¬call.Writes index) : after[index]? = memory[index]? := by
  induction calls generalizing memory answers with
  | nil =>
      cases ran
      rfl
  | cons call calls ih =>
      obtain ⟨answer, next, later, applied, rest, _⟩ := Machine.run_cons_eq_some.mp ran
      obtain ⟨here, others⟩ := List.forall_mem_cons.mp outside
      exact (ih rest others).trans (apply_outside applied here)

end GuestArray

namespace MemorySandbox

/-- What linear memory holds. -/
def contents (sandbox : MemorySandbox) : List Byte := sandbox.characters .char 0

/-- The sandbox after a call that copies. -/
def after (sandbox : MemorySandbox) (copied : Copied .char) : MemorySandbox :=
  match copied.stored with
  | some (start, chars) =>
      { sandbox with memory := (sandbox.toStringSandbox.store start chars).memory }
  | none => sandbox

/-- A call and what it leaves. -/
def perform (sandbox : MemorySandbox) : MemoryCall → Intrinsic (BitVec 32 × MemorySandbox)
  | .memcpy dst src size => do
      let copied ← myMemcpy sandbox dst src size
      pure (copied.result.toBitVec, sandbox.after copied)
  | .memmove dst src size => do
      let copied ← myMemmove sandbox dst src size
      pure (copied.result.toBitVec, sandbox.after copied)
  | .memset dst val size => do
      let copied ← myMemset sandbox dst val size
      pure (copied.result.toBitVec, sandbox.after copied)
  | .memcmp left right size => do
      let result ← myMemcmp sandbox left right size
      pure (result.toBitVec, sandbox)
  | .memchr offset ch count => do
      let result ← myMemchr sandbox offset ch count
      pure (result.toBitVec, sandbox)

/-- One call after another. -/
def performAll : List MemoryCall → MemorySandbox → Intrinsic (List (BitVec 32) × MemorySandbox)
  | [], sandbox => pure ([], sandbox)
  | call :: calls, sandbox => do
      let (answer, next) ← sandbox.perform call
      let (answers, final) ← performAll calls next
      pure (answer :: answers, final)

variable {sandbox : MemorySandbox}

theorem length_contents : sandbox.contents.length = sandbox.memorySize := by
  rw [contents, length_characters, CharWidth.bytes, Nat.div_one, Nat.sub_zero]

theorem getElem?_contents (index : Nat) :
    sandbox.contents[index]? =
      if index < sandbox.memorySize then some (sandbox.character .char index) else none := by
  by_cases inside : index < sandbox.memorySize
  · rw [if_pos inside, contents, getElem?_characters, CharWidth.bytes, Nat.one_mul, Nat.one_mul,
      Nat.zero_add, Nat.zero_add]
    exact ⟨inside, rfl⟩
  · rw [if_neg inside]
    apply List.getElem?_eq_none
    rw [length_contents]
    omega

/-- The characters from a position on are what is left of the array there. -/
theorem characters_eq (position : Nat) :
    sandbox.characters .char position = sandbox.contents.drop position := by
  apply List.ext_getElem?
  intro index
  rw [List.getElem?_drop, getElem?_contents]
  by_cases inside : position + index < sandbox.memorySize
  · rw [if_pos inside, getElem?_characters, CharWidth.bytes, Nat.one_mul, Nat.one_mul]
    exact ⟨inside, rfl⟩
  · rw [if_neg inside]
    apply List.getElem?_eq_none
    rw [length_characters, CharWidth.bytes, Nat.div_one]
    omega

/-- Characters stored take the place of as many bytes of the array. -/
theorem contents_after {start : Nat} {chars : List Byte} {result : UInt32}
    (inside : start + chars.length ≤ sandbox.memorySize) :
    (sandbox.after ⟨result, some (start, chars)⟩).contents =
      GuestArray.splice sandbox.contents start chars := by
  apply List.ext_getElem?
  intro index
  have room : start + chars.length ≤ sandbox.contents.length := by
    rw [length_contents]
    exact inside
  have narrow : start + CharWidth.char.bytes * chars.length ≤ sandbox.memorySize := by
    rw [CharWidth.bytes, Nat.one_mul]
    exact inside
  rw [GuestArray.getElem?_splice room, getElem?_contents]
  change (if index < sandbox.memorySize then
    some ((sandbox.toStringSandbox.store start chars).character .char index) else none) = _
  by_cases stored : start ≤ index ∧ index < start + chars.length
  · have below : index - start < chars.length := by omega
    have here := List.getElem?_eq_getElem below
    have kept := @character_store sandbox.toStringSandbox .char start _ chars _ here narrow
    rw [CharWidth.bytes, Nat.one_mul, Nat.add_sub_cancel' stored.1] at kept
    rw [if_pos (by omega), if_pos stored, kept, here]
  · have same : (sandbox.toStringSandbox.store start chars).character .char index =
        sandbox.character .char index := by
      refine character_congr fun offset part => byte_store_outside ?_
      rw [CharWidth.bytes] at part ⊢
      omega
    rw [if_neg stored, same, getElem?_contents]

/-! ## One call -/

/-- A buffer is valid when its range lies inside the array. -/
theorem buffer_eq (offset size : UInt32) :
    sandbox.buffer offset size.toUInt64 =
      if GuestArray.Inside sandbox.contents offset size then some offset.toNat else none := by
  have same : sandbox.bufferCast offset size.toUInt64 = true ↔
      GuestArray.Inside sandbox.contents offset size := by
    rw [sandbox.bufferCast_iff, UInt32.toNat_toUInt64, GuestArray.Inside, length_contents]
  simp only [buffer, same]

/-- A sandbox that differs by what linear memory holds. -/
def Differs (sandbox next : MemorySandbox) : Prop :=
  ∃ memory, next = { sandbox with memory := memory }

theorem Differs.trans {next final : MemorySandbox} (first : Differs sandbox next)
    (second : Differs next final) : Differs sandbox final := by
  obtain ⟨bytes, rfl⟩ := first
  obtain ⟨more, rfl⟩ := second
  exact ⟨more, rfl⟩

theorem differs_after (copied : Copied .char) : Differs sandbox (sandbox.after copied) := by
  obtain ⟨result, stored⟩ := copied
  cases stored with
  | none => exact ⟨sandbox.memory, rfl⟩
  | some stored => exact ⟨_, rfl⟩

/-- `my_memcpy` and `my_memmove` store the source's bytes if both ranges are valid. -/
theorem moveIntrinsic_gives (dst src size : UInt32) :
    Gives (moveIntrinsic sandbox dst src size)
      ⟨dst, if GuestArray.Inside sandbox.contents dst size ∧
          GuestArray.Inside sandbox.contents src size then
        some (dst.toNat, GuestArray.range sandbox.contents src size) else none⟩ := by
  refine gives_consume (.inr ?_)
  rw [buffer_eq, buffer_eq]
  by_cases insideDst : GuestArray.Inside sandbox.contents dst size
  · by_cases insideSrc : GuestArray.Inside sandbox.contents src size
    · rw [if_pos insideDst, if_pos insideSrc, if_pos ⟨insideDst, insideSrc⟩]
      simp only [memmove, characters_eq, UInt32.toNat_toUInt64]
      rfl
    · have refused : ¬(GuestArray.Inside sandbox.contents dst size ∧
          GuestArray.Inside sandbox.contents src size) := fun both => insideSrc both.2
      rw [if_pos insideDst, if_neg insideSrc, if_neg refused]
      rfl
  · have refused : ¬(GuestArray.Inside sandbox.contents dst size ∧
        GuestArray.Inside sandbox.contents src size) := fun both => insideDst both.1
    rw [if_neg insideDst, if_neg refused]
    rfl

theorem contents_moved (dst src size : UInt32) :
    (sandbox.after ⟨dst, if GuestArray.Inside sandbox.contents dst size ∧
        GuestArray.Inside sandbox.contents src size then
      some (dst.toNat, GuestArray.range sandbox.contents src size) else none⟩).contents =
    GuestArray.moved sandbox.contents dst src size := by
  by_cases inside : GuestArray.Inside sandbox.contents dst size ∧
      GuestArray.Inside sandbox.contents src size
  · rw [if_pos inside, GuestArray.moved, if_pos inside]
    apply contents_after
    rw [GuestArray.length_range inside.2, ← length_contents]
    exact inside.1
  · rw [if_neg inside, GuestArray.moved, if_neg inside]
    rfl

/-- `my_memset` stores the byte if its range is valid. -/
theorem myMemset_gives (dst size : UInt32) (val : Int32) :
    Gives (myMemset sandbox dst val size)
      ⟨dst, if GuestArray.Inside sandbox.contents dst size then
        some (dst.toNat, List.replicate size.toNat (val.toBitVec.setWidth 8)) else none⟩ := by
  refine gives_consume (.inr ?_)
  rw [buffer_eq]
  by_cases inside : GuestArray.Inside sandbox.contents dst size
  · rw [if_pos inside, if_pos inside]
    simp only [memset, UInt32.toNat_toUInt64]
    rfl
  · rw [if_neg inside, if_neg inside]
    rfl

theorem contents_filled (dst size : UInt32) (byte : Byte) :
    (sandbox.after ⟨dst, if GuestArray.Inside sandbox.contents dst size then
      some (dst.toNat, List.replicate size.toNat byte) else none⟩).contents =
    GuestArray.filled sandbox.contents dst size byte := by
  by_cases inside : GuestArray.Inside sandbox.contents dst size
  · rw [if_pos inside, GuestArray.filled, if_pos inside]
    apply contents_after
    rw [List.length_replicate, ← length_contents]
    exact inside
  · rw [if_neg inside, GuestArray.filled, if_neg inside]
    rfl

/-- `my_memcmp` compares the ranges if both are valid. -/
theorem myMemcmp_gives (left right size : UInt32) :
    Gives (myMemcmp sandbox left right size)
      (GuestArray.compared sandbox.memoryComparison sandbox.contents left right size) := by
  refine gives_consume (.inr ?_)
  rw [buffer_eq, buffer_eq]
  by_cases insideLeft : GuestArray.Inside sandbox.contents left size
  · by_cases insideRight : GuestArray.Inside sandbox.contents right size
    · have enough : ∀ {offset : UInt32}, GuestArray.Inside sandbox.contents offset size →
          size.toNat ≤ (sandbox.contents.drop offset.toNat).length := by
        intro offset inside
        unfold GuestArray.Inside at inside
        rw [List.length_drop]
        omega
      rw [if_pos insideLeft, if_pos insideRight, GuestArray.compared,
        if_pos ⟨insideLeft, insideRight⟩]
      simp only [memcmp, characters_eq, UInt32.toNat_toUInt64,
        CString.memcmp_take (enough insideLeft) (enough insideRight), GuestArray.range]
      cases ((List.take size.toNat (List.drop left.toNat sandbox.contents)).zip
          (List.take size.toNat (List.drop right.toNat sandbox.contents))).find?
          fun pair => pair.1 ≠ pair.2 with
      | none => rfl
      | some pair => rfl
    · have refused : ¬(GuestArray.Inside sandbox.contents left size ∧
          GuestArray.Inside sandbox.contents right size) := fun both => insideRight both.2
      rw [if_pos insideLeft, if_neg insideRight, GuestArray.compared, if_neg refused]
      rfl
  · have refused : ¬(GuestArray.Inside sandbox.contents left size ∧
        GuestArray.Inside sandbox.contents right size) := fun both => insideLeft both.1
    rw [if_neg insideLeft, GuestArray.compared, if_neg refused]
    rfl

/-- What is left of a memory of at most 4 GiB is cut to 32 bits, then to the count. -/
theorem toNat_maxSize_cut (small : sandbox.memorySize ≤ 2 ^ 32) {offset : UInt32}
    (inside : offset.toNat ≤ sandbox.memorySize) (count : UInt32) :
    (maxSize sandbox offset count).toNat =
      min ((sandbox.memorySize - offset.toNat) % 2 ^ 32) count.toNat := by
  have total : sandbox.linearMemorySize.toNat = sandbox.memorySize := by
    rw [linearMemorySize, UInt64.toNat_ofNat']
    omega
  have before : offset.toUInt64 ≤ sandbox.linearMemorySize := by
    rw [UInt64.le_iff_toNat_le, UInt32.toNat_toUInt64, total]
    exact inside
  have left : (sandbox.linearMemorySize - offset.toUInt64).toUInt32.toNat =
      (sandbox.memorySize - offset.toNat) % 2 ^ 32 := by
    rw [UInt64.toNat_toUInt32, UInt64.toNat_sub_of_le _ _ before, UInt32.toNat_toUInt64, total]
  simp only [maxSize, gt_iff_lt, UInt32.lt_iff_toNat_lt, left]
  split
  · omega
  · rw [left]
    omega

/-- The host finds the first match in a range that lies inside the array. -/
theorem memchr_gives (byte : Byte) {offset size : UInt32}
    (inside : GuestArray.Inside sandbox.contents offset size) :
    sandbox.memchr .char offset.toNat byte size.toUInt64 =
      .ok (((GuestArray.range sandbox.contents offset size).idxOf? byte).map
        fun index => offset.toNat + index) := by
  have enough : size.toNat ≤ (sandbox.contents.drop offset.toNat).length := by
    unfold GuestArray.Inside at inside
    rw [List.length_drop]
    omega
  simp only [memchr, characters_eq, UInt32.toNat_toUInt64, CString.memchr_take byte enough,
    CharWidth.bytes, Nat.one_mul]
  rfl

/-- The answer for what the host finds. -/
theorem found_answer (small : sandbox.memorySize ≤ 2 ^ 32)
    (offsets : ∀ position < sandbox.memorySize,
      sandbox.linearMemoryOffset position = UInt32.ofNat position)
    {offset : UInt32} (inside : offset.toNat ≤ sandbox.memorySize) (byte : Byte) (count : UInt32) :
    (match ((GuestArray.range sandbox.contents offset (maxSize sandbox offset count)).idxOf?
        byte).map fun index => offset.toNat + index with
      | none => pure xNull
      | some ret => pure (sandbox.linearMemoryOffset ret) : Intrinsic UInt32) =
      .ok (GuestArray.found sandbox.contents offset byte count) := by
  have most := toNat_maxSize_cut small inside count
  rw [GuestArray.found, length_contents, GuestArray.range, most]
  cases located : ((sandbox.contents.drop offset.toNat).take
      (min ((sandbox.memorySize - offset.toNat) % 2 ^ 32) count.toNat)).idxOf? byte with
  | none => rfl
  | some index =>
      obtain ⟨before, _⟩ := List.idxOf?_eq_some_iff.mp located
      rw [List.length_take, List.length_drop, length_contents] at before
      exact congrArg Except.ok (offsets (offset.toNat + index) (by omega))

/-- `my_memchr` answers with the offset of the first match, or with null. -/
theorem myMemchr_gives (small : sandbox.memorySize ≤ 2 ^ 32)
    (offsets : ∀ position < sandbox.memorySize,
      sandbox.linearMemoryOffset position = UInt32.ofNat position)
    (offset : UInt32) (ch : Int32) (count : UInt32) :
    Gives (myMemchr sandbox offset ch count)
      (GuestArray.found sandbox.contents offset (ch.toBitVec.setWidth 8) count) := by
  refine gives_consume (.inr ?_)
  dsimp only
  rcases Nat.lt_or_ge sandbox.memorySize offset.toNat with outside | inside
  · have refused : ¬GuestArray.Inside sandbox.contents offset (maxSize sandbox offset count) := by
      rw [GuestArray.Inside, length_contents]
      omega
    have nothing : sandbox.contents.drop offset.toNat = [] := by
      apply List.drop_of_length_le
      rw [length_contents]
      exact outside.le
    rw [buffer_eq, if_neg refused]
    simp only [GuestArray.found, nothing, List.take_nil]
    rfl
  · have most := toNat_maxSize_cut small inside count
    have part := Nat.mod_le (sandbox.memorySize - offset.toNat) (2 ^ 32)
    have accepted : GuestArray.Inside sandbox.contents offset (maxSize sandbox offset count) := by
      rw [GuestArray.Inside, length_contents, most]
      omega
    rw [buffer_eq, if_pos accepted]
    dsimp only
    rw [bind_of_ok (memchr_gives (ch.toBitVec.setWidth 8) accepted)]
    exact found_answer small offsets inside (ch.toBitVec.setWidth 8) count

/-! ## Runs -/

/-- A call answers and leaves what the operation on the array says, unless it stops for
lack of gas. -/
theorem perform_gives (small : sandbox.memorySize ≤ 2 ^ 32)
    (offsets : ∀ position < sandbox.memorySize,
      sandbox.linearMemoryOffset position = UInt32.ofNat position)
    {call : MemoryCall} {answer : BitVec 32} {memory : List Byte}
    (applied : GuestArray.apply sandbox.memoryComparison sandbox.contents call =
      some (answer, memory)) :
    ∃ next, Gives (sandbox.perform call) (answer, next) ∧ next.contents = memory ∧
      Differs sandbox next := by
  cases call with
  | memcpy dst src size =>
      rw [GuestArray.apply, Option.ite_none_left_eq_some] at applied
      cases applied.2
      exact ⟨_, gives_bind (moveIntrinsic_gives dst src size) (.inr rfl),
        contents_moved dst src size, differs_after _⟩
  | memmove dst src size =>
      cases applied
      exact ⟨_, gives_bind (moveIntrinsic_gives dst src size) (.inr rfl),
        contents_moved dst src size, differs_after _⟩
  | memset dst val size =>
      cases applied
      exact ⟨_, gives_bind (myMemset_gives dst size val) (.inr rfl),
        contents_filled dst size _, differs_after _⟩
  | memcmp left right size =>
      cases applied
      exact ⟨sandbox, gives_bind (myMemcmp_gives left right size) (.inr rfl), rfl,
        ⟨sandbox.memory, rfl⟩⟩
  | memchr offset ch count =>
      cases applied
      exact ⟨sandbox, gives_bind (myMemchr_gives small offsets offset ch count) (.inr rfl), rfl,
        ⟨sandbox.memory, rfl⟩⟩

/-- Whatever a guest calls, in any order: unless gas runs out, the calls answer what
the operations on the array of linear memory's bytes answer and leave what these leave.
A refused range changes nothing, and no byte changes that no call writes. -/
theorem memory_refines (small : sandbox.memorySize ≤ 2 ^ 32)
    (offsets : ∀ position < sandbox.memorySize,
      sandbox.linearMemoryOffset position = UInt32.ofNat position)
    {calls : List MemoryCall} {answers : List (BitVec 32)} {memory : List Byte}
    (reference : (GuestArray.machine sandbox.memoryComparison).run sandbox.contents calls =
      some (answers, memory)) :
    ∃ final, Gives (performAll calls sandbox) (answers, final) ∧ final.contents = memory ∧
      Differs sandbox final ∧ ∀ index, (∀ call ∈ calls, ¬call.Writes index) →
        final.contents[index]? = sandbox.contents[index]? := by
  have ran : ∃ final, Gives (performAll calls sandbox) (answers, final) ∧
      final.contents = memory ∧ Differs sandbox final := by
    induction calls generalizing sandbox answers with
    | nil =>
        cases reference
        exact ⟨sandbox, .inr rfl, rfl, ⟨sandbox.memory, rfl⟩⟩
    | cons call calls ih =>
        obtain ⟨answer, middle, later, applied, rest, rfl⟩ :=
          Machine.run_cons_eq_some.mp reference
        obtain ⟨next, given, rfl, differs⟩ := perform_gives small offsets applied
        have host : next.memorySize = sandbox.memorySize ∧
            next.linearMemoryOffset = sandbox.linearMemoryOffset ∧
            next.memoryComparison = sandbox.memoryComparison := by
          obtain ⟨bytes, rfl⟩ := differs
          exact ⟨rfl, rfl, rfl⟩
        obtain ⟨size, offset, order⟩ := host
        rw [← size] at small
        rw [← size, ← offset] at offsets
        rw [← order] at rest
        obtain ⟨final, givenRest, left, differsRest⟩ := ih small offsets rest
        refine ⟨final, gives_bind given ?_, left, differs.trans differsRest⟩
        exact gives_bind givenRest (.inr rfl)
  obtain ⟨final, given, left, differs⟩ := ran
  refine ⟨final, given, left, differs, fun index outside => ?_⟩
  rw [left]
  exact GuestArray.run_outside reference outside

/-- Eight bytes, filled, moved onto themselves, searched and compared. -/
theorem memory_refines_eight :
    let sandbox := MemorySandbox.ofMemory (fun position : Fin 8 => UInt8.ofNat position.val) 100
    let calls : List MemoryCall := [.memset 0 (-1) 2, .memmove 1 0 4, .memchr 3 3 0xffffffff,
      .memcmp 0 1 2, .memset 6 0 3]
    ∃ final, Gives (performAll calls sandbox) ([0, 1, 4, 0, 6], final) ∧
      final.contents = [255, 255, 255, 2, 3, 5, 6, 7] ∧ Differs sandbox final ∧
      ∀ index, (∀ call ∈ calls, ¬call.Writes index) →
        final.contents[index]? = sandbox.contents[index]? := by
  intro sandbox calls
  exact @memory_refines sandbox (by decide) (fun _ _ => rfl) calls [0, 1, 4, 0, 6]
    [255, 255, 255, 2, 3, 5, 6, 7] (by decide +kernel)

end MemorySandbox
end XProject.Plugin
