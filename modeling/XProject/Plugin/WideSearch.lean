import XProject.Plugin.MemoryIntrinsics
import XProject.Plugin.StringBounds

/-!
# What `my_wmemchr` finds

The count becomes bytes in 32 bits before it is cut to what is left of linear
memory, so a count from `2 ^ 30` on loses its upper bits first. The search stays
inside linear memory all the same, but it may end too early.
-/

namespace XProject.Plugin

open XProject.Std
open StringSandbox

/-- `static_cast<wchar_t>(wch)`. -/
abbrev wideCharacter (wch : UInt32) : Character .wchar := wch.toBitVec

/-- The index of the first wide character equal to `wch` among `count`, or among those
left of linear memory where these are fewer. -/
def wideSearch (sandbox : MemorySandbox) (src wch count : UInt32) : Option Nat :=
  ((sandbox.characters .wchar src.toNat).idxOf? (wideCharacter wch)).filter fun index =>
    decide (index < count.toNat)

/-- The offset of the wide character at an index, null without one. -/
def wideOffset (src : UInt32) (found : Option Nat) : UInt32 :=
  found.elim xNull fun index => UInt32.ofNat (src.toNat + 4 * index)

/-- The match lies before the end of a search for the count that keeps 30 bits, or its
offset is null itself. -/
def FoundInTime (sandbox : MemorySandbox) (src wch count : UInt32) : Prop :=
  ∀ index ∈ wideSearch sandbox src wch count,
    index < count.toNat % 2 ^ 30 ∨ (src.toNat = 0 ∧ index = 0)

section

variable {sandbox : MemorySandbox} {src wch count : UInt32}

/-- In a memory below 4 GiB the cut leaves what is asked for or what there is. -/
theorem toNat_maxSize (small : sandbox.memorySize < 2 ^ 32)
    (inside : src.toNat < sandbox.memorySize) (size : UInt32) :
    (maxSize sandbox src size).toNat = min (sandbox.memorySize - src.toNat) size.toNat := by
  have total : (UInt64.ofNat sandbox.memorySize).toNat = sandbox.memorySize := by
    rw [UInt64.toNat_ofNat']
    omega
  have before : src.toUInt64 ≤ UInt64.ofNat sandbox.memorySize := by
    rw [UInt64.le_iff_toNat_le, UInt32.toNat_toUInt64, total]
    omega
  have left : (sandbox.linearMemorySize - src.toUInt64).toUInt32.toNat =
      sandbox.memorySize - src.toNat := by
    rw [MemorySandbox.linearMemorySize, UInt64.toNat_toUInt32, UInt64.toNat_sub_of_le _ _ before,
      UInt32.toNat_toUInt64, total]
    omega
  simp only [maxSize, gt_iff_lt, UInt32.lt_iff_toNat_lt, left]
  split
  · omega
  · rw [left]
    omega

/-- Shifted to bytes and back, the count keeps 30 bits. -/
theorem toNat_searched (small : sandbox.memorySize < 2 ^ 32)
    (inside : src.toNat < sandbox.memorySize) :
    (maxSize sandbox src (count <<< 2) >>> 2).toUInt64.toNat =
      min ((sandbox.memorySize - src.toNat) / 4) (count.toNat % 2 ^ 30) := by
  have bytes : (count <<< 2).toNat = 4 * count.toNat % 2 ^ 32 := by
    rw [UInt32.toNat_shiftLeft, Nat.shiftLeft_eq, Nat.mul_comm]
    rfl
  rw [UInt32.toNat_toUInt64, UInt32.toNat_shiftRight, toNat_maxSize small inside, bytes,
    Nat.shiftRight_eq_div_pow]
  simp only [UInt32.reduceToNat, Nat.reduceMod, Nat.reducePow]
  omega

/-- A host search for no more characters than there are finds the first match. -/
theorem memchr_ok {width : CharWidth} {position : Nat} (ch : Character width) {size : UInt64}
    (enough : size.toNat ≤ (sandbox.characters width position).length) :
    sandbox.memchr width position ch size =
      .ok ((((sandbox.characters width position).idxOf? ch).filter fun index =>
        decide (index < size.toNat)).map fun index => position + width.bytes * index) := by
  simp only [MemorySandbox.memchr, CString.memchr_eq ch enough]
  rfl

theorem length_characters (width : CharWidth) (position : Nat) :
    (sandbox.characters width position).length = (sandbox.memorySize - position) / width.bytes := by
  rw [characters, List.length_map, List.length_range]

/-- What is found lies wholly inside linear memory. -/
theorem found_inside {index : Nat}
    (found : (sandbox.characters .wchar src.toNat).idxOf? (wideCharacter wch) = some index) :
    index < (sandbox.memorySize - src.toNat) / 4 := by
  obtain ⟨within, _⟩ := List.idxOf?_eq_some_iff.mp found
  exact Nat.lt_of_lt_of_eq within (length_characters _ _)

/-- Cutting a search to what is left of linear memory does not change what it finds. -/
theorem filter_searched (most : Nat) (wch : UInt32) :
    (((sandbox.characters .wchar src.toNat).idxOf? (wideCharacter wch)).filter fun index =>
      decide (index < min ((sandbox.memorySize - src.toNat) / 4) most)) =
    ((sandbox.characters .wchar src.toNat).idxOf? (wideCharacter wch)).filter fun index =>
      decide (index < most) := by
  cases found : (sandbox.characters .wchar src.toNat).idxOf? (wideCharacter wch) with
  | none => rfl
  | some index =>
      have before := found_inside found
      have same : index < min ((sandbox.memorySize - src.toNat) / 4) most ↔ index < most := by
        omega
      simp only [Option.filter, same]

/-- The search has all the characters it looks at, and finds the first match among those
that the shifts leave. -/
theorem myWmemchr_eq (paid : sandbox.gasConsume sandbox.intrinsicCallCost = true)
    (small : sandbox.memorySize < 2 ^ 32) (inside : src.toNat < sandbox.memorySize)
    (offsets : ∀ position < sandbox.memorySize,
      sandbox.linearMemoryOffset position = UInt32.ofNat position) :
    myWmemchr sandbox src wch count =
      .ok (wideOffset src (((sandbox.characters .wchar src.toNat).idxOf? (wideCharacter wch)).filter
        fun index => decide (index < count.toNat % 2 ^ 30))) := by
  have consumed : sandbox.consume sandbox.intrinsicCallCost = .ok () := if_pos paid
  have searched := @toNat_searched sandbox src count small inside
  have accepted : sandbox.buffer src (maxSize sandbox src (count <<< 2)).toUInt64 =
      some src.toNat := by
    refine if_pos ((sandbox.bufferCast_iff _ _).mpr ?_)
    rw [UInt32.toNat_toUInt64, toNat_maxSize small inside]
    omega
  have enough : (maxSize sandbox src (count <<< 2) >>> 2).toUInt64.toNat ≤
      (sandbox.characters .wchar src.toNat).length := by
    rw [searched, length_characters]
    exact Nat.min_le_left _ _
  have host := memchr_ok (wideCharacter wch) enough
  rw [searched, filter_searched] at host
  rw [myWmemchr, bind_of_ok consumed]
  dsimp only
  rw [accepted]
  dsimp only
  rw [bind_of_ok host]
  cases found : ((sandbox.characters .wchar src.toNat).idxOf? (wideCharacter wch)).filter
      fun index => decide (index < count.toNat % 2 ^ 30) with
  | none => rfl
  | some index =>
      obtain ⟨first, _⟩ := Option.filter_eq_some_iff.mp found
      have before := found_inside first
      exact congrArg Except.ok (offsets (src.toNat + 4 * index) (by omega))

/-- In a memory below 4 GiB `my_wmemchr` never scans outside, and returns the offset of the
first match among `count` wide characters exactly when that is found in time. -/
theorem my_wmemchr_iff (paid : sandbox.gasConsume sandbox.intrinsicCallCost = true)
    (small : sandbox.memorySize < 2 ^ 32) (inside : src.toNat < sandbox.memorySize)
    (offsets : ∀ position < sandbox.memorySize,
      sandbox.linearMemoryOffset position = UInt32.ofNat position) :
    myWmemchr sandbox src wch count ≠ .error .outside ∧
      (myWmemchr sandbox src wch count = .ok (wideOffset src (wideSearch sandbox src wch count)) ↔
        FoundInTime sandbox src wch count) := by
  rw [myWmemchr_eq paid small inside offsets]
  refine ⟨nofun, ?_⟩
  rw [Except.ok.injEq, FoundInTime, wideSearch]
  cases found : (sandbox.characters .wchar src.toNat).idxOf? (wideCharacter wch) with
  | none => exact iff_of_true rfl fun _ none_ => nomatch none_
  | some index =>
      have before := found_inside found
      have position : (UInt32.ofNat (src.toNat + 4 * index)).toNat = src.toNat + 4 * index := by
        rw [UInt32.toNat_ofNat']
        omega
      have offset : xNull = UInt32.ofNat (src.toNat + 4 * index) ↔ src.toNat = 0 ∧ index = 0 := by
        rw [← UInt32.toNat_inj, position]
        have null : xNull.toNat = 0 := rfl
        omega
      have fewer := Nat.mod_le count.toNat (2 ^ 30)
      simp only [Option.filter, decide_eq_true_eq]
      by_cases asked : index < count.toNat
      · rw [if_pos asked]
        by_cases kept : index < count.toNat % 2 ^ 30
        · rw [if_pos kept]
          refine iff_of_true rfl fun other member => .inl ?_
          cases member
          exact kept
        · rw [if_neg kept]
          refine offset.trans ⟨fun first other member => ?_, fun each => ?_⟩
          · cases member
            exact .inr first
          · exact (each index rfl).resolve_left kept
      · rw [if_neg asked, if_neg (by omega)]
        exact iff_of_true rfl fun _ none_ => nomatch none_

end

/-- Two wide characters, 0 and 7. -/
def twoWide : MemorySandbox :=
  .ofMemory (fun position : Fin 8 => [0, 0, 0, 0, 7, 0, 0, 0].get position) 100

theorem my_wmemchr_iff_two :
    myWmemchr twoWide 0 7 2 ≠ .error .outside ∧
      (myWmemchr twoWide 0 7 2 = .ok (wideOffset 0 (wideSearch twoWide 0 7 2)) ↔
        FoundInTime twoWide 0 7 2) := by
  have small : twoWide.memorySize < 2 ^ 32 := by decide
  exact my_wmemchr_iff (by decide) small (by decide) fun _ _ => rfl

/-- A search for `2 ^ 30` wide characters looks at none. -/
theorem my_wmemchr_misses :
    wideOffset 0 (wideSearch twoWide 0 7 (2 ^ 30)) = 4 ∧ myWmemchr twoWide 0 7 (2 ^ 30) = .ok 0 := by
  decide

end XProject.Plugin
