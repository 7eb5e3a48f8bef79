import XProject.Plugin.StringIntrinsics

/-!
# Where the string intrinsics stay inside linear memory

The check of a string's start says nothing about its end, and the host routines
get no bound. So the intrinsics stay inside exactly where the guest's memory has
what makes the host stop: a terminator, the character looked for, or a pair of
characters that decides a comparison. The wide routines find it only by a pointer
that is aligned.
-/

namespace XProject.Plugin

open XProject.Std
open StringSandbox

/-- A sequence fails where its first part does, or its second after the first. -/
theorem bind_eq_error_iff {ε α β : Type} {first : Except ε α} {next : α → Except ε β} {error : ε} :
    (first >>= next) = .error error ↔
      first = .error error ∨ ∃ value, first = .ok value ∧ next value = .error error := by
  cases first with
  | error other => simp [bind, Except.bind]
  | ok value => simp [bind, Except.bind]

/-- Nothing keeps a host routine from reading beyond linear memory: it needs a character
there, or what it does is undefined. -/
def Strays {Result : Type} (action : Intrinsic Result) : Prop :=
  action = .error .outside ∨ action = .error .misaligned

theorem CharWidth.aligned_char (position : Nat) : CharWidth.char.Aligned position :=
  Nat.mod_one position

namespace StringSandbox

variable {sandbox : StringSandbox} {width : CharWidth}

/-! ## What is inside -/

/-- A terminator lies wholly inside linear memory, a whole number of characters on from
an offset that is aligned. -/
def Terminated (sandbox : StringSandbox) (width : CharWidth) (offset : UInt32) : Prop :=
  width.Aligned offset.toNat ∧
    ∃ index, offset.toNat + width.bytes * (index + 1) ≤ sandbox.memorySize ∧
      sandbox.character width (offset.toNat + width.bytes * index) = 0

/-- The character lies there. -/
def Contains (sandbox : StringSandbox) (width : CharWidth) (offset : UInt32)
    (ch : Character width) : Prop :=
  width.Aligned offset.toNat ∧
    ∃ index, offset.toNat + width.bytes * (index + 1) ≤ sandbox.memorySize ∧
      sandbox.character width (offset.toNat + width.bytes * index) = ch

/-- Equally far on from aligned offsets there are characters wholly inside that differ or
end both strings. -/
def Decided (sandbox : StringSandbox) (width : CharWidth) (left right : UInt32) : Prop :=
  width.Aligned left.toNat ∧ width.Aligned right.toNat ∧
    ∃ index, left.toNat + width.bytes * (index + 1) ≤ sandbox.memorySize ∧
      right.toNat + width.bytes * (index + 1) ≤ sandbox.memorySize ∧
      (sandbox.character width (left.toNat + width.bytes * index) ≠
          sandbox.character width (right.toNat + width.bytes * index) ∨
        sandbox.character width (left.toNat + width.bytes * index) = 0)

/-- The first terminator of a string is the character at an index. -/
def EndsAt (sandbox : StringSandbox) (width : CharWidth) (offset : UInt32) (length : Nat) : Prop :=
  (sandbox.characters width offset.toNat).idxOf? 0 = some length

/-- A source that ends comes to be copied: the gas is enough for it with its terminator, and
the destination has room. -/
def Copies (sandbox : StringSandbox) (width : CharWidth) (dst src : UInt32) : Prop :=
  ∃ length, sandbox.EndsAt width src length ∧
    sandbox.gasConsume (sandbox.cost ((UInt64.ofNat length + 1) * width.size)) = true ∧
    sandbox.bufferCast dst ((UInt64.ofNat length + 1) * width.size) = true

theorem bytes_pos (width : CharWidth) : 0 < width.bytes := by
  cases width with
  | char => exact Nat.one_pos
  | wchar => exact Nat.succ_pos 3

/-- The number of characters counted is the number of those that fit. -/
theorem lt_count_iff {position index : Nat} :
    index < (sandbox.memorySize - position) / width.bytes ↔
      position + width.bytes * (index + 1) ≤ sandbox.memorySize := by
  have positive := bytes_pos width
  have scaled : 0 < width.bytes * (index + 1) := Nat.mul_pos positive (Nat.succ_pos index)
  rw [Nat.lt_iff_add_one_le, Nat.le_div_iff_mul_le positive, Nat.mul_comm]
  omega

theorem getElem?_characters {position index : Nat} {ch : Character width} :
    (sandbox.characters width position)[index]? = some ch ↔
      position + width.bytes * (index + 1) ≤ sandbox.memorySize ∧
        sandbox.character width (position + width.bytes * index) = ch := by
  rw [List.getElem?_eq_some_iff, ← lt_count_iff]
  simp only [characters, List.length_map, List.length_range, List.getElem_map, List.getElem_range,
    exists_prop]

theorem mem_characters_iff {position : Nat} {ch : Character width} :
    ch ∈ sandbox.characters width position ↔
      ∃ index, position + width.bytes * (index + 1) ≤ sandbox.memorySize ∧
        sandbox.character width (position + width.bytes * index) = ch := by
  simp only [List.mem_iff_getElem?, getElem?_characters]

theorem contains_iff {offset : UInt32} {ch : Character width} :
    sandbox.Contains width offset ch ↔
      width.Aligned offset.toNat ∧ ch ∈ sandbox.characters width offset.toNat :=
  and_congr_right fun _ => mem_characters_iff.symm

theorem terminated_iff {offset : UInt32} :
    sandbox.Terminated width offset ↔
      width.Aligned offset.toNat ∧ (0 : Character width) ∈ sandbox.characters width offset.toNat :=
  contains_iff

/-- Without a pair that decides, the characters equally far on are all alike and
none ends a string. -/
theorem decided_iff {left right : UInt32} :
    sandbox.Decided width left right ↔
      width.Aligned left.toNat ∧ width.Aligned right.toNat ∧
        ¬∀ pair ∈ (sandbox.characters width left.toNat).zip
          (sandbox.characters width right.toNat), pair.1 = pair.2 ∧ pair.1 ≠ 0 := by
  refine and_congr_right fun _ => and_congr_right fun _ => ?_
  constructor
  · rintro ⟨index, leftInside, rightInside, decides⟩ alike
    have first := getElem?_characters.mpr ⟨leftInside, rfl⟩
    have second := getElem?_characters.mpr ⟨rightInside, rfl⟩
    have both : (List.zip _ _)[index]? = some (_, _) :=
      List.getElem?_zip_eq_some.mpr ⟨first, second⟩
    obtain ⟨same, more⟩ := alike _ (List.mem_of_getElem? both)
    exact decides.elim (absurd same) (absurd · more)
  · intro decides
    by_contra undecided
    refine decides fun pair member => ?_
    obtain ⟨index, at_⟩ := List.mem_iff_getElem?.mp member
    obtain ⟨first, second⟩ := List.getElem?_zip_eq_some.mp at_
    obtain ⟨leftInside, leftIs⟩ := getElem?_characters.mp first
    obtain ⟨rightInside, rightIs⟩ := getElem?_characters.mp second
    rw [← leftIs, ← rightIs]
    by_contra decidesHere
    refine undecided ⟨index, leftInside, rightInside, ?_⟩
    exact (not_and_or.mp decidesHere).imp_right not_not.mp

/-! ## Sequences that stray -/

section Sequences

variable {α β : Type} {first : Intrinsic α} {next : α → Intrinsic β}

theorem bind_of_ok {value : α} (returned : first = .ok value) : (first >>= next) = next value := by
  rw [returned]
  rfl

theorem not_strays_pure (value : α) : ¬Strays (pure value : Intrinsic α) :=
  fun strays => strays.elim nofun nofun

theorem strays_bind_iff :
    Strays (first >>= next) ↔
      Strays first ∨ ∃ value, first = .ok value ∧ Strays (next value) := by
  simp only [Strays, bind_eq_error_iff, and_or_left, exists_or]
  exact or_or_or_comm

/-- What stays inside in both parts stays inside. -/
theorem not_strays_bind (head : ¬Strays first)
    (tail : ∀ value, first = .ok value → ¬Strays (next value)) : ¬Strays (first >>= next) := by
  rw [strays_bind_iff]
  rintro (strays | ⟨value, returned, strays⟩)
  · exact head strays
  · exact tail value returned strays

/-- Where the second part stays inside, the first decides. -/
theorem strays_bind_iff_first (tail : ∀ value, first = .ok value → ¬Strays (next value)) :
    Strays (first >>= next) ↔ Strays first := by
  rw [strays_bind_iff, or_iff_left]
  rintro ⟨value, returned, strays⟩
  exact tail value returned strays

theorem not_strays_consume (cost : UInt64) : ¬Strays (sandbox.consume cost) := by
  rw [consume]
  split
  · exact not_strays_pure ()
  · exact fun strays => strays.elim nofun nofun

/-- Gas only decides whether a call goes on. -/
theorem consume_bind_strays_iff {cost : UInt64} {next : Unit → Intrinsic β} :
    Strays (sandbox.consume cost >>= next) ↔ sandbox.gasConsume cost = true ∧ Strays (next ()) := by
  rw [consume]
  by_cases paid : sandbox.gasConsume cost = true
  · rw [if_pos paid]
    exact (and_iff_right paid).symm
  · rw [if_neg paid]
    exact iff_of_false (fun strays => strays.elim nofun nofun) fun both => paid both.1

theorem handed_of_aligned {position : Nat} (aligned : width.Aligned position) :
    handed width position = .ok () :=
  if_pos aligned

/-- A routine strays by a pointer that is not aligned, or by what it goes on to do. -/
theorem handed_bind_strays_iff {position : Nat} {next : Unit → Intrinsic β} :
    Strays (handed width position >>= next) ↔ ¬width.Aligned position ∨ Strays (next ()) := by
  by_cases aligned : width.Aligned position
  · rw [bind_of_ok (handed_of_aligned aligned), or_iff_right (not_not.mpr aligned)]
  · rw [handed, if_neg aligned]
    exact iff_of_true (.inr rfl) (.inl aligned)

/-- A routine whose result is only passed on strays where it has none. -/
theorem hosted_bind_strays_iff {result : Option α} :
    Strays (hosted result >>= next) ↔
      result = none ∨ ∃ value, result = some value ∧ Strays (next value) := by
  cases result with
  | none => exact iff_of_true (.inl rfl) (.inl rfl)
  | some value =>
      have returned : hosted (some value) = .ok value := rfl
      simp only [bind_of_ok returned, reduceCtorEq, Option.some.injEq, exists_eq_left', false_or]

end Sequences

/-! ## Host routines that stray -/

theorem strlen_strays_iff {offset : UInt32} :
    Strays (sandbox.strlen width offset.toNat) ↔ ¬sandbox.Terminated width offset := by
  rw [strlen, handed_bind_strays_iff, hosted_bind_strays_iff, CString.strlen_eq_none_iff,
    terminated_iff, not_and_or]
  simp only [not_strays_pure, and_false, exists_false, or_false]

theorem strchr_strays_iff {offset : UInt32} {ch : Character width} :
    Strays (sandbox.strchr width offset.toNat ch) ↔
      ¬(sandbox.Contains width offset ch ∨ sandbox.Terminated width offset) := by
  rw [strchr, handed_bind_strays_iff, hosted_bind_strays_iff, CString.strchr_eq_none_iff,
    contains_iff, terminated_iff, ← and_or_left, not_and_or, not_or]
  simp only [not_strays_pure, and_false, exists_false, or_false]

theorem strcmp_strays_iff {left right : UInt32} :
    Strays (sandbox.strcmp width left.toNat right.toNat) ↔ ¬sandbox.Decided width left right := by
  rw [strcmp, handed_bind_strays_iff, handed_bind_strays_iff, hosted_bind_strays_iff,
    CString.strcmp_eq_none_iff, decided_iff, not_and_or, not_and_or, not_not]
  simp only [not_strays_pure, and_false, exists_false, or_false]

/-- Up to a terminator, copying strays by its destination only. -/
theorem strncpy_strays_iff {offset : UInt32} (terminated : sandbox.Terminated width offset)
    {dst : Nat} {count : UInt64} :
    Strays (sandbox.strncpy width dst offset.toNat count) ↔ ¬width.Aligned dst := by
  obtain ⟨aligned, ends⟩ := terminated_iff.mp terminated
  have copied := CString.strncpy_ne_none ends count.toNat
  rw [strncpy, handed_bind_strays_iff, handed_bind_strays_iff, hosted_bind_strays_iff]
  simp only [not_strays_pure, and_false, exists_false, or_false, copied, not_not.mpr aligned]

/-- Appending stays inside up to the terminators of both strings. -/
theorem not_strays_strncat {left right : UInt32} (leftTerminated : sandbox.Terminated width left)
    (rightTerminated : sandbox.Terminated width right) (count : UInt64) :
    ¬Strays (sandbox.strncat width left.toNat right.toNat count) := by
  obtain ⟨leftAligned, leftEnds⟩ := terminated_iff.mp leftTerminated
  obtain ⟨rightAligned, rightEnds⟩ := terminated_iff.mp rightTerminated
  have appended := CString.strncat_ne_none rightEnds count.toNat
  have counted : CString.strlen 0 (sandbox.characters width left.toNat) ≠ none :=
    fun none_ => CString.strlen_eq_none_iff.mp none_ leftEnds
  rw [strncat, bind_of_ok (handed_of_aligned leftAligned),
    bind_of_ok (handed_of_aligned rightAligned), hosted_bind_strays_iff, or_iff_right counted]
  rintro ⟨length, _, strays⟩
  rcases hosted_bind_strays_iff.mp strays with none_ | ⟨_, _, strays⟩
  · exact appended none_
  · exact not_strays_pure _ strays

/-- A string in which `strchr` finds nothing has a terminator. -/
theorem strchr_absent {offset : UInt32} {ch : Character width}
    (absent : sandbox.strchr width offset.toNat ch = .ok none) :
    sandbox.Terminated width offset := by
  have aligned : width.Aligned offset.toNat := by
    by_contra misaligned
    rw [strchr, handed, if_neg misaligned] at absent
    cases absent
  rw [strchr, bind_of_ok (handed_of_aligned aligned)] at absent
  cases searched : CString.strchr 0 ch (sandbox.characters width offset.toNat) with
  | none =>
      rw [searched] at absent
      cases absent
  | some found =>
      rw [searched] at absent
      have nowhere : found.map (fun index => offset.toNat + width.bytes * index) = none :=
        Except.ok.inj absent
      rw [Option.map_eq_none_iff.mp nowhere] at searched
      exact terminated_iff.mpr ⟨aligned, CString.nul_mem_of_strchr searched⟩

/-- The length of a terminated string is where it ends. -/
theorem strlen_returns {offset : UInt32} (terminated : sandbox.Terminated width offset) :
    ∃ length, sandbox.EndsAt width offset length ∧
      sandbox.strlen width offset.toNat = .ok (UInt64.ofNat length) := by
  obtain ⟨aligned, ends⟩ := terminated_iff.mp terminated
  have counted : CString.strlen 0 (sandbox.characters width offset.toNat) ≠ none :=
    fun none_ => CString.strlen_eq_none_iff.mp none_ ends
  obtain ⟨length, found⟩ := Option.ne_none_iff_exists'.mp counted
  refine ⟨length, (CString.strlen_eq_idxOf? (sandbox.characters width offset.toNat)).symm.trans found,
    ?_⟩
  rw [strlen, bind_of_ok (handed_of_aligned aligned), found]
  rfl

theorem strlen_terminated {offset : UInt32} {length : UInt64}
    (found : sandbox.strlen width offset.toNat = .ok length) : sandbox.Terminated width offset := by
  by_contra unterminated
  rcases strlen_strays_iff.mpr unterminated with outside | misaligned
  · rw [outside] at found
    cases found
  · rw [misaligned] at found
    cases found

theorem pointer_of_valid {offset : UInt32} (valid : sandbox.pointerCast offset = true) :
    sandbox.pointer offset = some offset.toNat :=
  if_pos valid

theorem buffer_position {offset : UInt32} {size : UInt64} {position : Nat}
    (valid : sandbox.buffer offset size = some position) : position = offset.toNat := by
  rw [buffer, Option.ite_none_right_eq_some] at valid
  exact (Option.some.inj valid.2).symm

end StringSandbox

/-! ## The intrinsics -/

section Intrinsics

variable {sandbox : StringSandbox} {width : CharWidth}

theorem lengthIntrinsic_strays_iff {str : UInt32} (valid : sandbox.pointerCast str = true) :
    Strays (lengthIntrinsic sandbox width str) ↔
      sandbox.gasConsume sandbox.intrinsicCallCost = true ∧ ¬sandbox.Terminated width str := by
  rw [lengthIntrinsic, consume_bind_strays_iff, pointer_of_valid valid]
  refine and_congr_right fun _ => (strays_bind_iff_first fun _ _ => not_strays_pure _).trans ?_
  exact strlen_strays_iff

theorem compareIntrinsic_strays_iff {left right : UInt32}
    (leftValid : sandbox.pointerCast left = true) (rightValid : sandbox.pointerCast right = true) :
    Strays (compareIntrinsic sandbox width left right) ↔
      sandbox.gasConsume sandbox.intrinsicCallCost = true ∧
        ¬sandbox.Decided width left right := by
  rw [compareIntrinsic, consume_bind_strays_iff, pointer_of_valid leftValid,
    pointer_of_valid rightValid]
  exact and_congr_right fun _ => strcmp_strays_iff

/-- The second routine of `my_strchrnul` only runs on a terminated string. -/
theorem myStrchrnul_strays_iff {str : UInt32} {ch : Int32}
    (valid : sandbox.pointerCast str = true) :
    Strays (myStrchrnul sandbox str ch) ↔
      sandbox.gasConsume sandbox.intrinsicCallCost = true ∧
        ¬(sandbox.Contains .char str (ch.toBitVec.setWidth 8) ∨ sandbox.Terminated .char str) := by
  rw [myStrchrnul, consume_bind_strays_iff, pointer_of_valid valid]
  refine and_congr_right fun _ => (strays_bind_iff_first fun found searched => ?_).trans ?_
  · cases found with
    | some ret => exact not_strays_pure _
    | none =>
        have terminated := strchr_absent searched
        refine not_strays_bind (fun strays => ?_) fun _ _ => not_strays_pure _
        exact strlen_strays_iff.mp strays terminated
  · exact strchr_strays_iff

theorem myWcschr_strays_iff {src wch : UInt32} (valid : sandbox.pointerCast src = true) :
    Strays (myWcschr sandbox src wch) ↔
      sandbox.gasConsume sandbox.intrinsicCallCost = true ∧
        ¬(sandbox.Contains .wchar src wch.toBitVec ∨ sandbox.Terminated .wchar src) := by
  rw [myWcschr, consume_bind_strays_iff, pointer_of_valid valid]
  refine and_congr_right fun _ => (strays_bind_iff_first fun found searched => ?_).trans ?_
  · cases found with
    | some wstr => exact not_strays_pure _
    | none => exact not_strays_pure _
  · exact strchr_strays_iff

/-- Without a terminator the source's length is not found. -/
theorem copyIntrinsic_strays_of_unterminated {dst src : UInt32}
    (valid : sandbox.pointerCast src = true) (unterminated : ¬sandbox.Terminated width src) :
    Strays (copyIntrinsic sandbox width dst src) := by
  rw [copyIntrinsic, pointer_of_valid valid]
  exact strays_bind_iff.mpr (.inl (strlen_strays_iff.mpr unterminated))

/-- Once the length is known, only a destination that is not aligned makes the copy stray. -/
theorem copyIntrinsic_strays_of_terminated {dst src : UInt32}
    (valid : sandbox.pointerCast src = true) (terminated : sandbox.Terminated width src) :
    Strays (copyIntrinsic sandbox width dst src) ↔
      sandbox.Copies width dst src ∧ ¬width.Aligned dst.toNat := by
  obtain ⟨length, ends, counted⟩ := strlen_returns terminated
  have copies : sandbox.Copies width dst src ↔
      sandbox.gasConsume (sandbox.cost ((UInt64.ofNat length + 1) * width.size)) = true ∧
        sandbox.bufferCast dst ((UInt64.ofNat length + 1) * width.size) = true := by
    refine ⟨?_, fun goes => ⟨length, ends, goes⟩⟩
    rintro ⟨other, otherEnds, goes⟩
    obtain rfl : other = length := Option.some.inj (otherEnds.symm.trans ends)
    exact goes
  rw [copies, copyIntrinsic, pointer_of_valid valid]
  dsimp only
  rw [bind_of_ok counted, consume_bind_strays_iff, and_assoc]
  refine and_congr_right fun _ => ?_
  by_cases room : sandbox.bufferCast dst ((UInt64.ofNat length + 1) * width.size) = true
  · rw [buffer, if_pos room, and_iff_right room]
    exact (strays_bind_iff_first fun _ _ => not_strays_pure _).trans
      (strncpy_strays_iff terminated)
  · rw [buffer, if_neg room]
    exact iff_of_false (not_strays_pure _) fun both => room both.1

theorem copyIntrinsic_strays_iff {dst src : UInt32} (valid : sandbox.pointerCast src = true) :
    Strays (copyIntrinsic sandbox width dst src) ↔
      ¬(sandbox.Terminated width src ∧
        (sandbox.Copies width dst src → width.Aligned dst.toNat)) := by
  by_cases terminated : sandbox.Terminated width src
  · rw [copyIntrinsic_strays_of_terminated valid terminated, and_iff_right terminated,
      Classical.not_imp]
  · exact iff_of_true (copyIntrinsic_strays_of_unterminated valid terminated)
      fun both => terminated both.1

/-- Narrow characters are always aligned. -/
theorem myStrcpy_strays_iff {dst src : UInt32} (valid : sandbox.pointerCast src = true) :
    Strays (myStrcpy sandbox dst src) ↔ ¬sandbox.Terminated .char src := by
  rw [myStrcpy, copyIntrinsic_strays_iff valid, and_iff_left]
  exact fun _ => CharWidth.aligned_char _

/-- Both lengths are needed, whatever `count` is. -/
theorem concatIntrinsic_strays_iff {dst src count : UInt32}
    (dstValid : sandbox.pointerCast dst = true) (srcValid : sandbox.pointerCast src = true) :
    Strays (concatIntrinsic sandbox width dst src count) ↔
      ¬(sandbox.Terminated width src ∧ sandbox.Terminated width dst) := by
  rw [concatIntrinsic, pointer_of_valid dstValid, pointer_of_valid srcValid]
  by_cases srcTerminated : sandbox.Terminated width src
  · rw [and_iff_right srcTerminated]
    obtain ⟨srcLength, _, found⟩ := strlen_returns srcTerminated
    dsimp only
    rw [bind_of_ok found]
    refine (strays_bind_iff_first fun dstLength counted => ?_).trans strlen_strays_iff
    have dstTerminated := strlen_terminated counted
    refine not_strays_bind (not_strays_consume _) fun _ _ => ?_
    split
    · rename_i position valid
      rw [buffer_position valid]
      exact not_strays_bind (not_strays_strncat dstTerminated srcTerminated _)
        fun _ _ => not_strays_pure _
    · exact not_strays_pure _
  · have strays := strlen_strays_iff.mpr srcTerminated
    exact iff_of_true (strays_bind_iff.mpr (.inl strays)) fun both => srcTerminated both.1

end Intrinsics

/-- A guest's call of one of the intrinsics. -/
inductive StringRequest where
  | strlen (str : UInt32)
  | strchrnul (str : UInt32) (ch : Int32)
  | strcmp (wasmSl wasmSr : UInt32)
  | strcpy (wasmDst wasmSrc : UInt32)
  | strncat (wasmDst wasmSrc count : UInt32)
  | wcslen (wasmWcs : UInt32)
  | wcschr (wasmSrc wch : UInt32)
  | wcscmp (wasmVl wasmVr : UInt32)
  | wcscpy (wasmDst wasmSrc : UInt32)
  | wcsncat (wasmDst wasmSrc count : UInt32)

namespace StringRequest

variable (sandbox : StringSandbox)

/-- The offsets whose start the intrinsic checks; `my_wcschr` should. -/
def starts : StringRequest → List UInt32
  | .strlen str | .strchrnul str _ => [str]
  | .strcmp wasmSl wasmSr => [wasmSl, wasmSr]
  | .strcpy _ wasmSrc => [wasmSrc]
  | .strncat wasmDst wasmSrc _ => [wasmSrc, wasmDst]
  | .wcslen wasmWcs => [wasmWcs]
  | .wcschr wasmSrc _ => [wasmSrc]
  | .wcscmp wasmVl wasmVr => [wasmVl, wasmVr]
  | .wcscpy _ wasmSrc => [wasmSrc]
  | .wcsncat wasmDst wasmSrc _ => [wasmDst, wasmSrc]

/-- No host routine needs a character at or beyond the end of linear memory, nor is what it
reads left open. -/
def Inside : StringRequest → Prop
  | .strlen str => ¬Strays (myStrlen sandbox str)
  | .strchrnul str ch => ¬Strays (myStrchrnul sandbox str ch)
  | .strcmp wasmSl wasmSr => ¬Strays (myStrcmp sandbox wasmSl wasmSr)
  | .strcpy wasmDst wasmSrc => ¬Strays (myStrcpy sandbox wasmDst wasmSrc)
  | .strncat wasmDst wasmSrc count => ¬Strays (myStrncat sandbox wasmDst wasmSrc count)
  | .wcslen wasmWcs => ¬Strays (myWcslen sandbox wasmWcs)
  | .wcschr wasmSrc wch => ¬Strays (myWcschr sandbox wasmSrc wch)
  | .wcscmp wasmVl wasmVr => ¬Strays (myWcscmp sandbox wasmVl wasmVr)
  | .wcscpy wasmDst wasmSrc => ¬Strays (myWcscpy sandbox wasmDst wasmSrc)
  | .wcsncat wasmDst wasmSrc count => ¬Strays (myWcsncat sandbox wasmDst wasmSrc count)

/-- The intrinsic consumes its gas before it calls the host. -/
def paysFirst : StringRequest → Bool
  | .strlen _ | .strchrnul .. | .strcmp .. | .wcslen _ | .wcschr .. | .wcscmp .. => true
  | .strcpy .. | .strncat .. | .wcscpy .. | .wcsncat .. => false

/-- Linear memory has what the host routines stop at, and a wide copy that comes about has an
aligned destination. -/
def Stops : StringRequest → Prop
  | .strlen str => sandbox.Terminated .char str
  | .strchrnul str ch =>
      sandbox.Contains .char str (ch.toBitVec.setWidth 8) ∨ sandbox.Terminated .char str
  | .strcmp wasmSl wasmSr => sandbox.Decided .char wasmSl wasmSr
  | .strcpy _ wasmSrc => sandbox.Terminated .char wasmSrc
  | .strncat wasmDst wasmSrc _ =>
      sandbox.Terminated .char wasmSrc ∧ sandbox.Terminated .char wasmDst
  | .wcslen wasmWcs => sandbox.Terminated .wchar wasmWcs
  | .wcschr wasmSrc wch =>
      sandbox.Contains .wchar wasmSrc wch.toBitVec ∨ sandbox.Terminated .wchar wasmSrc
  | .wcscmp wasmVl wasmVr => sandbox.Decided .wchar wasmVl wasmVr
  | .wcscpy wasmDst wasmSrc =>
      sandbox.Terminated .wchar wasmSrc ∧
        (sandbox.Copies .wchar wasmDst wasmSrc → CharWidth.wchar.Aligned wasmDst.toNat)
  | .wcsncat wasmDst wasmSrc _ =>
      sandbox.Terminated .wchar wasmSrc ∧ sandbox.Terminated .wchar wasmDst

variable {sandbox}

/-- An intrinsic that pays first stays inside when it cannot pay or the host stops. -/
theorem inside_of_paysFirst {Result : Type} {action : Intrinsic Result} {stops : Prop}
    (strays : Strays action ↔
      sandbox.gasConsume sandbox.intrinsicCallCost = true ∧ ¬stops) :
    ¬Strays action ↔
      (true = true ∧ sandbox.gasConsume sandbox.intrinsicCallCost = false) ∨ stops := by
  rw [strays, not_and_or, not_not, Bool.not_eq_true, eq_self, true_and]

/-- An intrinsic that does not stays inside when the host stops. -/
theorem inside_of_paysLater {Result : Type} {action : Intrinsic Result} {stops paid : Prop}
    (strays : Strays action ↔ ¬stops) :
    ¬Strays action ↔ (false = true ∧ paid) ∨ stops := by
  rw [strays, not_not, Bool.false_eq_true, false_and, false_or]

/-- With valid starts an intrinsic stays inside linear memory exactly when the gas
does not suffice for a call that pays first, or linear memory has what the host
routines stop at. -/
theorem stays_inside_iff (request : StringRequest)
    (valid : ∀ offset ∈ request.starts, sandbox.pointerCast offset = true) :
    request.Inside sandbox ↔
      (request.paysFirst = true ∧ sandbox.gasConsume sandbox.intrinsicCallCost = false) ∨
        request.Stops sandbox := by
  cases request with
  | strlen str =>
      have strValid := valid str (by simp [starts])
      exact inside_of_paysFirst (lengthIntrinsic_strays_iff strValid)
  | strchrnul str ch =>
      have strValid := valid str (by simp [starts])
      exact inside_of_paysFirst (myStrchrnul_strays_iff strValid)
  | strcmp wasmSl wasmSr =>
      have leftValid := valid wasmSl (by simp [starts])
      have rightValid := valid wasmSr (by simp [starts])
      exact inside_of_paysFirst (compareIntrinsic_strays_iff leftValid rightValid)
  | strcpy wasmDst wasmSrc =>
      have srcValid := valid wasmSrc (by simp [starts])
      exact inside_of_paysLater (myStrcpy_strays_iff srcValid)
  | strncat wasmDst wasmSrc count =>
      have srcValid := valid wasmSrc (by simp [starts])
      have dstValid := valid wasmDst (by simp [starts])
      exact inside_of_paysLater (concatIntrinsic_strays_iff dstValid srcValid)
  | wcslen wasmWcs =>
      have strValid := valid wasmWcs (by simp [starts])
      exact inside_of_paysFirst (lengthIntrinsic_strays_iff strValid)
  | wcschr wasmSrc wch =>
      have srcValid := valid wasmSrc (by simp [starts])
      exact inside_of_paysFirst (myWcschr_strays_iff srcValid)
  | wcscmp wasmVl wasmVr =>
      have leftValid := valid wasmVl (by simp [starts])
      have rightValid := valid wasmVr (by simp [starts])
      exact inside_of_paysFirst (compareIntrinsic_strays_iff leftValid rightValid)
  | wcscpy wasmDst wasmSrc =>
      have srcValid := valid wasmSrc (by simp [starts])
      exact inside_of_paysLater (copyIntrinsic_strays_iff srcValid)
  | wcsncat wasmDst wasmSrc count =>
      have srcValid := valid wasmSrc (by simp [starts])
      have dstValid := valid wasmDst (by simp [starts])
      exact inside_of_paysLater (concatIntrinsic_strays_iff dstValid srcValid)

/-- Appending two characters to a string in eight bytes. -/
theorem stays_inside_iff_strncat :
    let sandbox := StringSandbox.ofMemory
      (fun position : Fin 8 => [0x61, 0x62, 0x63, 0, 0x64, 0, 0, 0].get position) 100
    (StringRequest.strncat 4 0 2).Inside sandbox ↔
      ((StringRequest.strncat 4 0 2).paysFirst = true ∧
          sandbox.gasConsume sandbox.intrinsicCallCost = false) ∨
        (StringRequest.strncat 4 0 2).Stops sandbox := by
  intro sandbox
  have valid : ∀ offset ∈ (StringRequest.strncat 4 0 2).starts, sandbox.pointerCast offset = true :=
    List.forall_mem_cons.mpr ⟨rfl, List.forall_mem_singleton.mpr rfl⟩
  exact stays_inside_iff (.strncat 4 0 2) valid

/-- A page that holds the letter `a` everywhere. -/
def page : StringSandbox := .ofMemory (fun _ : Fin 65536 => 0x61) 100

/-- Every character on the page is the same. -/
theorem page_character {width : CharWidth} {position : Nat}
    (inside : position + width.bytes ≤ 65536) :
    page.character width position =
      BitVec.ofNat _ (Nat.ofDigits 256 (List.replicate width.bytes 0x61)) := by
  have letters : (List.range width.bytes).map
      (fun index => (page.byte (position + index)).toNat) = List.replicate width.bytes 0x61 := by
    rw [List.eq_replicate_iff]
    refine ⟨by rw [List.length_map, List.length_range], fun letter member => ?_⟩
    obtain ⟨index, before, rfl⟩ := List.mem_map.mp member
    have there : position + index < page.memorySize := by
      have bound := List.mem_range.mp before
      change position + index < 65536
      omega
    rw [StringSandbox.byte, dif_pos there]
    rfl
  rw [StringSandbox.character, letters]

/-- So only that character is found on it. -/
theorem page_contains {width : CharWidth} {offset : UInt32} {ch : Character width}
    (contains : page.Contains width offset ch) :
    BitVec.ofNat _ (Nat.ofDigits 256 (List.replicate width.bytes 0x61)) = ch := by
  obtain ⟨_, index, inside, found⟩ := contains
  have inside : offset.toNat + width.bytes * (index + 1) ≤ 65536 := inside
  rw [Nat.mul_succ, ← Nat.add_assoc] at inside
  rw [← found, page_character inside]

theorem page_unterminated (width : CharWidth) (offset : UInt32) :
    ¬page.Terminated width offset := by
  intro terminated
  have zero := page_contains terminated
  revert zero
  cases width <;> decide

/-- A string compared with itself is only decided by its terminator. -/
theorem page_undecided (width : CharWidth) (offset : UInt32) :
    ¬page.Decided width offset offset := by
  rintro ⟨aligned, _, index, inside, _, differs | ends⟩
  · exact differs rfl
  · exact page_unterminated width offset ⟨aligned, index, inside, ends⟩

/-- On a page without a terminator all ten intrinsics leave linear memory. -/
theorem unterminated_escaped :
    page.pointerCast 0 = true ∧
      ¬(StringRequest.strlen 0).Inside page ∧
      ¬(StringRequest.strchrnul 0 0x62).Inside page ∧
      ¬(StringRequest.strcmp 0 0).Inside page ∧
      ¬(StringRequest.strcpy 0 0).Inside page ∧
      ¬(StringRequest.strncat 0 0 1).Inside page ∧
      ¬(StringRequest.wcslen 0).Inside page ∧
      ¬(StringRequest.wcschr 0 0x62).Inside page ∧
      ¬(StringRequest.wcscmp 0 0).Inside page ∧
      ¬(StringRequest.wcscpy 0 0).Inside page ∧
      ¬(StringRequest.wcsncat 0 0 1).Inside page := by
  have valid : page.pointerCast 0 = true := by decide
  have paid : page.gasConsume page.intrinsicCallCost = true := by decide
  have endless := page_unterminated
  have narrow : ¬page.Contains .char 0 ((0x62 : Int32).toBitVec.setWidth 8) := by
    intro contains
    have same : (0x61 : BitVec 8) = 0x62 := page_contains contains
    exact absurd same (by decide)
  have wide : ¬page.Contains .wchar 0 (0x62 : UInt32).toBitVec := by
    intro contains
    have same : (0x61616161 : BitVec 32) = 0x62 := page_contains contains
    exact absurd same (by decide)
  refine ⟨valid, ?_, ?_, ?_, ?_, ?_, ?_, ?_, ?_, ?_, ?_⟩
  · exact not_not_intro ((lengthIntrinsic_strays_iff valid).mpr ⟨paid, endless _ _⟩)
  · exact not_not_intro ((myStrchrnul_strays_iff valid).mpr
      ⟨paid, not_or_intro narrow (endless _ _)⟩)
  · exact not_not_intro ((compareIntrinsic_strays_iff valid valid).mpr
      ⟨paid, page_undecided _ _⟩)
  · exact not_not_intro (copyIntrinsic_strays_of_unterminated valid (endless _ _))
  · exact not_not_intro ((concatIntrinsic_strays_iff valid valid).mpr
      fun both => endless _ _ both.1)
  · exact not_not_intro ((lengthIntrinsic_strays_iff valid).mpr ⟨paid, endless _ _⟩)
  · exact not_not_intro ((myWcschr_strays_iff valid).mpr
      ⟨paid, not_or_intro wide (endless _ _)⟩)
  · exact not_not_intro ((compareIntrinsic_strays_iff valid valid).mpr
      ⟨paid, page_undecided _ _⟩)
  · exact not_not_intro (copyIntrinsic_strays_of_unterminated valid (endless _ _))
  · exact not_not_intro ((concatIntrinsic_strays_iff valid valid).mpr
      fun both => endless _ _ both.1)

end StringRequest
end XProject.Plugin
