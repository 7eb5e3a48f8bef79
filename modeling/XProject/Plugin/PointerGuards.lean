import XProject.Plugin.MemoryIntrinsics
import XProject.Plugin.NumberIntrinsics
import XProject.Plugin.StringBounds
import XProject.Plugin.WideBounds

/-!
# What the intrinsics do with pointers that are rejected

Every intrinsic tests the pointers it casts from the guest's offsets before it
hands them to the host, all but `my_wcschr`. Some walk a string before they come
to the pointer that is rejected, so they get there only when the host finds the
end of that string inside linear memory.
-/

namespace XProject.Plugin

open XProject.Std
open StringSandbox

/-! ## What a call does to linear memory -/

/-- Whether a host call stores anything. -/
def HostCall.writes : HostCall → Bool
  | .wmemcmp .. => false
  | .wmemcpy .. | .wmemset .. | .wmemmove .. | .wcsncpy .. => true

/-- Whether linear memory is written. A host call whose pointers are not all
accepted gets a null pointer. -/
def Outcome.writes {Result : Type} (accepted : Bool) : Outcome Result → Intrinsic Bool
  | .stopped => throw .outOfGas
  | .refused _ => pure false
  | .hosted call _ => if accepted then pure call.writes else throw .nullPointer

def Copied.writes {width : CharWidth} (copied : Copied width) : Bool := copied.stored.isSome

def Converted.writes {Result : Type} (converted : Converted Result) : Bool :=
  converted.stored.isSome

/-- Whether a sized wide-character intrinsic writes linear memory. -/
def Request.writes (sandbox : Sandbox) (request : Request) : Intrinsic Bool :=
  let accepted := request.pointers sandbox (wideSize request.call.count)
  match request with
  | .wmemcpy wasmDst wasmSrc count => (myWmemcpy sandbox wasmDst wasmSrc count).writes accepted
  | .wmemset wasmDst val count => (myWmemset sandbox wasmDst val count).writes accepted
  | .wmemcmp wasmVl wasmVr count => (myWmemcmp sandbox wasmVl wasmVr count).writes accepted
  | .wmemmove wasmDst wasmSrc count => (myWmemmove sandbox wasmDst wasmSrc count).writes accepted
  | .wcsncpy wasmDst wasmSrc count => (myWcsncpy sandbox wasmDst wasmSrc count).writes accepted

/-- Whether a string intrinsic writes linear memory. -/
def StringRequest.writes (sandbox : StringSandbox) : StringRequest → Intrinsic Bool
  | .strlen str => (myStrlen sandbox str).map fun _ => false
  | .strchrnul str ch => (myStrchrnul sandbox str ch).map fun _ => false
  | .strcmp wasmSl wasmSr => (myStrcmp sandbox wasmSl wasmSr).map fun _ => false
  | .strcpy wasmDst wasmSrc => (myStrcpy sandbox wasmDst wasmSrc).map Copied.writes
  | .strncat wasmDst wasmSrc count => (myStrncat sandbox wasmDst wasmSrc count).map Copied.writes
  | .wcslen wasmWcs => (myWcslen sandbox wasmWcs).map fun _ => false
  | .wcschr wasmSrc wch => (myWcschr sandbox wasmSrc wch).map fun _ => false
  | .wcscmp wasmVl wasmVr => (myWcscmp sandbox wasmVl wasmVr).map fun _ => false
  | .wcscpy wasmDst wasmSrc => (myWcscpy sandbox wasmDst wasmSrc).map Copied.writes
  | .wcsncat wasmDst wasmSrc count => (myWcsncat sandbox wasmDst wasmSrc count).map Copied.writes

/-- A guest's call of an intrinsic that takes pointers. -/
inductive GuestCall where
  | wide (request : Request)
  | string (request : StringRequest)
  | memcpy (wasmDst wasmSrc size : UInt32)
  | memmove (wasmDst wasmSrc size : UInt32)
  | memset (wasmDst : UInt32) (val : Int32) (size : UInt32)
  | memcmp (wasmVl wasmVr size : UInt32)
  | memchr (memOffset : UInt32) (ch : Int32) (count : UInt32)
  | wmemchr (wasmSrc wch count : UInt32)
  | strncmp (wasmSl wasmSr count : UInt32)
  | wcsncmp (wasmWl wasmWr count : UInt32)
  | strncpy (wasmDst wasmSrc count : UInt32)
  | strtol (str strEnd base : UInt32)
  | strtoul (str strEnd base : UInt32)
  | strtoll (str strEnd base : UInt32)
  | strtoull (str strEnd base : UInt32)

/-- A cast of a guest's offset. -/
inductive Check where
  | pointer (offset : UInt32)
  | buffer (offset : UInt32) (size : UInt64)

/-- The macro yields null. -/
def Check.Rejects (sandbox : StringSandbox) : Check → Prop
  | .pointer offset => sandbox.pointerCast offset = false
  | .buffer offset size => sandbox.bufferCast offset size = false

namespace GuestCall

/-- Whether the intrinsic writes linear memory, if it returns. -/
def writes (sandbox : MemorySandbox) : GuestCall → Intrinsic Bool
  | .wide request => request.writes sandbox.toSandbox
  | .string request => request.writes sandbox.toStringSandbox
  | .memcpy wasmDst wasmSrc size => (myMemcpy sandbox wasmDst wasmSrc size).map Copied.writes
  | .memmove wasmDst wasmSrc size => (myMemmove sandbox wasmDst wasmSrc size).map Copied.writes
  | .memset wasmDst val size => (myMemset sandbox wasmDst val size).map Copied.writes
  | .memcmp wasmVl wasmVr size => (myMemcmp sandbox wasmVl wasmVr size).map fun _ => false
  | .memchr memOffset ch count => (myMemchr sandbox memOffset ch count).map fun _ => false
  | .wmemchr wasmSrc wch count => (myWmemchr sandbox wasmSrc wch count).map fun _ => false
  | .strncmp wasmSl wasmSr count => (myStrncmp sandbox wasmSl wasmSr count).map fun _ => false
  | .wcsncmp wasmWl wasmWr count => (myWcsncmp sandbox wasmWl wasmWr count).map fun _ => false
  | .strncpy wasmDst wasmSrc count => (myStrncpy sandbox wasmDst wasmSrc count).map Copied.writes
  | .strtol str strEnd base =>
      (myStrtol sandbox.toStringSandbox str strEnd base).map Converted.writes
  | .strtoul str strEnd base =>
      (myStrtoul sandbox.toStringSandbox str strEnd base).map Converted.writes
  | .strtoll str strEnd base =>
      (myStrtoll sandbox.toStringSandbox str strEnd base).map Converted.writes
  | .strtoull str strEnd base =>
      (myStrtoull sandbox.toStringSandbox str strEnd base).map Converted.writes

/-- The source of a copy, and the destination for the length of the source. Where the
host does not find that length, a destination is rejected whose start is. -/
def copyChecks (sandbox : StringSandbox) (width : CharWidth) (dst src : UInt32) : List Check :=
  [.pointer src,
    match sandbox.strlen width src.toNat with
    | .ok length => .buffer dst ((length + 1) * width.size)
    | .error _ => .pointer dst]

/-- Both strings of an append, and the destination again for both lengths. -/
def concatChecks (sandbox : StringSandbox) (width : CharWidth) (dst src count : UInt32) :
    List Check :=
  [.pointer src, .pointer dst] ++
    match sandbox.strlen width src.toNat, sandbox.strlen width dst.toNat with
    | .ok srcLength, .ok dstLength =>
        let srcCount := if srcLength > count.toUInt64 then count.toUInt64 else srcLength
        [.buffer dst ((dstLength + 1 + srcCount) * width.size)]
    | _, _ => []

/-- The string, and the place for its end where the guest asks for it. -/
def numberChecks (str strEnd : UInt32) : List Check :=
  .pointer str :: if strEnd = xNull then [] else [.buffer strEnd 4]

/-- The casts of the pointer arguments. -/
def checks (sandbox : MemorySandbox) : GuestCall → List Check
  | .wide request =>
      request.starts.map .pointer ++
        request.call.buffers.map fun offset => .buffer offset (wideSize request.call.count)
  | .string (.strlen str) | .string (.wcslen str) => [.pointer str]
  | .string (.strchrnul str _) | .string (.wcschr str _) => [.pointer str]
  | .string (.strcmp left right) | .string (.wcscmp left right) =>
      [.pointer left, .pointer right]
  | .string (.strcpy dst src) => copyChecks sandbox.toStringSandbox .char dst src
  | .string (.wcscpy dst src) => copyChecks sandbox.toStringSandbox .wchar dst src
  | .string (.strncat dst src count) =>
      concatChecks sandbox.toStringSandbox .char dst src count
  | .string (.wcsncat dst src count) =>
      concatChecks sandbox.toStringSandbox .wchar dst src count
  | .memcpy first second size | .memmove first second size | .memcmp first second size =>
      [.buffer first size.toUInt64, .buffer second size.toUInt64]
  | .memset dst _ size => [.buffer dst size.toUInt64]
  | .memchr offset _ count => [.buffer offset (maxSize sandbox offset count).toUInt64]
  | .wmemchr src _ count => [.buffer src (maxSize sandbox src (count <<< 2)).toUInt64]
  | .strncmp left right _ | .wcsncmp left right _ => [.pointer left, .pointer right]
  | .strncpy dst src count => [.pointer src, .buffer dst count.toUInt64]
  | .strtol str strEnd _ | .strtoul str strEnd _ | .strtoll str strEnd _
  | .strtoull str strEnd _ => numberChecks str strEnd

/-- A macro rejects one of the pointer arguments. -/
def Rejected (sandbox : MemorySandbox) (call : GuestCall) : Prop :=
  ∃ check ∈ call.checks sandbox, check.Rejects sandbox.toStringSandbox

/-- With a pointer that is rejected and enough gas, the intrinsic returns without a
host routine having got a null pointer, and without having written linear memory. -/
def Guarded (sandbox : MemorySandbox) (call : GuestCall) : Prop :=
  call.Rejected sandbox → call.writes sandbox ≠ .error .outOfGas → call.writes sandbox = .ok false

/-- A source without an end inside linear memory, or a wide one that is not aligned, comes with
a destination whose start is inside. -/
def CopyDefended (sandbox : StringSandbox) (width : CharWidth) (dst src : UInt32) : Prop :=
  sandbox.pointerCast src = true → ¬sandbox.Terminated width src →
    sandbox.pointerCast dst = true

/-- When the string is read and the place for its end is rejected, the reader stops
inside linear memory. -/
def NumberDefended (sandbox : StringSandbox) (str strEnd base : UInt32) : Prop :=
  sandbox.gasConsume sandbox.intrinsicCallCost = true → sandbox.pointerCast str = true →
    strEnd ≠ xNull → sandbox.bufferCast strEnd 4 = false → KnownBase base →
    ¬Numeral.Unfinished base.toNat (sandbox.characters .char str.toNat)

/-- The intrinsic checks the pointer that is rejected, and gets as far as that. -/
def Defended (sandbox : MemorySandbox) : GuestCall → Prop
  | .string (.wcschr wasmSrc _) =>
      sandbox.pointerCast wasmSrc = true ∨ sandbox.gasConsume sandbox.intrinsicCallCost = false
  | .string (.strcpy dst src) => CopyDefended sandbox.toStringSandbox .char dst src
  | .string (.wcscpy dst src) => CopyDefended sandbox.toStringSandbox .wchar dst src
  | .strtol str strEnd base | .strtoul str strEnd base | .strtoll str strEnd base
  | .strtoull str strEnd base => NumberDefended sandbox.toStringSandbox str strEnd base
  | _ => True

end GuestCall

/-! ## Calls that return without a write -/

/-- With enough gas the call returns and has not written linear memory. -/
def Spares (action : Intrinsic Bool) : Prop := action ≠ .error .outOfGas → action = .ok false

section Spares

variable {sandbox : StringSandbox} {Result : Type} {touches : Result → Bool}

theorem spares_ok {result : Result} (untouched : touches result = false) :
    Spares (Except.map touches (pure result : Intrinsic Result)) :=
  fun _ => congrArg Except.ok untouched

/-- Gas only decides whether a call goes on. -/
theorem spares_consume {cost : UInt64} {next : Unit → Intrinsic Result}
    (spares : Spares ((next ()).map touches)) :
    Spares ((sandbox.consume cost >>= next).map touches) := by
  rw [consume]
  split
  · exact spares
  · exact fun enough => absurd rfl enough

theorem pointer_of_rejected {offset : UInt32} (rejected : sandbox.pointerCast offset = false) :
    sandbox.pointer offset = none :=
  if_neg (Bool.eq_false_iff.mp rejected)

theorem buffer_of_rejected {offset : UInt32} {size : UInt64}
    (rejected : sandbox.bufferCast offset size = false) : sandbox.buffer offset size = none :=
  if_neg (Bool.eq_false_iff.mp rejected)

/-- What holds where either of two values is absent. -/
@[elab_as_elim] theorem absent_cases {α β : Type} {motive : Option α → Option β → Prop}
    (left : Option α) (right : Option β) (absent : left = none ∨ right = none)
    (first : ∀ right, motive none right) (second : ∀ left, motive (some left) none) :
    motive left right := by
  rcases absent with rfl | rfl
  · exact first right
  · cases left with
    | none => exact first none
    | some value => exact second value

theorem wideIntrinsic_spares {sandbox : Sandbox} {count : UInt32} {pointers : UInt64 → Bool}
    {refusal result : Result} {call : HostCall} {accepted : Bool}
    (rejected : pointers (wideSize count) = false) :
    Spares ((wideIntrinsic sandbox count pointers refusal call result).writes accepted) := by
  unfold wideIntrinsic
  by_cases paid : sandbox.gasConsume (sandbox.cost (wideSize count)) = true
  · simp only [paid, rejected, if_true, Bool.false_eq_true, if_false]
    exact fun _ => rfl
  · simp only [paid]
    exact fun enough => absurd rfl enough

theorem lengthIntrinsic_spares {width : CharWidth} {str : UInt32}
    (rejected : sandbox.pointerCast str = false) :
    Spares ((lengthIntrinsic sandbox width str).map fun _ => false) := by
  apply spares_consume
  rw [pointer_of_rejected rejected]
  exact spares_ok rfl

theorem myStrchrnul_spares {str : UInt32} {ch : Int32}
    (rejected : sandbox.pointerCast str = false) :
    Spares ((myStrchrnul sandbox str ch).map fun _ => false) := by
  apply spares_consume
  rw [pointer_of_rejected rejected]
  exact spares_ok rfl

theorem compareIntrinsic_spares {width : CharWidth} {left right : UInt32}
    (rejected : sandbox.pointerCast left = false ∨ sandbox.pointerCast right = false) :
    Spares ((compareIntrinsic sandbox width left right).map fun _ => false) := by
  apply spares_consume
  exact absent_cases (sandbox.pointer left) (sandbox.pointer right)
    (rejected.imp pointer_of_rejected pointer_of_rejected)
    (fun _ => spares_ok rfl) fun _ => spares_ok rfl

/-- A source that is rejected ends the copy before its length is taken. -/
theorem copyIntrinsic_spares_source {width : CharWidth} {dst src : UInt32}
    (rejected : sandbox.pointerCast src = false) :
    Spares ((copyIntrinsic sandbox width dst src).map Copied.writes) := by
  rw [copyIntrinsic, pointer_of_rejected rejected]
  exact spares_ok rfl

/-- A destination that is rejected for the length of the source ends it after. -/
theorem copyIntrinsic_spares_destination {width : CharWidth} {dst src : UInt32} {length : UInt64}
    (found : sandbox.strlen width src.toNat = .ok length)
    (rejected : sandbox.bufferCast dst ((length + 1) * width.size) = false) :
    Spares ((copyIntrinsic sandbox width dst src).map Copied.writes) := by
  cases valid : sandbox.pointerCast src with
  | false => exact copyIntrinsic_spares_source valid
  | true =>
      rw [copyIntrinsic, pointer_of_valid valid]
      dsimp only
      rw [bind_of_ok found]
      apply spares_consume
      rw [buffer_of_rejected rejected]
      exact spares_ok rfl

/-- Either string that is rejected ends the append before a length is taken. -/
theorem concatIntrinsic_spares_strings {width : CharWidth} {dst src count : UInt32}
    (rejected : sandbox.pointerCast src = false ∨ sandbox.pointerCast dst = false) :
    Spares ((concatIntrinsic sandbox width dst src count).map Copied.writes) := by
  rw [concatIntrinsic]
  exact absent_cases (sandbox.pointer src) (sandbox.pointer dst)
    (rejected.imp pointer_of_rejected pointer_of_rejected)
    (fun _ => spares_ok rfl) fun _ => spares_ok rfl

/-- A destination that is rejected for both lengths ends it after. -/
theorem concatIntrinsic_spares_destination {width : CharWidth} {dst src count : UInt32}
    {srcLength dstLength : UInt64}
    (srcFound : sandbox.strlen width src.toNat = .ok srcLength)
    (dstFound : sandbox.strlen width dst.toNat = .ok dstLength)
    (rejected : sandbox.bufferCast dst ((dstLength + 1 +
      if srcLength > count.toUInt64 then count.toUInt64 else srcLength) * width.size) = false) :
    Spares ((concatIntrinsic sandbox width dst src count).map Copied.writes) := by
  cases srcValid : sandbox.pointerCast src with
  | false => exact concatIntrinsic_spares_strings (Or.inl srcValid)
  | true =>
      cases dstValid : sandbox.pointerCast dst with
      | false => exact concatIntrinsic_spares_strings (Or.inr dstValid)
      | true =>
          rw [concatIntrinsic, pointer_of_valid srcValid, pointer_of_valid dstValid]
          dsimp only
          rw [bind_of_ok srcFound, bind_of_ok dstFound]
          apply spares_consume
          rw [buffer_of_rejected rejected]
          exact spares_ok rfl

theorem moveIntrinsic_spares {sandbox : MemorySandbox} {dst src size : UInt32}
    (rejected : sandbox.bufferCast dst size.toUInt64 = false ∨
      sandbox.bufferCast src size.toUInt64 = false) :
    Spares ((moveIntrinsic sandbox dst src size).map Copied.writes) := by
  apply spares_consume
  exact absent_cases (sandbox.buffer dst size.toUInt64) (sandbox.buffer src size.toUInt64)
    (rejected.imp buffer_of_rejected buffer_of_rejected)
    (fun _ => spares_ok rfl) fun _ => spares_ok rfl

theorem myMemset_spares {sandbox : MemorySandbox} {dst size : UInt32} {val : Int32}
    (rejected : sandbox.bufferCast dst size.toUInt64 = false) :
    Spares ((myMemset sandbox dst val size).map Copied.writes) := by
  apply spares_consume
  rw [buffer_of_rejected rejected]
  exact spares_ok rfl

theorem myMemcmp_spares {sandbox : MemorySandbox} {left right size : UInt32}
    (rejected : sandbox.bufferCast left size.toUInt64 = false ∨
      sandbox.bufferCast right size.toUInt64 = false) :
    Spares ((myMemcmp sandbox left right size).map fun _ => false) := by
  apply spares_consume
  exact absent_cases (sandbox.buffer left size.toUInt64) (sandbox.buffer right size.toUInt64)
    (rejected.imp buffer_of_rejected buffer_of_rejected)
    (fun _ => spares_ok rfl) fun _ => spares_ok rfl

theorem myMemchr_spares {sandbox : MemorySandbox} {offset count : UInt32} {ch : Int32}
    (rejected : sandbox.bufferCast offset (maxSize sandbox offset count).toUInt64 = false) :
    Spares ((myMemchr sandbox offset ch count).map fun _ => false) := by
  apply spares_consume
  dsimp only
  rw [buffer_of_rejected rejected]
  exact spares_ok rfl

theorem myWmemchr_spares {sandbox : MemorySandbox} {src wch count : UInt32}
    (rejected : sandbox.bufferCast src (maxSize sandbox src (count <<< 2)).toUInt64 = false) :
    Spares ((myWmemchr sandbox src wch count).map fun _ => false) := by
  apply spares_consume
  dsimp only
  rw [buffer_of_rejected rejected]
  exact spares_ok rfl

theorem boundedCompareIntrinsic_spares {sandbox : MemorySandbox} {width : CharWidth}
    {left right count : UInt32}
    (rejected : sandbox.pointerCast left = false ∨ sandbox.pointerCast right = false) :
    Spares ((boundedCompareIntrinsic sandbox width left right count).map fun _ => false) := by
  apply spares_consume
  exact absent_cases (sandbox.pointer left) (sandbox.pointer right)
    (rejected.imp pointer_of_rejected pointer_of_rejected)
    (fun _ => spares_ok rfl) fun _ => spares_ok rfl

theorem myStrncpy_spares {sandbox : MemorySandbox} {dst src count : UInt32}
    (rejected : sandbox.pointerCast src = false ∨
      sandbox.bufferCast dst count.toUInt64 = false) :
    Spares ((myStrncpy sandbox dst src count).map Copied.writes) := by
  apply spares_consume
  exact absent_cases (sandbox.pointer src) (sandbox.buffer dst count.toUInt64)
    (rejected.imp pointer_of_rejected buffer_of_rejected)
    (fun _ => spares_ok rfl) fun _ => spares_ok rfl

end Spares

/-! ## Calls that walk a string before they come to the pointer -/

namespace GuestCall

variable {sandbox : StringSandbox} {Result : Type}

/-- A call that ends for another reason than the gas is not spared. -/
theorem not_spares_error {error : Interruption} (other : error ≠ .outOfGas)
    {touches : Result → Bool} : ¬Spares (Except.map touches (.error error)) := by
  intro spares
  have returned := spares fun same => other (Except.error.inj same)
  cases returned

theorem not_spares_strays {action : Intrinsic Result} (strays : Strays action)
    {touches : Result → Bool} : ¬Spares (Except.map touches action) := by
  rcases strays with outside | misaligned
  · rw [outside]
    exact not_spares_error (by decide)
  · rw [misaligned]
    exact not_spares_error (by decide)

/-- Where the length of the source is not found, the start of the destination counts. -/
theorem copyChecks_of_unterminated {width : CharWidth} {dst src : UInt32}
    (unterminated : ¬sandbox.Terminated width src) :
    copyChecks sandbox width dst src = [.pointer src, .pointer dst] := by
  rcases strlen_strays_iff.mpr unterminated with outside | misaligned
  · rw [copyChecks, outside]
  · rw [copyChecks, misaligned]

/-- A copy is guarded when an unterminated source does not keep it from the check of
its destination. -/
theorem copy_guarded_iff {width : CharWidth} {dst src : UInt32} :
    ((∃ check ∈ copyChecks sandbox width dst src, check.Rejects sandbox) →
      Spares ((copyIntrinsic sandbox width dst src).map Copied.writes)) ↔
    CopyDefended sandbox width dst src := by
  cases valid : sandbox.pointerCast src with
  | false =>
      refine iff_of_true (fun _ => copyIntrinsic_spares_source valid) fun accepted => ?_
      rw [valid] at accepted
      cases accepted
  | true =>
      by_cases terminated : sandbox.Terminated width src
      · refine iff_of_true (fun rejected => ?_) fun _ unterminated => absurd terminated unterminated
        obtain ⟨length, _, found⟩ := strlen_returns terminated
        simp only [copyChecks, found, List.mem_cons, List.not_mem_nil, or_false,
          exists_eq_or_imp, exists_eq_left, Check.Rejects, valid, Bool.true_eq_false,
          false_or] at rejected
        exact copyIntrinsic_spares_destination found rejected
      · have strays := @copyIntrinsic_strays_of_unterminated sandbox width dst src valid terminated
        simp only [copyChecks_of_unterminated terminated, List.mem_cons, List.not_mem_nil,
          or_false, exists_eq_or_imp, exists_eq_left, Check.Rejects, valid, Bool.true_eq_false,
          false_or, not_spares_strays strays, CopyDefended, terminated, not_false_eq_true,
          forall_const, imp_false, Bool.not_eq_false]

theorem numberChecks_rejected_iff {str strEnd : UInt32} :
    (∃ check ∈ numberChecks str strEnd, check.Rejects sandbox) ↔
      sandbox.pointerCast str = false ∨ strEnd ≠ xNull ∧ sandbox.bufferCast strEnd 4 = false := by
  by_cases absent : strEnd = xNull
  · simp [numberChecks, absent, Check.Rejects]
  · simp [numberChecks, absent, Check.Rejects]

/-- A known base makes the reader look at the string. -/
theorem numeral_of_known {str : Nat} {base : UInt32} (known : KnownBase base) :
    sandbox.numeral str base =
      (hosted (Numeral.parse base.toNat (sandbox.characters .char str))).map fun found =>
        (found, some (str + (found.map fun numeral => numeral.length).getD 0)) := by
  rw [numeral, if_pos known]
  cases Numeral.parse base.toNat (sandbox.characters .char str) <;> rfl

/-- Behind the reader a rejected place for the end is left alone. -/
theorem numberIntrinsic_spares_end {Host : Type} {value : Option Numeral → Host}
    {narrow : Host → Result} {refusal : Result} {str strEnd base : UInt32}
    (valid : sandbox.pointerCast str = true) (rejected : sandbox.bufferCast strEnd 4 = false)
    {found : Option Numeral} {endPtr : Option Nat}
    (read : sandbox.numeral str.toNat base = .ok (found, endPtr)) :
    Spares ((numberIntrinsic sandbox value narrow refusal str strEnd base).map
      Converted.writes) := by
  apply spares_consume
  rw [pointer_of_valid valid]
  dsimp only
  rw [bind_of_ok read]
  dsimp only
  rw [buffer_of_rejected rejected]
  cases endPtr with
  | none => exact spares_ok rfl
  | some endPtr =>
      dsimp only
      split
      · exact spares_ok rfl
      · exact spares_ok rfl

/-- An append checks both strings before it walks one. -/
theorem concatIntrinsic_spares {width : CharWidth} {dst src count : UInt32}
    (rejected : ∃ check ∈ concatChecks sandbox width dst src count, check.Rejects sandbox) :
    Spares ((concatIntrinsic sandbox width dst src count).map Copied.writes) := by
  obtain ⟨check, member, rejects⟩ := rejected
  rw [concatChecks, List.mem_append] at member
  rcases member with strings | destination
  · apply concatIntrinsic_spares_strings
    simp only [List.mem_cons, List.not_mem_nil, or_false] at strings
    rcases strings with rfl | rfl
    · exact Or.inl rejects
    · exact Or.inr rejects
  · cases srcFound : sandbox.strlen width src.toNat with
    | error error => simp [srcFound] at destination
    | ok srcLength =>
        cases dstFound : sandbox.strlen width dst.toNat with
        | error error => simp [srcFound, dstFound] at destination
        | ok dstLength =>
            simp only [srcFound, dstFound, List.mem_singleton] at destination
            subst destination
            exact concatIntrinsic_spares_destination srcFound dstFound rejects

/-- The reader of an unfinished string leaves linear memory. -/
theorem numberIntrinsic_outside {Host : Type} {value : Option Numeral → Host}
    {narrow : Host → Result} {refusal : Result} {str strEnd base : UInt32}
    (paid : sandbox.gasConsume sandbox.intrinsicCallCost = true)
    (valid : sandbox.pointerCast str = true) (known : KnownBase base)
    (parsed : Numeral.parse base.toNat (sandbox.characters .char str.toNat) = none) :
    numberIntrinsic sandbox value narrow refusal str strEnd base = .error .outside := by
  rw [numberIntrinsic, consume, if_pos paid, pointer_of_valid valid]
  simp only [numeral_of_known known, parsed]
  rfl

/-- With a valid string, the reader decides whether the check of the end is reached. -/
theorem number_guarded_of_valid {Host : Type} {value : Option Numeral → Host}
    {narrow : Host → Result} {refusal : Result} {str strEnd base : UInt32}
    (paid : sandbox.gasConsume sandbox.intrinsicCallCost = true)
    (valid : sandbox.pointerCast str = true) (known : KnownBase base) :
    (strEnd ≠ xNull ∧ sandbox.bufferCast strEnd 4 = false →
      Spares ((numberIntrinsic sandbox value narrow refusal str strEnd base).map
        Converted.writes)) ↔
    NumberDefended sandbox str strEnd base := by
  cases parsed : Numeral.parse base.toNat (sandbox.characters .char str.toNat) with
  | none =>
      have unfinished := Numeral.parse_eq_none_iff.mp parsed
      rw [numberIntrinsic_outside paid valid known parsed]
      constructor
      · intro spares _ _ wanted rejected
        exact absurd (spares ⟨wanted, rejected⟩) (not_spares_strays (.inl rfl))
      · rintro defended ⟨wanted, rejected⟩
        exact absurd unfinished (defended paid valid wanted rejected known)
  | some found =>
      have finished : ¬Numeral.Unfinished base.toNat (sandbox.characters .char str.toNat) := by
        intro unfinished
        rw [Numeral.parse_eq_none_iff.mpr unfinished] at parsed
        cases parsed
      have read : sandbox.numeral str.toNat base =
          .ok (found, some (str.toNat + (found.map fun numeral => numeral.length).getD 0)) := by
        rw [numeral_of_known known, parsed]
        rfl
      refine iff_of_true ?_ fun _ _ _ _ _ => finished
      rintro ⟨_, rejected⟩
      exact numberIntrinsic_spares_end valid rejected read

/-- A conversion is guarded when the string does not keep it from the check of the
place for its end. -/
theorem number_guarded_iff {Host : Type} (value : Option Numeral → Host)
    (narrow : Host → Result) (refusal : Result) (str strEnd base : UInt32) :
    ((∃ check ∈ numberChecks str strEnd, check.Rejects sandbox) →
      Spares ((numberIntrinsic sandbox value narrow refusal str strEnd base).map
        Converted.writes)) ↔
    NumberDefended sandbox str strEnd base := by
  rw [numberChecks_rejected_iff]
  cases valid : sandbox.pointerCast str with
  | false =>
      refine iff_of_true (fun _ => ?_) fun _ accepted => ?_
      · apply spares_consume
        rw [pointer_of_rejected valid]
        exact spares_ok rfl
      · rw [valid] at accepted
        cases accepted
  | true =>
      rw [or_iff_right (by simp)]
      by_cases paid : sandbox.gasConsume sandbox.intrinsicCallCost = true
      · by_cases known : KnownBase base
        · exact number_guarded_of_valid paid valid known
        · refine iff_of_true ?_ fun _ _ _ _ known' => absurd known' known
          rintro ⟨_, rejected⟩
          exact numberIntrinsic_spares_end valid rejected (if_neg known)
      · refine iff_of_true (fun _ => ?_) fun paid' => absurd paid' paid
        rw [numberIntrinsic, consume, if_neg paid]
        exact fun enough => absurd rfl enough

/-- `my_wcschr` hands a rejected pointer to the host when the gas lets it. -/
theorem wcschr_guarded_iff {src wch : UInt32} :
    (sandbox.pointerCast src = false →
      Spares ((myWcschr sandbox src wch).map fun _ => false)) ↔
    sandbox.pointerCast src = true ∨ sandbox.gasConsume sandbox.intrinsicCallCost = false := by
  cases valid : sandbox.pointerCast src with
  | true => exact iff_of_true (fun rejected => absurd rejected (by simp)) (Or.inl rfl)
  | false =>
      rw [or_iff_right Bool.false_ne_true, forall_prop_of_true rfl, myWcschr, consume]
      by_cases paid : sandbox.gasConsume sandbox.intrinsicCallCost = true
      · rw [if_pos paid, pointer_of_rejected valid]
        exact iff_of_false (not_spares_error (by decide)) (by simp [paid])
      · rw [if_neg paid]
        exact iff_of_true (fun enough => absurd rfl enough) (Bool.eq_false_iff.mpr paid)

/-- A cast that yields null makes the pointers of a request invalid. -/
theorem pointers_of_rejected {sandbox : Sandbox} {request : Request}
    (rejected : (∃ offset ∈ request.starts, sandbox.pointerCast offset = false) ∨
      ∃ offset ∈ request.call.buffers,
        sandbox.bufferCast offset (wideSize request.call.count) = false) :
    request.pointers sandbox (wideSize request.call.count) = false := by
  rw [Request.pointers, Bool.and_eq_false_iff]
  rcases rejected with ⟨offset, member, none_⟩ | ⟨offset, member, none_⟩
  · exact Or.inl (List.all_eq_false.mpr ⟨offset, member, by simp [none_]⟩)
  · exact Or.inr (List.all_eq_false.mpr ⟨offset, member, by simp [none_]⟩)

/-- The sized wide-character intrinsics test every pointer before they call the host. -/
theorem wide_spares {sandbox : Sandbox} {request : Request}
    (invalid : request.pointers sandbox (wideSize request.call.count) = false) :
    Spares (request.writes sandbox) := by
  cases request with
  | wmemcpy wasmDst wasmSrc count =>
      exact wideIntrinsic_spares (by simpa [Request.pointers, Request.starts, Request.call,
        HostCall.buffers, HostCall.count] using invalid)
  | wmemset wasmDst val count =>
      exact wideIntrinsic_spares (by simpa [Request.pointers, Request.starts, Request.call,
        HostCall.buffers, HostCall.count] using invalid)
  | wmemcmp wasmVl wasmVr count =>
      exact wideIntrinsic_spares (by simpa [Request.pointers, Request.starts, Request.call,
        HostCall.buffers, HostCall.count] using invalid)
  | wmemmove wasmDst wasmSrc count =>
      exact wideIntrinsic_spares (by simpa [Request.pointers, Request.starts, Request.call,
        HostCall.buffers, HostCall.count] using invalid)
  | wcsncpy wasmDst wasmSrc count =>
      exact wideIntrinsic_spares (by simpa [Request.pointers, Request.starts, Request.call,
        HostCall.buffers, HostCall.count] using invalid)

/-- The string intrinsics guard their pointers in the same way. -/
theorem string_guarded_iff (sandbox : MemorySandbox) (request : StringRequest) :
    (GuestCall.string request).Guarded sandbox ↔ (GuestCall.string request).Defended sandbox := by
  cases request with
  | strlen str =>
      refine iff_of_true (fun rejected => lengthIntrinsic_spares ?_) trivial
      simpa [Rejected, checks, Check.Rejects] using rejected
  | strchrnul str ch =>
      refine iff_of_true (fun rejected => myStrchrnul_spares ?_) trivial
      simpa [Rejected, checks, Check.Rejects] using rejected
  | strcmp wasmSl wasmSr =>
      refine iff_of_true (fun rejected => compareIntrinsic_spares ?_) trivial
      simpa [Rejected, checks, Check.Rejects] using rejected
  | strcpy wasmDst wasmSrc => exact copy_guarded_iff
  | strncat wasmDst wasmSrc count =>
      refine iff_of_true (fun rejected => concatIntrinsic_spares rejected) trivial
  | wcslen wasmWcs =>
      refine iff_of_true (fun rejected => lengthIntrinsic_spares ?_) trivial
      simpa [Rejected, checks, Check.Rejects] using rejected
  | wcschr wasmSrc wch =>
      have rejects : Rejected sandbox (.string (.wcschr wasmSrc wch)) ↔
          sandbox.pointerCast wasmSrc = false := by
        simp [Rejected, checks, Check.Rejects]
      exact (imp_congr_left rejects).trans wcschr_guarded_iff
  | wcscmp wasmVl wasmVr =>
      refine iff_of_true (fun rejected => compareIntrinsic_spares ?_) trivial
      simpa [Rejected, checks, Check.Rejects] using rejected
  | wcscpy wasmDst wasmSrc => exact copy_guarded_iff
  | wcsncat wasmDst wasmSrc count =>
      refine iff_of_true (fun rejected => concatIntrinsic_spares rejected) trivial

/-- Every intrinsic guards its pointers but `my_wcschr`, which hands a rejected pointer
to the host; and one that walks a string before it comes to the rejected pointer
does so when the host finds the end of that string inside linear memory. -/
theorem guarded_iff_defended (sandbox : MemorySandbox) (call : GuestCall) :
    call.Guarded sandbox ↔ call.Defended sandbox := by
  cases call with
  | wide request =>
      refine iff_of_true (fun rejected => wide_spares (pointers_of_rejected ?_)) trivial
      simpa [Rejected, checks, or_and_right, exists_or, Check.Rejects] using rejected
  | string request => exact string_guarded_iff sandbox request
  | memcpy wasmDst wasmSrc size =>
      refine iff_of_true (fun rejected => moveIntrinsic_spares ?_) trivial
      simpa [Rejected, checks, Check.Rejects] using rejected
  | memmove wasmDst wasmSrc size =>
      refine iff_of_true (fun rejected => moveIntrinsic_spares ?_) trivial
      simpa [Rejected, checks, Check.Rejects] using rejected
  | memset wasmDst val size =>
      refine iff_of_true (fun rejected => myMemset_spares ?_) trivial
      simpa [Rejected, checks, Check.Rejects] using rejected
  | memcmp wasmVl wasmVr size =>
      refine iff_of_true (fun rejected => myMemcmp_spares ?_) trivial
      simpa [Rejected, checks, Check.Rejects] using rejected
  | memchr memOffset ch count =>
      refine iff_of_true (fun rejected => myMemchr_spares ?_) trivial
      simpa [Rejected, checks, Check.Rejects] using rejected
  | wmemchr wasmSrc wch count =>
      refine iff_of_true (fun rejected => myWmemchr_spares ?_) trivial
      simpa [Rejected, checks, Check.Rejects] using rejected
  | strncmp wasmSl wasmSr count =>
      refine iff_of_true (fun rejected => boundedCompareIntrinsic_spares ?_) trivial
      simpa [Rejected, checks, Check.Rejects] using rejected
  | wcsncmp wasmWl wasmWr count =>
      refine iff_of_true (fun rejected => boundedCompareIntrinsic_spares ?_) trivial
      simpa [Rejected, checks, Check.Rejects] using rejected
  | strncpy wasmDst wasmSrc count =>
      refine iff_of_true (fun rejected => myStrncpy_spares ?_) trivial
      simpa [Rejected, checks, Check.Rejects] using rejected
  | strtol str strEnd base => exact number_guarded_iff _ _ _ str strEnd base
  | strtoul str strEnd base => exact number_guarded_iff _ _ _ str strEnd base
  | strtoll str strEnd base => exact number_guarded_iff _ _ _ str strEnd base
  | strtoull str strEnd base => exact number_guarded_iff _ _ _ str strEnd base

/-- A page of zeros and enough gas for a call. -/
def blank : MemorySandbox := .ofMemory (fun _ : Fin 65536 => 0) 100

/-- `wcschr` gets a null pointer for the first offset behind the page. -/
theorem wcschr_unguarded :
    blank.pointerCast 65536 = false ∧
      myWcschr blank.toStringSandbox 65536 0x62 = .error .nullPointer ∧
      ¬Guarded blank (.string (.wcschr 65536 0x62)) := by
  have rejected : blank.pointerCast 65536 = false := by decide
  have null : myWcschr blank.toStringSandbox 65536 0x62 = .error .nullPointer := by
    rw [myWcschr, pointer_of_rejected rejected]
    rfl
  refine ⟨rejected, null, fun guarded => ?_⟩
  have spared : Spares ((myWcschr blank.toStringSandbox 65536 0x62).map fun _ => false) :=
    guarded ⟨.pointer 65536, by simp [checks], rejected⟩
  rw [null] at spared
  exact not_spares_error (by decide) spared

end GuestCall

end XProject.Plugin
