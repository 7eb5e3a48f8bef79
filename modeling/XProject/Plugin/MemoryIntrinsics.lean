import XProject.Plugin.StringIntrinsics

/-!
# The intrinsics of `libc-module.cc` with a size or a count

`my_memcpy` and the other intrinsics on sized narrow memory, `my_strncmp` and
`my_strncpy`, and the two searches that cut their count to what is left of
linear memory.
-/

namespace XProject.Plugin

open XProject.Std

/-- A sandbox with the host's `memcmp` and `strncmp`. -/
structure MemorySandbox extends StringSandbox where
  /-- What `memcmp` returns for the bytes that decide. -/
  memoryComparison : (left right : Character .char) → Int32
  /-- What `strncmp` and `wcsncmp` return for the characters that decide. -/
  boundedComparison : {width : CharWidth} → (left right : Character width) → Int32

/-- A sandbox over the given bytes whose comparisons are those of `strcmp` and `wcscmp`. -/
def MemorySandbox.ofMemory {memorySize : Nat} (memory : Fin memorySize → UInt8) (gas : Nat) :
    MemorySandbox where
  toStringSandbox := .ofMemory memory gas
  memoryComparison left right := (StringSandbox.ofMemory memory gas).comparison left right
  boundedComparison left right := (StringSandbox.ofMemory memory gas).comparison left right

/-- The host's `memset`: what is stored from the destination on. -/
def memset (dst : Nat) (val : Int32) (size : UInt64) : Nat × List (Character .char) :=
  (dst, List.replicate size.toNat (val.toBitVec.setWidth 8))

namespace MemorySandbox

variable (sandbox : MemorySandbox) (width : CharWidth)

/-- `X_LINEAR_MEMORY_SIZE`. -/
def linearMemorySize : UInt64 := UInt64.ofNat sandbox.memorySize

/-! ## Host routines -/

/-- `memcpy`, `memmove`: what is stored from the destination on. -/
def memmove (dst src : Nat) (size : UInt64) : Nat × List (Character .char) :=
  (dst, (sandbox.characters .char src).take size.toNat)

/-- `memcmp`. -/
def memcmp (lhs rhs : Nat) (size : UInt64) : Intrinsic Int32 := do
  let decided ← StringSandbox.hosted (CString.memcmp size.toNat
    (sandbox.characters .char lhs) (sandbox.characters .char rhs))
  match decided with
  | some (left, right) => pure (sandbox.memoryComparison left right)
  | none => pure 0

/-- `strncmp`, `wcsncmp`. -/
def strncmp (sl sr : Nat) (count : UInt64) : Intrinsic Int32 := do
  StringSandbox.handed width sl
  StringSandbox.handed width sr
  let decided ← StringSandbox.hosted (CString.strncmp 0 count.toNat
    (sandbox.characters width sl) (sandbox.characters width sr))
  match decided with
  | some (left, right) => pure (sandbox.boundedComparison left right)
  | none => pure 0

/-- `memchr`, `wmemchr`: the position of the character, absent when it returns null. The
alignment of the pointer is ignored. -/
def memchr (buffer : Nat) (ch : Character width) (count : UInt64) : Intrinsic (Option Nat) := do
  let found ← StringSandbox.hosted
    (CString.memchr ch count.toNat (sandbox.characters width buffer))
  pure (found.map fun index => buffer + width.bytes * index)

end MemorySandbox

variable (sandbox : MemorySandbox)

/-! ## Sized memory -/

/-- The common body of `my_memcpy` and `my_memmove`, which differ in what the host may
do when the ranges overlap. -/
def moveIntrinsic (wasmDst wasmSrc size : UInt32) : Intrinsic (Copied .char) := do
  sandbox.consume (sandbox.cost size.toUInt64)
  match sandbox.buffer wasmDst size.toUInt64, sandbox.buffer wasmSrc size.toUInt64 with
  | some dst, some src => pure ⟨wasmDst, some (sandbox.memmove dst src size.toUInt64)⟩
  | _, _ => pure ⟨wasmDst, none⟩

/-- `my_memcpy`. -/
def myMemcpy (wasmDst wasmSrc size : UInt32) : Intrinsic (Copied .char) :=
  moveIntrinsic sandbox wasmDst wasmSrc size

/-- `my_memmove`. -/
def myMemmove (wasmDst wasmSrc size : UInt32) : Intrinsic (Copied .char) :=
  moveIntrinsic sandbox wasmDst wasmSrc size

/-- `my_memset`. -/
def myMemset (wasmDst : UInt32) (val : Int32) (size : UInt32) : Intrinsic (Copied .char) := do
  sandbox.consume (sandbox.cost size.toUInt64)
  match sandbox.buffer wasmDst size.toUInt64 with
  | some dst => pure ⟨wasmDst, some (memset dst val size.toUInt64)⟩
  | none => pure ⟨wasmDst, none⟩

/-- `my_memcmp`. -/
def myMemcmp (wasmVl wasmVr size : UInt32) : Intrinsic Int32 := do
  sandbox.consume (sandbox.cost size.toUInt64)
  match sandbox.buffer wasmVl size.toUInt64, sandbox.buffer wasmVr size.toUInt64 with
  | some lhs, some rhs => sandbox.memcmp lhs rhs size.toUInt64
  | _, _ => pure (-1)

/-! ## Searches -/

/-- `uint32_t max_size`: what is left of linear memory, cut to 32 bits, and then to the
size that is asked for. -/
def maxSize (offset size : UInt32) : UInt32 :=
  let left := (sandbox.linearMemorySize - offset.toUInt64).toUInt32
  if left > size then size else left

/-- `my_memchr`. -/
def myMemchr (memOffset : UInt32) (ch : Int32) (count : UInt32) : Intrinsic UInt32 := do
  sandbox.consume sandbox.intrinsicCallCost
  let size := maxSize sandbox memOffset count
  match sandbox.buffer memOffset size.toUInt64 with
  | none => pure xNull
  | some buffer =>
      match ← sandbox.memchr .char buffer (ch.toBitVec.setWidth 8) size.toUInt64 with
      | none => pure xNull
      | some ret => pure (sandbox.linearMemoryOffset ret)

/-- `my_wmemchr`: the count is shifted to bytes and back in 32 bits. -/
def myWmemchr (wasmSrc wch count : UInt32) : Intrinsic UInt32 := do
  sandbox.consume sandbox.intrinsicCallCost
  let countSize := count <<< 2
  let size := maxSize sandbox wasmSrc countSize
  match sandbox.buffer wasmSrc size.toUInt64 with
  | none => pure xNull
  | some src =>
      let count := size >>> 2
      match ← sandbox.memchr .wchar src wch.toBitVec count.toUInt64 with
      | none => pure xNull
      | some wstr => pure (sandbox.linearMemoryOffset wstr)

/-! ## Bounded strings -/

/-- The common body of `my_strncmp` and `my_wcsncmp`. -/
def boundedCompareIntrinsic (width : CharWidth) (wasmSl wasmSr count : UInt32) :
    Intrinsic Int32 := do
  sandbox.consume sandbox.intrinsicCallCost
  match sandbox.pointer wasmSl, sandbox.pointer wasmSr with
  | some sl, some sr => sandbox.strncmp width sl sr count.toUInt64
  | _, _ => pure (-1)

/-- `my_strncmp`. -/
def myStrncmp (wasmSl wasmSr count : UInt32) : Intrinsic Int32 :=
  boundedCompareIntrinsic sandbox .char wasmSl wasmSr count

/-- `my_wcsncmp`. -/
def myWcsncmp (wasmWl wasmWr count : UInt32) : Intrinsic Int32 :=
  boundedCompareIntrinsic sandbox .wchar wasmWl wasmWr count

/-- `my_strncpy`. -/
def myStrncpy (wasmDst wasmSrc count : UInt32) : Intrinsic (Copied .char) := do
  sandbox.consume (sandbox.cost count.toUInt64)
  match sandbox.pointer wasmSrc, sandbox.buffer wasmDst count.toUInt64 with
  | some src, some dst =>
      let stored ← sandbox.strncpy .char dst src count.toUInt64
      pure ⟨wasmDst, some stored⟩
  | _, _ => pure ⟨wasmDst, none⟩

end XProject.Plugin
