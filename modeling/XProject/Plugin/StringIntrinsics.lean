import XProject.Plugin.LibcModule
import XProject.Std.CString
import Mathlib.Data.Nat.Digits.Defs

/-!
# The string intrinsics of `libc-module.cc`

These intrinsics check where a string starts and leave finding its end to the
host. The narrow and the wide version of an intrinsic differ in the width of a
character and, for `my_strchrnul` and `my_wcschr`, in more than that. A host
routine that needs a character that does not lie wholly inside linear memory
ends the call as `outside`, and one that gets a pointer that is not aligned for
its characters ends it as `misaligned`: C leaves open what it reads.
-/

namespace XProject.Plugin

open XProject.Std

/-- The character types of the host. -/
inductive CharWidth where
  | char
  | wchar
deriving DecidableEq

def CharWidth.bytes : CharWidth → Nat
  | .char => 1
  | .wchar => 4

/-- What the sizes are scaled by: `WCHAR_SIZE` for wide characters. -/
def CharWidth.size (width : CharWidth) : UInt64 := UInt64.ofNat width.bytes

/-- The pointer at a position in linear memory is aligned for a character. Linear memory
itself starts at an address that is aligned for every type. -/
def CharWidth.Aligned (width : CharWidth) (position : Nat) : Prop := position % width.bytes = 0

instance CharWidth.decideAligned (width : CharWidth) (position : Nat) :
    Decidable (width.Aligned position) :=
  inferInstanceAs (Decidable (_ = _))

/-- A character of the host. -/
abbrev Character (width : CharWidth) := BitVec (8 * width.bytes)

/-- A sandbox with what its linear memory holds. -/
structure StringSandbox extends Sandbox where
  memory : Fin memorySize → UInt8
  pointerCast_iff : ∀ offset, pointerCast offset = true ↔ offset.toNat < memorySize
  /-- `X_LINEAR_MEMORY_OFFSET` of the pointer at a position in linear memory. -/
  linearMemoryOffset : (position : Nat) → UInt32
  /-- What `strcmp` and `wcscmp` return for the characters that decide. -/
  comparison : {width : CharWidth} → (left right : Character width) → Int32

/-- A sandbox over the given bytes, in which gas is a plain budget. Narrow
characters compare unsigned, wide ones signed. -/
def StringSandbox.ofMemory {memorySize : Nat} (memory : Fin memorySize → UInt8) (gas : Nat) :
    StringSandbox where
  toSandbox := .ofSize memorySize gas
  memory := memory
  pointerCast_iff _ := decide_eq_true_iff
  linearMemoryOffset position := UInt32.ofNat position
  comparison {width} left right :=
    match width with
    | .char => if left = right then 0 else if left.toNat < right.toNat then -1 else 1
    | .wchar => if left = right then 0 else if left.toInt < right.toInt then -1 else 1

/-- What keeps an intrinsic from returning: `GAS_CONSUME` stops the call, a host
routine needs a character that is not inside linear memory, or it gets a null pointer
or one that is not aligned. -/
inductive Interruption where
  | outOfGas
  | outside
  | nullPointer
  | misaligned
deriving DecidableEq

/-- A call of an intrinsic. -/
abbrev Intrinsic (Result : Type) := Except Interruption Result

/-- What an intrinsic that copies returns, and the characters the host stores,
with their position. They are what C says for a source and a destination that do
not overlap; otherwise it leaves them open. -/
structure Copied (width : CharWidth) where
  result : UInt32
  stored : Option (Nat × List (Character width))

/-- `X_NULL`. -/
def xNull : UInt32 := 0

namespace StringSandbox

variable (sandbox : StringSandbox) (width : CharWidth)

/-- `X_STATIC_POINTER_CAST`: the position of a non-null pointer. -/
def pointer (offset : UInt32) : Option Nat :=
  if sandbox.pointerCast offset then some offset.toNat else none

/-- `X_STATIC_BUFFER_CAST`. -/
def buffer (offset : UInt32) (size : UInt64) : Option Nat :=
  if sandbox.bufferCast offset size then some offset.toNat else none

/-- `GAS_CONSUME`. -/
def consume (cost : UInt64) : Intrinsic Unit :=
  if sandbox.gasConsume cost then pure () else throw .outOfGas

/-! ## Characters in linear memory -/

def byte (position : Nat) : UInt8 :=
  if inside : position < sandbox.memorySize then sandbox.memory ⟨position, inside⟩ else 0

/-- The character in the bytes from a position on. -/
def character (position : Nat) : Character width :=
  BitVec.ofNat _ (Nat.ofDigits 256
    ((List.range width.bytes).map fun index => (sandbox.byte (position + index)).toNat))

/-- The characters from a position on that lie wholly inside linear memory. -/
def characters (position : Nat) : List (Character width) :=
  (List.range ((sandbox.memorySize - position) / width.bytes)).map fun index =>
    sandbox.character width (position + width.bytes * index)

/-! ## Host routines -/

/-- A routine on characters of the width gets a pointer. -/
def handed (position : Nat) : Intrinsic Unit :=
  if width.Aligned position then pure () else throw .misaligned

/-- The result of a routine on the characters inside linear memory. -/
def hosted {Result : Type} (result : Option Result) : Intrinsic Result :=
  match result with
  | some value => pure value
  | none => throw .outside

/-- `strlen`, `wcslen`. -/
def strlen (str : Nat) : Intrinsic UInt64 := do
  handed width str
  let length ← hosted (CString.strlen 0 (sandbox.characters width str))
  pure (UInt64.ofNat length)

/-- `strchr`, `wcschr`: the position of the character, absent when it returns null. -/
def strchr (str : Nat) (ch : Character width) : Intrinsic (Option Nat) := do
  handed width str
  let found ← hosted (CString.strchr 0 ch (sandbox.characters width str))
  pure (found.map fun index => str + width.bytes * index)

/-- `strcmp`, `wcscmp`. -/
def strcmp (sl sr : Nat) : Intrinsic Int32 := do
  handed width sl
  handed width sr
  let (left, right) ← hosted
    (CString.strcmp 0 (sandbox.characters width sl) (sandbox.characters width sr))
  pure (sandbox.comparison left right)

/-- `strncpy`, `wcsncpy`: what is stored from the destination on. -/
def strncpy (dst src : Nat) (count : UInt64) : Intrinsic (Nat × List (Character width)) := do
  handed width dst
  handed width src
  let stored ← hosted (CString.strncpy 0 count.toNat (sandbox.characters width src))
  pure (dst, stored)

/-- `strncat`, `wcsncat`: what is stored from the destination's terminator on. -/
def strncat (dst src : Nat) (count : UInt64) : Intrinsic (Nat × List (Character width)) := do
  handed width dst
  handed width src
  let length ← hosted (CString.strlen 0 (sandbox.characters width dst))
  let stored ← hosted (CString.strncat 0 count.toNat (sandbox.characters width src))
  pure (dst + width.bytes * length, stored)

end StringSandbox

open StringSandbox

variable (sandbox : StringSandbox)

/-! ## Length and search -/

/-- The common body of `my_strlen` and `my_wcslen`. -/
def lengthIntrinsic (width : CharWidth) (str : UInt32) : Intrinsic UInt32 := do
  sandbox.consume sandbox.intrinsicCallCost
  match sandbox.pointer str with
  | some strPtr =>
      let length ← sandbox.strlen width strPtr
      pure length.toUInt32
  | none => pure 0

/-- `my_strlen`. -/
def myStrlen (str : UInt32) : Intrinsic UInt32 := lengthIntrinsic sandbox .char str

/-- `my_wcslen`. -/
def myWcslen (wasmWcs : UInt32) : Intrinsic UInt32 := lengthIntrinsic sandbox .wchar wasmWcs

/-- `my_strchrnul`: `strchr`, and the terminator if that finds nothing. -/
def myStrchrnul (str : UInt32) (ch : Int32) : Intrinsic UInt32 := do
  sandbox.consume sandbox.intrinsicCallCost
  match sandbox.pointer str with
  | none => pure xNull
  | some strPtr =>
      match ← sandbox.strchr .char strPtr (ch.toBitVec.setWidth 8) with
      | some ret => pure (sandbox.linearMemoryOffset ret)
      | none =>
          let length ← sandbox.strlen .char strPtr
          pure (sandbox.linearMemoryOffset (strPtr + length.toNat))

/-- `my_wcschr`: the pointer goes to `wcschr` unchecked. -/
def myWcschr (wasmSrc wch : UInt32) : Intrinsic UInt32 := do
  sandbox.consume sandbox.intrinsicCallCost
  match sandbox.pointer wasmSrc with
  | none => throw .nullPointer
  | some src =>
      match ← sandbox.strchr .wchar src wch.toBitVec with
      | some wstr => pure (sandbox.linearMemoryOffset wstr)
      | none => pure xNull

/-! ## Comparison -/

/-- The common body of `my_strcmp` and `my_wcscmp`. -/
def compareIntrinsic (width : CharWidth) (wasmSl wasmSr : UInt32) : Intrinsic Int32 := do
  sandbox.consume sandbox.intrinsicCallCost
  match sandbox.pointer wasmSl, sandbox.pointer wasmSr with
  | some sl, some sr => sandbox.strcmp width sl sr
  | _, _ => pure (-1)

/-- `my_strcmp`. -/
def myStrcmp (wasmSl wasmSr : UInt32) : Intrinsic Int32 :=
  compareIntrinsic sandbox .char wasmSl wasmSr

/-- `my_wcscmp`. -/
def myWcscmp (wasmVl wasmVr : UInt32) : Intrinsic Int32 :=
  compareIntrinsic sandbox .wchar wasmVl wasmVr

/-! ## Copies -/

/-- The common body of `my_strcpy` and `my_wcscpy`: the length is taken before
gas is consumed, and the destination checked for it. -/
def copyIntrinsic (width : CharWidth) (wasmDst wasmSrc : UInt32) : Intrinsic (Copied width) := do
  match sandbox.pointer wasmSrc with
  | none => pure ⟨wasmDst, none⟩
  | some src =>
      let length ← sandbox.strlen width src
      let count := length + 1
      sandbox.consume (sandbox.cost (count * width.size))
      match sandbox.buffer wasmDst (count * width.size) with
      | some dst =>
          let stored ← sandbox.strncpy width dst src count
          pure ⟨wasmDst, some stored⟩
      | none => pure ⟨wasmDst, none⟩

/-- `my_strcpy`. -/
def myStrcpy (wasmDst wasmSrc : UInt32) : Intrinsic (Copied .char) :=
  copyIntrinsic sandbox .char wasmDst wasmSrc

/-- `my_wcscpy`. -/
def myWcscpy (wasmDst wasmSrc : UInt32) : Intrinsic (Copied .wchar) :=
  copyIntrinsic sandbox .wchar wasmDst wasmSrc

/-- The common body of `my_strncat` and `my_wcsncat`: both lengths are taken
before gas is consumed. -/
def concatIntrinsic (width : CharWidth) (wasmDst wasmSrc count : UInt32) :
    Intrinsic (Copied width) := do
  match sandbox.pointer wasmSrc, sandbox.pointer wasmDst with
  | some src, some dst =>
      let srcLength ← sandbox.strlen width src
      let srcCount := if srcLength > count.toUInt64 then count.toUInt64 else srcLength
      let dstLength ← sandbox.strlen width dst
      let dstCount := dstLength + 1 + srcCount
      sandbox.consume (sandbox.cost (srcCount * width.size))
      match sandbox.buffer wasmDst (dstCount * width.size) with
      | some dst =>
          let stored ← sandbox.strncat width dst src srcCount
          pure ⟨wasmDst, some stored⟩
      | none => pure ⟨wasmDst, none⟩
  | _, _ => pure ⟨wasmDst, none⟩

/-- `my_strncat`. -/
def myStrncat (wasmDst wasmSrc count : UInt32) : Intrinsic (Copied .char) :=
  concatIntrinsic sandbox .char wasmDst wasmSrc count

/-- `my_wcsncat`. -/
def myWcsncat (wasmDst wasmSrc count : UInt32) : Intrinsic (Copied .wchar) :=
  concatIntrinsic sandbox .wchar wasmDst wasmSrc count

end XProject.Plugin
