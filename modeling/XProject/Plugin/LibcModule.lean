import Mathlib.Data.UInt

/-!
# The sized wide-character intrinsics of `libc-module.cc`

An intrinsic consumes gas for the bytes it is asked for, casts its guest offsets
to host pointers and hands them with the guest's count to the host routine. The
macros for gas and for the casts are not part of the repository; a `Sandbox`
carries them with what the intrinsics rely on.
-/

namespace XProject.Plugin

/-- The environment of an intrinsic: one linear memory, the remaining gas and the
macros over them. A cast is recorded by whether its pointer is non-null. -/
structure Sandbox where
  memorySize : Nat
  /-- `X_STATIC_BUFFER_CAST`. -/
  bufferCast : (offset : UInt32) → (size : UInt64) → Bool
  bufferCast_iff : ∀ offset size,
    bufferCast offset size = true ↔ offset.toNat + size.toNat ≤ memorySize
  /-- `X_STATIC_POINTER_CAST`. -/
  pointerCast : (offset : UInt32) → Bool
  gas : Nat
  /-- `INTRINSIC_CALL_COST`. -/
  intrinsicCallCost : UInt64
  /-- `GAS_COST_MEMORY_MODULUS`. -/
  gasCostMemoryModulus : UInt64
  /-- `GAS_CONSUME`: whether the call goes on. -/
  gasConsume : (cost : UInt64) → Bool
  gasConsume_of_enough : ∀ cost, cost.toNat ≤ gas → gasConsume cost = true
  /-- The result of the host's `wmemcmp` on the current memory. -/
  wmemcmp : (lhs rhs count : UInt32) → Int32

/-- A sandbox in which gas is a plain budget and a pointer is valid inside the memory. -/
def Sandbox.ofSize (memorySize gas : Nat) : Sandbox where
  memorySize := memorySize
  bufferCast offset size := offset.toNat + size.toNat ≤ memorySize
  bufferCast_iff _ _ := decide_eq_true_iff
  pointerCast offset := offset.toNat < memorySize
  gas := gas
  intrinsicCallCost := 1
  gasCostMemoryModulus := 1
  gasConsume cost := cost.toNat ≤ gas
  gasConsume_of_enough _ := decide_eq_true
  wmemcmp _ _ _ := 0

/-- A call of a host wide-character routine; operands are offsets in linear memory. -/
inductive HostCall where
  | wmemcpy (dst src count : UInt32)
  | wmemset (dst : UInt32) (val : Int32) (count : UInt32)
  | wmemcmp (lhs rhs count : UInt32)
  | wmemmove (dst src count : UInt32)
  | wcsncpy (dst src count : UInt32)
deriving DecidableEq

namespace HostCall

/-- The number of wide characters passed to the host. -/
def count : HostCall → UInt32
  | .wmemcpy _ _ count | .wmemset _ _ count | .wmemcmp _ _ count | .wmemmove _ _ count
  | .wcsncpy _ _ count => count

/-- The operands the host may touch by count; `wcsncpy` reads its source only up
to the terminator. -/
def buffers : HostCall → List UInt32
  | .wmemcpy dst src _ => [dst, src]
  | .wmemset dst _ _ => [dst]
  | .wmemcmp lhs rhs _ => [lhs, rhs]
  | .wmemmove dst src _ => [dst, src]
  | .wcsncpy dst _ _ => [dst]

end HostCall

/-- How an intrinsic ends. -/
inductive Outcome (Result : Type) where
  | stopped
  | refused (result : Result)
  | hosted (call : HostCall) (result : Result)

/-- The host call made, if any. -/
def Outcome.hostCall {Result : Type} : Outcome Result → Option HostCall
  | .stopped | .refused _ => none
  | .hosted call _ => some call

/-- `WCHAR_SIZE`. -/
def wcharSize : UInt32 := 4

/-- `size_t size = count * WCHAR_SIZE`: the product is taken at the type of
`count` and widened afterwards. -/
def wideSize (count : UInt32) : UInt64 := (count * wcharSize).toUInt64

/-- `INTRINSIC_CALL_COST + GAS_COST_MEMORY_MODULUS * size`. -/
def Sandbox.cost (sandbox : Sandbox) (size : UInt64) : UInt64 :=
  sandbox.intrinsicCallCost + sandbox.gasCostMemoryModulus * size

/-- The common body of the sized wide-character intrinsics: consume gas, test
the pointers cast for the computed size, call the host. -/
def wideIntrinsic {Result : Type} (sandbox : Sandbox) (count : UInt32)
    (pointers : UInt64 → Bool) (refusal : Result) (call : HostCall) (result : Result) :
    Outcome Result :=
  let size := wideSize count
  if sandbox.gasConsume (sandbox.cost size) then
    if pointers size then .hosted call result else .refused refusal
  else .stopped

/-- `my_wmemcpy`. -/
def myWmemcpy (sandbox : Sandbox) (wasmDst wasmSrc count : UInt32) : Outcome UInt32 :=
  wideIntrinsic sandbox count
    (fun size => sandbox.bufferCast wasmDst size && sandbox.bufferCast wasmSrc size)
    wasmDst (.wmemcpy wasmDst wasmSrc count) wasmDst

/-- `my_wmemset`. -/
def myWmemset (sandbox : Sandbox) (wasmDst val count : UInt32) : Outcome UInt32 :=
  wideIntrinsic sandbox count (fun size => sandbox.bufferCast wasmDst size)
    wasmDst (.wmemset wasmDst val.toInt32 count) wasmDst

/-- `my_wmemcmp`. -/
def myWmemcmp (sandbox : Sandbox) (wasmVl wasmVr count : UInt32) : Outcome Int32 :=
  wideIntrinsic sandbox count
    (fun size => sandbox.bufferCast wasmVl size && sandbox.bufferCast wasmVr size)
    (-1) (.wmemcmp wasmVl wasmVr count) (sandbox.wmemcmp wasmVl wasmVr count)

/-- `my_wmemmove`. -/
def myWmemmove (sandbox : Sandbox) (wasmDst wasmSrc count : UInt32) : Outcome UInt32 :=
  wideIntrinsic sandbox count
    (fun size => sandbox.bufferCast wasmDst size && sandbox.bufferCast wasmSrc size)
    wasmDst (.wmemmove wasmDst wasmSrc count) wasmDst

/-- `my_wcsncpy`: the source only needs a valid start. -/
def myWcsncpy (sandbox : Sandbox) (wasmDst wasmSrc count : UInt32) : Outcome UInt32 :=
  wideIntrinsic sandbox count
    (fun size => sandbox.pointerCast wasmSrc && sandbox.bufferCast wasmDst size)
    wasmDst (.wcsncpy wasmDst wasmSrc count) wasmDst

end XProject.Plugin
