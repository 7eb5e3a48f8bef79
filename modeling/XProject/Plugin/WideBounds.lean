import XProject.Plugin.LibcModule

/-!
# Where the sized wide-character intrinsics stay inside linear memory

The checked size is the product `4 * count` reduced to 32 bits, while the host
routine works on `count` wide characters. The two agree below `2 ^ 30`
characters; from there on the check says nothing about what the host touches.
-/

namespace XProject.Plugin

/-- A guest's call of one of the intrinsics. -/
inductive Request where
  | wmemcpy (wasmDst wasmSrc count : UInt32)
  | wmemset (wasmDst val count : UInt32)
  | wmemcmp (wasmVl wasmVr count : UInt32)
  | wmemmove (wasmDst wasmSrc count : UInt32)
  | wcsncpy (wasmDst wasmSrc count : UInt32)

namespace Request

/-- The host call a request asks for. -/
def call : Request → HostCall
  | .wmemcpy wasmDst wasmSrc count => .wmemcpy wasmDst wasmSrc count
  | .wmemset wasmDst val count => .wmemset wasmDst val.toInt32 count
  | .wmemcmp wasmVl wasmVr count => .wmemcmp wasmVl wasmVr count
  | .wmemmove wasmDst wasmSrc count => .wmemmove wasmDst wasmSrc count
  | .wcsncpy wasmDst wasmSrc count => .wcsncpy wasmDst wasmSrc count

/-- The operands that are only checked for a valid start. -/
def starts : Request → List UInt32
  | .wcsncpy _ wasmSrc _ => [wasmSrc]
  | _ => []

/-- The host call the intrinsic makes, if any. -/
def hostCall (sandbox : Sandbox) : Request → Option HostCall
  | .wmemcpy wasmDst wasmSrc count => (myWmemcpy sandbox wasmDst wasmSrc count).hostCall
  | .wmemset wasmDst val count => (myWmemset sandbox wasmDst val count).hostCall
  | .wmemcmp wasmVl wasmVr count => (myWmemcmp sandbox wasmVl wasmVr count).hostCall
  | .wmemmove wasmDst wasmSrc count => (myWmemmove sandbox wasmDst wasmSrc count).hostCall
  | .wcsncpy wasmDst wasmSrc count => (myWcsncpy sandbox wasmDst wasmSrc count).hostCall

/-- Whatever the host may touch by count lies inside linear memory. -/
def Contained (sandbox : Sandbox) (request : Request) : Prop :=
  ∀ made ∈ request.hostCall sandbox, ∀ offset ∈ made.buffers,
    offset.toNat + 4 * made.count.toNat ≤ sandbox.memorySize

/-- The gas, a start or the reduced size of an operand is refused. -/
def Refused (sandbox : Sandbox) (request : Request) : Prop :=
  sandbox.gasConsume (sandbox.cost (wideSize request.call.count)) = false ∨
    (∃ offset ∈ request.starts, sandbox.pointerCast offset = false) ∨
    ∃ offset ∈ request.call.buffers,
      sandbox.memorySize < offset.toNat + 4 * request.call.count.toNat % 2 ^ 32

/-- Linear memory has at least 4 GiB, and every operand has room for `count` wide characters. -/
def Roomy (sandbox : Sandbox) (request : Request) : Prop :=
  2 ^ 32 ≤ sandbox.memorySize ∧ ∀ offset ∈ request.call.buffers,
    offset.toNat + 4 * request.call.count.toNat ≤ sandbox.memorySize

/-- Decided by going through the operands of the call made. -/
instance (sandbox : Sandbox) (request : Request) : Decidable (request.Contained sandbox) :=
  let fits (made : HostCall) (offset : UInt32) : Prop :=
    offset.toNat + 4 * made.count.toNat ≤ sandbox.memorySize
  let each (made : HostCall) : Decidable (∀ offset ∈ made.buffers, fits made offset) :=
    @List.decidableBAll _ (fits made) (fun _ => Nat.decLe _ _) made.buffers
  @Option.decidableForallMem _ _ each (request.hostCall sandbox)

end Request

/-- The checked size is `4 * count` modulo `2 ^ 32`. -/
theorem toNat_wideSize (count : UInt32) :
    (wideSize count).toNat = 4 * count.toNat % 2 ^ 32 := by
  rw [wideSize, UInt32.toNat_toUInt64, UInt32.toNat_mul, Nat.mul_comm]
  rfl

/-- An intrinsic calls the host exactly when the gas and the pointers allow it. -/
theorem wideIntrinsic_hostCall {Result : Type} (sandbox : Sandbox) (count : UInt32)
    (pointers : UInt64 → Bool) (refusal : Result) (call : HostCall) (result : Result) :
    (wideIntrinsic sandbox count pointers refusal call result).hostCall =
      if sandbox.gasConsume (sandbox.cost (wideSize count)) = true ∧
        pointers (wideSize count) = true then some call else none := by
  unfold wideIntrinsic
  by_cases paid : sandbox.gasConsume (sandbox.cost (wideSize count)) = true
  · by_cases valid : pointers (wideSize count) = true
    · simp [paid, valid, Outcome.hostCall]
    · simp [paid, valid, Outcome.hostCall]
  · simp [paid, Outcome.hostCall]

namespace Request

variable (sandbox : Sandbox) (request : Request)

/-- The pointers of a request are valid for a size. -/
def pointers (size : UInt64) : Bool :=
  request.starts.all sandbox.pointerCast &&
    request.call.buffers.all fun offset => sandbox.bufferCast offset size

/-- All five intrinsics make their call under the same condition. -/
theorem hostCall_eq :
    request.hostCall sandbox =
      if sandbox.gasConsume (sandbox.cost (wideSize request.call.count)) = true ∧
        request.pointers sandbox (wideSize request.call.count) = true
      then some request.call else none := by
  cases request with
  | wmemcpy wasmDst wasmSrc count =>
      rw [hostCall, myWmemcpy, wideIntrinsic_hostCall]
      simp [pointers, starts, call, HostCall.buffers, HostCall.count]
  | wmemset wasmDst val count =>
      rw [hostCall, myWmemset, wideIntrinsic_hostCall]
      simp [pointers, starts, call, HostCall.buffers, HostCall.count]
  | wmemcmp wasmVl wasmVr count =>
      rw [hostCall, myWmemcmp, wideIntrinsic_hostCall]
      simp [pointers, starts, call, HostCall.buffers, HostCall.count]
  | wmemmove wasmDst wasmSrc count =>
      rw [hostCall, myWmemmove, wideIntrinsic_hostCall]
      simp [pointers, starts, call, HostCall.buffers, HostCall.count]
  | wcsncpy wasmDst wasmSrc count =>
      rw [hostCall, myWcsncpy, wideIntrinsic_hostCall]
      simp [pointers, starts, call, HostCall.buffers, HostCall.count]

/-- The pointers are valid when no start and no reduced size is refused. -/
theorem pointers_iff :
    request.pointers sandbox (wideSize request.call.count) = true ↔
      (∀ offset ∈ request.starts, sandbox.pointerCast offset = true) ∧
        ∀ offset ∈ request.call.buffers,
          offset.toNat + 4 * request.call.count.toNat % 2 ^ 32 ≤ sandbox.memorySize := by
  simp only [pointers, Bool.and_eq_true, List.all_eq_true, sandbox.bufferCast_iff, toNat_wideSize]

/-- A request reaches the host exactly when nothing refuses it. -/
theorem mem_hostCall_iff (made : HostCall) :
    made ∈ request.hostCall sandbox ↔ ¬request.Refused sandbox ∧ made = request.call := by
  have accepted : (sandbox.gasConsume (sandbox.cost (wideSize request.call.count)) = true ∧
      request.pointers sandbox (wideSize request.call.count) = true) ↔
      ¬request.Refused sandbox := by
    simp only [pointers_iff, Refused, not_or, not_exists, not_and, Bool.not_eq_false, Nat.not_lt]
  rw [hostCall_eq, Option.mem_def, ← accepted]
  split
  · rename_i calls
    simp [calls, eq_comm]
  · rename_i stays
    simp [stays]

/-- Below `2 ^ 30` wide characters the reduced size is the size itself. -/
theorem contained_of_small (small : request.call.count.toNat < 2 ^ 30) :
    request.Contained sandbox := by
  intro made member offset operand
  obtain ⟨accepted, rfl⟩ := (mem_hostCall_iff sandbox request made).mp member
  by_contra outside
  refine accepted (.inr (.inr ⟨offset, operand, ?_⟩))
  omega

theorem exists_buffer : ∃ offset, offset ∈ request.call.buffers := by
  cases request with
  | wmemcpy wasmDst _ _ => exact ⟨wasmDst, List.mem_cons_self⟩
  | wmemset wasmDst _ _ => exact ⟨wasmDst, List.mem_cons_self⟩
  | wmemcmp wasmVl _ _ => exact ⟨wasmVl, List.mem_cons_self⟩
  | wmemmove wasmDst _ _ => exact ⟨wasmDst, List.mem_cons_self⟩
  | wcsncpy wasmDst _ _ => exact ⟨wasmDst, List.mem_cons_self⟩

/-- From `2 ^ 30` wide characters on, only a memory of 4 GiB has room for them. -/
theorem roomy_of_contained (large : 2 ^ 30 ≤ request.call.count.toNat)
    (accepted : ¬request.Refused sandbox) (contained : request.Contained sandbox) :
    request.Roomy sandbox := by
  have made := (mem_hostCall_iff sandbox request request.call).mpr ⟨accepted, rfl⟩
  obtain ⟨offset, operand⟩ := exists_buffer request
  have room := contained request.call made offset operand
  exact ⟨by omega, contained request.call made⟩

/-- An intrinsic keeps the host inside linear memory exactly when the count is
below `2 ^ 30`, when the request is refused, or when the memory has at least 4 GiB and
room for the whole count at every operand. -/
theorem contained_iff :
    request.Contained sandbox ↔
      request.call.count.toNat < 2 ^ 30 ∨ request.Refused sandbox ∨ request.Roomy sandbox := by
  constructor
  · intro contained
    rcases Nat.lt_or_ge request.call.count.toNat (2 ^ 30) with small | large
    · exact .inl small
    · by_cases refused : request.Refused sandbox
      · exact .inr (.inl refused)
      · exact .inr (.inr (roomy_of_contained sandbox request large refused contained))
  · rintro (small | refused | roomy)
    · exact contained_of_small sandbox request small
    · intro made member
      exact absurd refused ((mem_hostCall_iff sandbox request made).mp member).1
    · intro made member
      obtain ⟨_, rfl⟩ := (mem_hostCall_iff sandbox request made).mp member
      exact roomy.2

/-- Two to the thirty wide characters are checked as zero bytes: each of the
five intrinsics hands them to the host on a memory of one page. -/
theorem page_escaped :
    ¬Contained (.ofSize 65536 100) (.wmemcpy 0 0 0x40000000) ∧
      ¬Contained (.ofSize 65536 100) (.wmemset 0 7 0x40000000) ∧
      ¬Contained (.ofSize 65536 100) (.wmemcmp 0 0 0x40000000) ∧
      ¬Contained (.ofSize 65536 100) (.wmemmove 0 0 0x40000000) ∧
      ¬Contained (.ofSize 65536 100) (.wcsncpy 0 0 0x40000000) := by
  decide

end Request
end XProject.Plugin
