import XProject.Stream.Calls

/-!
# The ranges a memory stream copies between

`WriteDataImpl` and `MoveDataImpl` grow the vector to the end of a range computed
modulo `2 ^ 64`, then copy from and to the offsets as they are. A range whose end
wraps is not covered by the growth, so it lies outside the vector, unless the vector
was to grow beyond its `max_size` and `resize` throws before the copy.
-/

namespace XProject.Base.MemoryStream

/-- A vector's size is at most its `max_size`. -/
def Sized (memory : MemoryStream) : Prop :=
  ∀ data, memory.buf = some data → data.length ≤ maxSize

/-- One `memcpy` or `memmove`: the size of the vector when it runs, and the ranges
of `size` bytes it accesses there, by their offsets. -/
structure Transfer where
  length : Nat
  starts : List Nat
  size : Nat

/-- Every range lies inside the vector. -/
def Transfer.Inside (transfer : Transfer) : Prop :=
  ∀ start ∈ transfer.starts, start + transfer.size ≤ transfer.length

/-- The size after the growth decision for a computed end, absent when `resize` throws. -/
def grownLength (end_ : Address) (data : List UInt8) : Option Nat :=
  if end_.toNat > data.length then
    if end_.toNat ≤ maxSize then some end_.toNat else none
  else some data.length

/-- The `memcpy` of `WriteDataImpl`, where it is reached: not for an empty write, nor with a
null buffer, whose size is asked for before, nor behind a `resize` that throws. -/
def writeTransfer (dstOffset size : Address) (memory : MemoryStream) : Option Transfer :=
  if size = 0 then none
  else do
    let data ← memory.buf
    let length ← grownLength (dstOffset + size) data
    some ⟨length, [dstOffset.toNat], size.toNat⟩

/-- The `memmove` of `MoveDataImpl`, where it is reached. -/
def moveTransfer (dstOffset srcOffset size : Address) (memory : MemoryStream) : Option Transfer :=
  if size = 0 then none
  else do
    let data ← memory.buf
    let srcEnd := srcOffset + size
    let dstEnd := dstOffset + size
    let length ← grownLength (if srcEnd > dstEnd then srcEnd else dstEnd) data
    some ⟨length, [dstOffset.toNat, srcOffset.toNat], size.toNat⟩

/-- Wherever the copy is reached, its ranges lie inside the vector. -/
def StaysInside (reached : Option Transfer) : Prop :=
  ∀ transfer, reached = some transfer → transfer.Inside

/-- What the two have in common: a copy between some ranges, after the growth for an end. -/
def transferTo (end_ : Address) (starts : List Address) (size : Address)
    (memory : MemoryStream) : Option Transfer :=
  if size = 0 then none
  else do
    let data ← memory.buf
    let length ← grownLength end_ data
    some ⟨length, starts.map UInt64.toNat, size.toNat⟩

theorem inside_map_iff {length size : Nat} {starts : List Address} :
    Transfer.Inside ⟨length, starts.map UInt64.toNat, size⟩ ↔
      ∀ start ∈ starts, start.toNat + size ≤ length :=
  List.forall_mem_map

theorem writeTransfer_eq (dstOffset size : Address) (memory : MemoryStream) :
    writeTransfer dstOffset size memory =
      transferTo (dstOffset + size) [dstOffset] size memory := rfl

theorem moveTransfer_eq (dstOffset srcOffset size : Address) (memory : MemoryStream) :
    moveTransfer dstOffset srcOffset size memory =
      transferTo (if srcOffset + size > dstOffset + size then srcOffset + size
        else dstOffset + size) [dstOffset, srcOffset] size memory := rfl

/-- A growth that does not throw leaves the vector as long as that. -/
theorem length_grown {end_ : Address} {data : List UInt8} {length : Nat}
    (grows : grownLength end_ data = some length) :
    (if end_.toNat > data.length then resize data end_.toNat else data).length = length := by
  unfold grownLength at grows
  split at grows
  · rename_i longer
    rw [Option.ite_none_right_eq_some] at grows
    rw [if_pos longer, resize, List.length_append, List.length_replicate, ← Option.some.inj grows.2]
    omega
  · rename_i enough
    rw [if_neg enough]
    exact Option.some.inj grows

/-! ## Where the copy is reached -/

section Reached

variable {dstOffset srcOffset size : Address} {memory : MemoryStream} {transfer : Transfer}

theorem transferTo_eq_some {end_ : Address} {starts : List Address} :
    transferTo end_ starts size memory = some transfer ↔
      size ≠ 0 ∧ ∃ data length, memory.buf = some data ∧ grownLength end_ data = some length ∧
        ⟨length, starts.map UInt64.toNat, size.toNat⟩ = transfer := by
  simp only [transferTo, Option.ite_none_left_eq_some, Option.bind_eq_bind,
    Option.bind_eq_some_iff, Option.some.injEq, exists_and_left]

/-- A write whose copy is reached has a result exactly when that stays inside. -/
theorem writeDataImpl_defined_iff (chunk : Chunk)
    (reached : writeTransfer dstOffset (UInt64.ofNat chunk.src.length) memory = some transfer) :
    (writeDataImpl dstOffset chunk.src memory).isSome = true ↔ transfer.Inside := by
  rw [writeTransfer_eq] at reached
  obtain ⟨some_, data, length, buf, grows, rfl⟩ := transferTo_eq_some.mp reached
  have bytes : (UInt64.ofNat chunk.src.length).toNat = chunk.src.length := by
    rw [UInt64.toNat_ofNat', Nat.mod_eq_of_lt chunk.fits]
  have positive : chunk.src.length ≠ 0 := by
    intro zero
    rw [zero] at some_
    exact some_ rfl
  simp only [writeDataImpl, if_neg positive, buf, overwrite, length_grown grows, inside_map_iff,
    List.forall_mem_singleton, bytes]
  by_cases inside : dstOffset.toNat + chunk.src.length ≤ length
  · simp [inside]
  · simp [inside]

/-- A move whose copy is reached has a result exactly when that stays inside. -/
theorem moveDataImpl_defined_iff
    (reached : moveTransfer dstOffset srcOffset size memory = some transfer) :
    (moveDataImpl dstOffset srcOffset size memory).isSome = true ↔ transfer.Inside := by
  rw [moveTransfer_eq] at reached
  obtain ⟨some_, data, length, buf, grows, rfl⟩ := transferTo_eq_some.mp reached
  have grown := length_grown grows
  simp only [moveDataImpl, if_neg some_, buf, moveWithin, inside_map_iff, List.forall_mem_cons,
    List.not_mem_nil, false_imp_iff, implies_true, and_true]
  generalize (if _ > data.length then resize data _ else data) = bytes at grown ⊢
  rw [← grown]
  by_cases readable : srcOffset.toNat + size.toNat ≤ bytes.length
  · have moved : ((bytes.drop srcOffset.toNat).take size.toNat).length = size.toNat := by
      rw [List.length_take, List.length_drop]
      omega
    by_cases writable : dstOffset.toNat + size.toNat ≤ bytes.length
    · simp [readable, writable, overwrite, moved]
    · simp [readable, writable, overwrite, moved]
  · simp [readable]

end Reached

/-! ## Where its ranges lie -/

section Covered

variable {start size : Address} {data : List UInt8}

/-- No vector grows beyond `max_size`. -/
theorem grownLength_le {end_ : Address} (sized : data.length ≤ maxSize) {length : Nat}
    (grows : grownLength end_ data = some length) : length ≤ maxSize := by
  unfold grownLength at grows
  split at grows
  · rw [Option.ite_none_right_eq_some] at grows
    exact Option.some.inj grows.2 ▸ grows.1
  · exact Option.some.inj grows ▸ sized

/-- The growth throws exactly for an end beyond `max_size`. -/
theorem grownLength_eq_none_iff {end_ : Address} (sized : data.length ≤ maxSize) :
    grownLength end_ data = none ↔ maxSize < end_.toNat := by
  unfold grownLength
  split
  · rw [ite_eq_right_iff]
    simp only [reduceCtorEq, imp_false, Nat.not_le]
  · exact iff_of_false (Option.some_ne_none _) (by omega)

/-- A range whose end does not wrap is covered by a growth to that end or a later one. -/
theorem covered_of_noWrap (noWrap : start.toNat + size.toNat < 2 ^ 64) {end_ : Address}
    (later : (start + size).toNat ≤ end_.toNat) {length : Nat}
    (grows : grownLength end_ data = some length) : start.toNat + size.toNat ≤ length := by
  have sum : (start + size).toNat = start.toNat + size.toNat := by
    rw [UInt64.toNat_add, Nat.mod_eq_of_lt noWrap]
  unfold grownLength at grows
  split at grows
  · rw [Option.ite_none_right_eq_some] at grows
    have grown := Option.some.inj grows.2
    omega
  · have kept := Option.some.inj grows
    omega

/-- A range whose end wraps is covered by no growth. -/
theorem noWrap_of_covered {length : Nat} (most : length ≤ maxSize)
    (covered : start.toNat + size.toNat ≤ length) : start.toNat + size.toNat < 2 ^ 64 := by
  unfold maxSize at most
  omega

/-- The end a move grows to is the later one of its two ranges. -/
theorem le_later (first second : Address) :
    second.toNat ≤ (if first > second then first else second).toNat ∧
      first.toNat ≤ (if first > second then first else second).toNat := by
  by_cases later : first > second
  · have order := UInt64.lt_iff_toNat_lt.mp later
    rw [if_pos later]
    omega
  · have order := UInt64.lt_iff_toNat_lt.not.mp later
    rw [if_neg later]
    omega

theorem lt_later_iff (first second : Address) (bound : Nat) :
    bound < (if first > second then first else second).toNat ↔
      bound < second.toNat ∨ bound < first.toNat := by
  have later := le_later first second
  constructor
  · intro beyond
    split at beyond
    · exact .inr beyond
    · exact .inl beyond
  · omega

end Covered

/-- A copy after the growth for an end no range goes beyond stays inside the vector exactly
when there is none, the growth throws, or no range's own end wraps. -/
theorem transferTo_inside_iff {memory : MemoryStream} (sized : memory.Sized)
    {end_ size : Address} {starts : List Address}
    (latest : ∀ start ∈ starts, (start + size).toNat ≤ end_.toNat) :
    StaysInside (transferTo end_ starts size memory) ↔
      size = 0 ∨ memory.buf = none ∨ maxSize < end_.toNat ∨
        ∀ start ∈ starts, start.toNat + size.toNat < 2 ^ 64 := by
  by_cases empty : size = 0
  · simp [StaysInside, transferTo, empty]
  · cases buf : memory.buf with
    | none => simp [StaysInside, transferTo, buf]
    | some data =>
        have throws := @grownLength_eq_none_iff data end_ (sized data buf)
        simp only [empty, reduceCtorEq, false_or]
        cases grows : grownLength end_ data with
        | none =>
            refine iff_of_true (fun transfer reached => ?_) (.inl (throws.mp grows))
            simp [transferTo, empty, buf, grows] at reached
        | some length =>
            have inTime : ¬maxSize < end_.toNat :=
              mt throws.mpr (by rw [grows]; exact Option.some_ne_none _)
            have most := grownLength_le (sized data buf) grows
            rw [or_iff_right inTime]
            constructor
            · intro inside start member
              have reached : transferTo end_ starts size memory =
                  some ⟨length, starts.map UInt64.toNat, size.toNat⟩ :=
                transferTo_eq_some.mpr ⟨empty, data, length, buf, grows, rfl⟩
              exact noWrap_of_covered most (inside_map_iff.mp (inside _ reached) start member)
            · intro noWrap transfer reached
              obtain ⟨_, other, grown, isOther, growsTo, rfl⟩ := transferTo_eq_some.mp reached
              refine inside_map_iff.mpr fun start member => ?_
              exact covered_of_noWrap (noWrap start member) (latest start member) growsTo

/-- The copy of a write stays inside the vector exactly when there is none, or the
end of its range does not wrap. -/
theorem writeTransfer_inside_iff {memory : MemoryStream} (sized : memory.Sized)
    (dstOffset size : Address) :
    StaysInside (writeTransfer dstOffset size memory) ↔
      size = 0 ∨ memory.buf = none ∨ maxSize < (dstOffset + size).toNat ∨
        dstOffset.toNat + size.toNat < 2 ^ 64 := by
  have latest : ∀ start ∈ [dstOffset], (start + size).toNat ≤ (dstOffset + size).toNat :=
    List.forall_mem_singleton.mpr (Nat.le_refl _)
  rw [writeTransfer_eq, transferTo_inside_iff sized latest, List.forall_mem_singleton]

/-- The copy of a move stays inside the vector exactly when there is none, or neither
end wraps. -/
theorem moveTransfer_inside_iff {memory : MemoryStream} (sized : memory.Sized)
    (dstOffset srcOffset size : Address) :
    StaysInside (moveTransfer dstOffset srcOffset size memory) ↔
      size = 0 ∨ memory.buf = none ∨
        (maxSize < (dstOffset + size).toNat ∨ maxSize < (srcOffset + size).toNat) ∨
        (dstOffset.toNat + size.toNat < 2 ^ 64 ∧ srcOffset.toNat + size.toNat < 2 ^ 64) := by
  obtain ⟨target, source⟩ := le_later (srcOffset + size) (dstOffset + size)
  have latest : ∀ start ∈ [dstOffset, srcOffset], (start + size).toNat ≤
      (if srcOffset + size > dstOffset + size then srcOffset + size else dstOffset + size).toNat :=
    List.forall_mem_cons.mpr ⟨target, List.forall_mem_singleton.mpr source⟩
  rw [moveTransfer_eq, transferTo_inside_iff sized latest, lt_later_iff, List.forall_mem_cons,
    List.forall_mem_singleton]

/-- A call of `WriteDataImpl` or `MoveDataImpl`. -/
inductive Copy where
  | write (dstOffset : Address) (chunk : Chunk)
  | move (dstOffset srcOffset size : Address)

namespace Copy

/-- The `memcpy` or `memmove` of the call, where it is reached. -/
def reached (memory : MemoryStream) : Copy → Option Transfer
  | .write dstOffset chunk => writeTransfer dstOffset (UInt64.ofNat chunk.src.length) memory
  | .move dstOffset srcOffset size => moveTransfer dstOffset srcOffset size memory

/-- The call itself. -/
def perform (memory : MemoryStream) : Copy → Option (Result × MemoryStream)
  | .write dstOffset chunk => writeDataImpl dstOffset chunk.src memory
  | .move dstOffset srcOffset size => moveDataImpl dstOffset srcOffset size memory

/-- Nothing is copied, the vector was to grow beyond its `max_size`, or no range ends beyond
`SIZE_MAX`. -/
def Fits (memory : MemoryStream) : Copy → Prop
  | .write dstOffset chunk =>
      let size := UInt64.ofNat chunk.src.length
      size = 0 ∨ memory.buf = none ∨ maxSize < (dstOffset + size).toNat ∨
        dstOffset.toNat + size.toNat < 2 ^ 64
  | .move dstOffset srcOffset size =>
      size = 0 ∨ memory.buf = none ∨
        (maxSize < (dstOffset + size).toNat ∨ maxSize < (srcOffset + size).toNat) ∨
        (dstOffset.toNat + size.toNat < 2 ^ 64 ∧ srcOffset.toNat + size.toNat < 2 ^ 64)

/-- Whatever the buffer and the arguments are, the ranges copied between lie inside the
buffer exactly when they fit; and where a copy is reached, the call has a result exactly
when its ranges lie inside. -/
theorem copy_inside_iff {memory : MemoryStream} (sized : memory.Sized) (copy : Copy) :
    (StaysInside (copy.reached memory) ↔ copy.Fits memory) ∧
      ∀ transfer, copy.reached memory = some transfer →
        ((copy.perform memory).isSome = true ↔ transfer.Inside) := by
  cases copy with
  | write dstOffset chunk =>
      exact ⟨writeTransfer_inside_iff sized dstOffset _,
        fun _ reached => writeDataImpl_defined_iff chunk reached⟩
  | move dstOffset srcOffset size =>
      exact ⟨moveTransfer_inside_iff sized dstOffset srcOffset size,
        fun _ reached => moveDataImpl_defined_iff reached⟩

/-- A move to the end of a buffer of four bytes. -/
theorem copy_inside_iff_move :
    (StaysInside ((Copy.move 4 0 4).reached ⟨some [1, 2, 3, 4]⟩) ↔
      (Copy.move 4 0 4).Fits ⟨some [1, 2, 3, 4]⟩) ∧
      (((Copy.move 4 0 4).perform ⟨some [1, 2, 3, 4]⟩).isSome = true ↔
        Transfer.Inside ⟨8, [4, 0], 4⟩) := by
  have sized : Sized ⟨some [1, 2, 3, 4]⟩ := by
    rintro data ⟨rfl⟩
    decide
  have whole := copy_inside_iff sized (.move 4 0 4)
  exact ⟨whole.1, whole.2 _ rfl⟩

/-- Two bytes written at `kInvalidOffset`, or moved from there, into an empty buffer:
it grows to one byte, or to two, and the range starts at `2 ^ 64 - 1`. -/
theorem invalid_offset_copies_outside :
    ¬ StaysInside ((Copy.write 0xffffffffffffffff ⟨[1, 2], none, .no, by decide⟩).reached
      ⟨some []⟩) ∧
    ¬ StaysInside ((Copy.move 0 0xffffffffffffffff 2).reached ⟨some []⟩) := by
  constructor
  · intro inside
    exact absurd (inside _ rfl _ List.mem_cons_self) (by decide)
  · intro inside
    exact absurd (inside _ rfl _ (List.mem_cons_of_mem _ List.mem_cons_self)) (by decide)

end Copy
end XProject.Base.MemoryStream
