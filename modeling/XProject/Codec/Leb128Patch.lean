import XProject.Std.Machine
import XProject.Codec.Leb128RoundTrip

/-!
# Patching a length of fixed width into a memory stream

A writer leaves room for a length it does not know yet and fills it in later with
`WriteFixedU32Leb128At`. A patch inside the buffer replaces its five bytes and
nothing else, and the reader of the general spelling reads the last one back.
-/

namespace XProject.Base

open XProject.Std

namespace MemoryStream

/-- A write inside the vector replaces the bytes of its range. -/
theorem writeDataImpl_inside {dstOffset : Address} {data src : List UInt8}
    (nonempty : src.length ≠ 0) (inside : dstOffset.toNat + src.length ≤ data.length) :
    writeDataImpl dstOffset src ⟨some data⟩ = some (.ok, ⟨some (data.take dstOffset.toNat ++ src ++
      data.drop (dstOffset.toNat + src.length))⟩) := by
  have noGrowth : ¬(dstOffset + UInt64.ofNat src.length).toNat > data.length := by
    rw [UInt64.toNat_add, UInt64.toNat_ofNat']
    omega
  simp only [writeDataImpl, if_neg nonempty, if_neg noGrowth, overwrite, if_pos inside]

end MemoryStream

namespace Leb128

variable {Log : Type}

/-- A stream that differs from one with the contents `data` by patches at `p` only:
its buffer is `data` with the five bytes of `patch` at `p`. -/
structure PatchedFrom (origin : Stream MemoryStream Log) (data : List UInt8) (p : Address)
    (patch : List UInt8) (stream : Stream MemoryStream Log) : Prop where
  inside : p.toNat + 5 ≤ data.length
  width : patch.length = 5
  buf : stream.impl.buf = some (data.take p.toNat ++ patch ++ data.drop (p.toNat + 5))
  offset : stream.offset = origin.offset
  result : stream.result = .ok

variable {origin stream : Stream MemoryStream Log} {data patch : List UInt8} {p : Address}

/-- Nothing is patched yet. -/
theorem PatchedFrom.start (live : origin.result = .ok) (buf : origin.impl.buf = some data)
    (inside : p.toNat + 5 ≤ data.length) :
    PatchedFrom origin data p ((data.drop p.toNat).take 5) origin := by
  refine ⟨inside, ?_, ?_, rfl, live⟩
  · rw [List.length_take, List.length_drop]
    omega
  · rw [buf, List.append_assoc, ← List.drop_drop, List.take_append_drop, List.take_append_drop]

/-- The bytes in front of the patch are those of `data`. -/
theorem PatchedFrom.length_front (patched : PatchedFrom origin data p patch stream) :
    (data.take p.toNat).length = p.toNat := by
  have inside := patched.inside
  rw [List.length_take]
  omega

/-- The patch ends five bytes after its offset. -/
theorem PatchedFrom.length_back (patched : PatchedFrom origin data p patch stream) :
    (data.take p.toNat ++ patch).length = p.toNat + 5 := by
  rw [List.length_append, patched.length_front, patched.width]

/-- What patching leaves alone: the offset, the length of the buffer and every byte
outside the five. -/
theorem PatchedFrom.frame (patched : PatchedFrom origin data p patch stream) :
    stream.offset = origin.offset ∧ ∃ bytes, stream.impl.buf = some bytes ∧
      bytes.length = data.length ∧
      ∀ index, index < p.toNat ∨ p.toNat + 5 ≤ index → bytes[index]? = data[index]? := by
  have inside := patched.inside
  refine ⟨patched.offset, _, patched.buf, ?_, ?_⟩
  · rw [List.length_append, patched.length_back, List.length_drop]
    omega
  · rintro index (before | behind)
    · rw [List.append_assoc, List.getElem?_append_left (by rw [patched.length_front]; exact before),
        List.getElem?_take_of_lt before]
    · rw [List.getElem?_append_right (by rw [patched.length_back]; exact behind),
        patched.length_back, List.getElem?_drop, Nat.add_sub_of_le behind]

/-- The general reader reads the patched value back, whatever follows it. -/
theorem PatchedFrom.read {value : BitVec 32}
    (patched : PatchedFrom origin data p (writeFixedU32Leb128Raw maxU32Leb128Bytes value) stream) :
    ∃ bytes, stream.impl.buf = some bytes ∧ ∀ outValue,
      readU32Leb128 (bytes.drop p.toNat) outValue = (5, value) ∧
      ∀ rest, readU32Leb128 ((bytes.drop p.toNat).take 5 ++ rest) outValue = (5, value) := by
  have five := length_fixed value
  have reads : ∀ rest outValue, readU32Leb128
      (writeFixedU32Leb128Raw maxU32Leb128Bytes value ++ rest) outValue = (5, value) := by
    intro rest outValue
    have read := readU32Leb128_spelling (fixed_terminated value) five.le (magnitude_fixed value)
      rest outValue
    rwa [five] at read
  refine ⟨_, patched.buf, fun outValue => ?_⟩
  rw [List.append_assoc, List.drop_left' patched.length_front, List.take_left' five]
  exact ⟨reads _ outValue, fun rest => reads rest outValue⟩

variable [LogStream Log]

/-- One patch takes the place of the one before. -/
theorem PatchedFrom.step (patched : PatchedFrom origin data p patch stream) (value : BitVec 32)
    (desc : Desc) :
    ∃ next, writeFixedU32Leb128At p value desc stream = some (5, next) ∧
      PatchedFrom origin data p (writeFixedU32Leb128Raw maxU32Leb128Bytes value) next := by
  have five := length_fixed value
  have inside := patched.inside
  have impl : stream.impl = ⟨some (data.take p.toNat ++ patch ++ data.drop (p.toNat + 5))⟩ :=
    congrArg MemoryStream.mk patched.buf
  have long : (data.take p.toNat ++ patch ++ data.drop (p.toNat + 5)).length = data.length := by
    rw [List.length_append, patched.length_back, List.length_drop]
    omega
  have written : StreamImpl.writeDataImpl p (writeFixedU32Leb128Raw maxU32Leb128Bytes value)
      stream.impl = some (Result.ok, MemoryStream.mk (some (data.take p.toNat ++
        writeFixedU32Leb128Raw maxU32Leb128Bytes value ++ data.drop (p.toNat + 5)))) := by
    rw [impl]
    have replaced := @MemoryStream.writeDataImpl_inside p _
      (writeFixedU32Leb128Raw maxU32Leb128Bytes value) (by omega) (five.symm ▸ long ▸ inside)
    rwa [five, List.append_assoc (data.take p.toNat) patch, List.take_left' patched.length_front,
      ← List.append_assoc, List.drop_left' patched.length_back] at replaced
  have live : stream.result ≠ .error := by
    rw [patched.result]
    decide
  refine ⟨{ stream with
    logStream := stream.logStream.map
      (LogStream.writeMemoryDump (writeFixedU32Leb128Raw maxU32Leb128Bytes value) p .no desc)
    result := .ok
    impl := ⟨some (data.take p.toNat ++ writeFixedU32Leb128Raw maxU32Leb128Bytes value ++
      data.drop (p.toNat + 5))⟩ }, ?_, inside, five, rfl, patched.offset, rfl⟩
  simp only [writeFixedU32Leb128At, Stream.writeDataAt, if_neg live, written, five]
  rfl

/-- One patch after another at one offset: the value and the description of each. -/
@[reducible] def patcher (Log : Type) [LogStream Log] (offset : Address) :
    Machine (BitVec 32 × Desc) UInt64 where
  State := Stream MemoryStream Log
  step stream patch := writeFixedU32Leb128At offset patch.1 patch.2 stream

/-- A sequence of patches, one after the other: each returns 5, and the last one stands. -/
theorem PatchedFrom.run (patched : PatchedFrom origin data p patch stream)
    (first : BitVec 32 × Desc) (patches : List (BitVec 32 × Desc)) :
    ∃ final, (patcher Log p).run stream (first :: patches) =
        some (List.replicate (patches.length + 1) 5, final) ∧
      PatchedFrom origin data p (writeFixedU32Leb128Raw maxU32Leb128Bytes
        ((first :: patches).getLast (by simp)).1) final := by
  induction patches generalizing first stream patch with
  | nil =>
      obtain ⟨next, written, patchedNext⟩ := patched.step first.1 first.2
      exact ⟨next, by simp [Machine.run, written], patchedNext⟩
  | cons second rest ih =>
      obtain ⟨next, written, patchedNext⟩ := patched.step first.1 first.2
      obtain ⟨final, ran, patchedFinal⟩ := ih patchedNext second
      refine ⟨final, ?_, by simpa using patchedFinal⟩
      have step : (patcher Log p).step stream first = some (5, next) := written
      exact Machine.run_cons_eq_some.mpr ⟨5, next, _, step, ran, rfl⟩

/-- Any patches at an offset with five bytes of the buffer behind it return 5 each and
change nothing but these bytes, and the last of the values is read back from there. -/
theorem backpatch_reads {origin : Stream MemoryStream Log} {data : List UInt8} {p : Address}
    (live : origin.result = .ok) (buf : origin.impl.buf = some data)
    (inside : p.toNat + 5 ≤ data.length) {patches : List (BitVec 32 × Desc)}
    (some_ : patches ≠ []) :
    ∃ final, (patcher Log p).run origin patches =
        some (List.replicate patches.length 5, final) ∧
      (∀ stream ∈ (patcher Log p).states origin patches,
        stream.offset = origin.offset ∧ ∃ bytes, stream.impl.buf = some bytes ∧
          bytes.length = data.length ∧
          ∀ index, index < p.toNat ∨ p.toNat + 5 ≤ index → bytes[index]? = data[index]?) ∧
      ∃ bytes, final.impl.buf = some bytes ∧ ∀ outValue,
        readU32Leb128 (bytes.drop p.toNat) outValue = (5, (patches.getLast some_).1) ∧
        ∀ rest, readU32Leb128 ((bytes.drop p.toNat).take 5 ++ rest) outValue =
          (5, (patches.getLast some_).1) := by
  have start := PatchedFrom.start live buf inside
  obtain ⟨first, rest, rfl⟩ := List.exists_cons_of_ne_nil some_
  obtain ⟨final, ran, patchedFinal⟩ := start.run first rest
  refine ⟨final, ran, ?_, patchedFinal.read⟩
  intro stream visited
  have patched : ∃ patch, PatchedFrom origin data p patch stream := by
    refine @Machine.states_forall _ _ (patcher Log p)
      (fun state => ∃ patch, PatchedFrom origin data p patch state) ?_ _ ⟨_, start⟩ _ _ visited
    rintro state ⟨value, desc⟩ output next ⟨patch, held⟩ taken
    obtain ⟨next', written, patchedNext⟩ := held.step value desc
    cases taken.symm.trans written
    exact ⟨_, patchedNext⟩
  obtain ⟨patch, held⟩ := patched
  exact held.frame

/-- Two patches of a length in the middle of a seven-byte buffer. -/
theorem backpatch_reads_two :
    let origin : Stream MemoryStream Empty := ⟨7, .ok, none, ⟨some [1, 2, 3, 4, 5, 6, 7]⟩⟩
    ∃ final, (patcher Empty 1).run origin [(300, none), (0xffffffff, none)] =
        some (List.replicate 2 5, final) ∧
      (∀ stream ∈ (patcher Empty 1).states origin [(300, none), (0xffffffff, none)],
        stream.offset = 7 ∧ ∃ bytes, stream.impl.buf = some bytes ∧ bytes.length = 7 ∧
          ∀ index, index < 1 ∨ 6 ≤ index → bytes[index]? = [1, 2, 3, 4, 5, 6, 7][index]?) ∧
      ∃ bytes, final.impl.buf = some bytes ∧ ∀ outValue,
        readU32Leb128 (bytes.drop 1) outValue = (5, 0xffffffff) ∧
        ∀ rest, readU32Leb128 ((bytes.drop 1).take 5 ++ rest) outValue = (5, 0xffffffff) := by
  intro origin
  exact @backpatch_reads Empty _ origin [1, 2, 3, 4, 5, 6, 7] 1 rfl rfl (by decide) _ (by simp)

end Leb128
end XProject.Base
