import XProject.Stream.Emitted

/-!
# Writing into a byte buffer

A stream over a buffer with enough room receives exactly the bytes of a value,
in order, and reports no error.
-/

namespace XProject.Base

/-! ## Loads and stores -/

/-- What was stored is loaded. -/
theorem load_store (memory : Memory) (address : Address) (bytes : List UInt8)
    (fits : bytes.length ≤ 2 ^ 64) :
    load (store memory address bytes) address bytes.length = bytes := by
  apply List.ext_getElem
  · simp
  · intro index inside _
    rw [length_load] at inside
    have offset : (address + UInt64.ofNat index - address).toNat = index := by
      rw [UInt64.toNat_sub, UInt64.toNat_add, UInt64.toNat_ofNat']
      have bound := address.toNat_lt
      omega
    simp only [load, List.getElem_map, List.getElem_range, store, offset]
    simp [inside]

/-- A store behind a range leaves the range alone. -/
theorem load_store_before (memory : Memory) (address : Address) (count : Nat) (bytes : List UInt8)
    (fits : count + bytes.length ≤ 2 ^ 64) :
    load (store memory (address + UInt64.ofNat count) bytes) address count =
      load memory address count := by
  apply List.map_congr_left
  intro index member
  have inside := List.mem_range.mp member
  have offset : (address + UInt64.ofNat index - (address + UInt64.ofNat count)).toNat =
      2 ^ 64 - count + index := by
    rw [UInt64.toNat_sub, UInt64.toNat_add, UInt64.toNat_add, UInt64.toNat_ofNat',
      UInt64.toNat_ofNat']
    have bound := address.toNat_lt
    omega
  have beyond : bytes.length ≤ 2 ^ 64 - count + index := by omega
  simp only [store, offset, List.getElem?_eq_none beyond, Option.getD_none]

/-! ## A buffer-backed stream -/

namespace Output

/-- From the stream `base` on, exactly `written` was written. -/
structure Wrote (base : DataStream) (output : Output) (written : List UInt8) : Prop where
  stream : output.stream = { base with pos := base.pos + UInt64.ofNat written.length }
  contents : load output.memory base.pos written.length = written

/-- A `write` that fits the remaining buffer is performed. The difference of two
pointers into one object is below `2 ^ 63`. -/
theorem Wrote.write {base : DataStream} {output : Output} {written bytes : List UInt8}
    (wrote : Wrote base output written) (object : base.available < 2 ^ 63)
    (fits : (written ++ bytes).length ≤ base.available)
    (inside : base.pos.toNat ≤ base.end_.toNat) :
    Wrote base (Sink.write bytes output) (written ++ bytes) := by
  rw [List.length_append] at fits
  obtain ⟨stream, contents⟩ := wrote
  have bound := base.end_.toNat_lt
  have left : output.stream.pos.toNat ≤ output.stream.end_.toNat ∧
      output.stream.available = base.available - written.length := by
    rw [DataStream.available] at fits
    simp only [stream, DataStream.available, UInt64.toNat_add, UInt64.toNat_ofNat']
    omega
  have enough := DataStream.write_check_of_fits left.1 (by omega)
    (show bytes.length ≤ output.stream.available by omega)
  rw [stream] at enough
  have performed : (Sink.write bytes output : Output) =
      ⟨store output.memory (base.pos + UInt64.ofNat written.length) bytes,
        { base with
          pos := base.pos + UInt64.ofNat written.length + UInt64.ofNat bytes.length }⟩ := by
    simp only [Sink.write, stream, DataStream.write, if_pos enough]
  rw [performed]
  constructor
  · simp only [List.length_append, UInt64.ofNat_add, UInt64.add_assoc]
  · rw [List.length_append, load_add, load_store_before _ _ _ _ (by omega), contents,
      load_store _ _ _ (by omega)]

/-- A value arrives whole in a buffer with room for it. -/
theorem encode_wrote {limits : Limits} {type : Ty} {v : type.Val}
    (within : type.Within limits v) (output : Output) (inside : output.stream.pos.toNat ≤ output.stream.end_.toNat)
    (object : output.stream.available < 2 ^ 63)
    (room : (emitted type v).length ≤ output.stream.available) :
    Wrote output.stream (encode type v output) (emitted type v) := by
  have step : ∀ bytes (ds : Output) (dt : List UInt8), bytes.length ≤ limits.chunk →
      (dt.length ≤ output.stream.available → Wrote output.stream ds dt) →
      (Sink.write bytes dt : List UInt8).length ≤ output.stream.available →
        Wrote output.stream (Sink.write bytes ds) (Sink.write bytes dt) := by
    intro bytes ds dt _ related fits
    have before : dt.length ≤ output.stream.available :=
      le_trans (by simp [Sink.write]) fits
    exact (related before).write object fits inside
  have start : Wrote output.stream output [] := by
    constructor
    · simp
    · rfl
  exact encode_related step within (fun _ => start) room

/-- The bytes a value leaves between the positions before and after it. -/
theorem encode_contents {type : Ty} {v : type.Val} {limits : Limits}
    (within : type.Within limits v) {output : Output} (valid : output.stream.valid = true)
    (object : output.stream.available < 2 ^ 63)
    (room : (emitted type v).length ≤ output.stream.available) :
    let written := encode type v output
    written.stream.errno = output.stream.errno ∧
      load written.memory output.stream.pos (written.stream.pos - output.stream.pos).toNat =
        emitted type v := by
  intro written
  have inside := ((DataStream.valid_iff output.stream).mp valid).2
  obtain ⟨stream, contents⟩ := encode_wrote within output inside object room
  have moved : written.stream.pos - output.stream.pos = UInt64.ofNat (emitted type v).length := by
    simp only [written, stream]
    rw [UInt64.add_comm, UInt64.add_sub_cancel]
  have small : (emitted type v).length < 2 ^ 64 := by omega
  constructor
  · simp only [written, stream]
  · rw [moved, UInt64.toNat_ofNat', Nat.mod_eq_of_lt small]
    exact contents

end Output
end XProject.Base
