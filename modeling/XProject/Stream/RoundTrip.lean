import XProject.Stream.Decoded
import XProject.Stream.Output

/-!
# Values come back from their bytes

A value written to a buffer and decoded from there into a default-constructed
variable is the same value, and the stream stops exactly behind it.
-/

namespace XProject.Base

open XProject.Std
open XProject.Std.Action
open Session

variable {environment : Environment} {end_ : Address}

/-- Decoding into a fresh destination returns the value. -/
theorem takes_decode {type : Ty} (plain : type.withoutVarInt = true) {v : type.Val}
    (within : type.Within decoderLimits v) {dest : type.Val} (fresh : type.Fresh dest) :
    Takes (Ahead environment end_) (decode environment type dest) (emitted type v) v := by
  have taken : Takes (Ahead environment end_) _ _ _ := takes_decoded plain within dest
  rwa [(Ty.decoded_eq_iff dest v).mpr (fresh.replaced v)] at taken

/-- A value is written without an error into a buffer with room for it, an object
no larger than pointer differences can tell. Whatever follows its bytes, decoding
them into a default-constructed variable returns the value with `SUCCESS` and
stops exactly behind them. -/
theorem round_trip {type : Ty} (plain : type.withoutVarInt = true) {v : type.Val}
    (within : type.Within decoderLimits v) {output : Output}
    (valid : output.stream.valid = true)
    (object : output.stream.available < 2 ^ 63)
    (room : (emitted type v).length ≤ output.stream.available) :
    let written := encode type v output
    let count := written.stream.pos - output.stream.pos
    written.stream.errno = output.stream.errno ∧
      ∀ (environment : Environment) (buffer : Buffer) (rest : List UInt8),
        load environment.memory buffer.start buffer.size.toNat =
          load written.memory output.stream.pos count.toNat ++ rest →
        let decoded := (decode environment type type.zero).run (Session.new buffer)
        decoded.1 = v ∧ decoded.2.stream.errno = .success ∧
          decoded.2.stream.pos = buffer.start + count := by
  intro written count
  obtain ⟨errno, contents⟩ := Output.encode_contents within valid object room
  refine ⟨errno, fun environment buffer rest holds => ?_⟩
  have size : count.toNat = (emitted type v).length := by
    rw [← contents, length_load]
  rw [contents] at holds
  have ahead := new_ahead environment buffer
  rw [holds] at ahead
  obtain ⟨value, after⟩ := takes_decode plain within type.zero_fresh rest _ ahead
  refine ⟨value, after.errno, ?_⟩
  rw [ahead.moved after, ← size, UInt64.ofNat_toNat]
  rfl

/-- A map from strings to vectors of `VarUInt`, written to the front of a larger
buffer and read back from it with the zero bytes behind. -/
theorem round_trip_map :
    let type : Ty := .map .string (.vector .varUInt)
    let v : type.Val := ⟨[toLex ([97], [300#32, 5#32]), toLex ([98, 0], [])], by decide +kernel⟩
    let buffer : Buffer := ⟨4096, 64, by decide⟩
    let written := encode type v (⟨fun _ => 0, .new buffer⟩ : Output)
    let count := written.stream.pos - buffer.start
    written.stream.errno = .success ∧
      ∀ (environment : Environment) (buffer' : Buffer) (rest : List UInt8),
        load environment.memory buffer'.start buffer'.size.toNat =
          load written.memory buffer.start count.toNat ++ rest →
        let decoded := (decode environment type type.zero).run (Session.new buffer')
        decoded.1 = v ∧ decoded.2.stream.errno = .success ∧
          decoded.2.stream.pos = buffer'.start + count := by
  intro type v buffer
  have within : type.Within decoderLimits v :=
    @of_decide_eq_true _ (type.decideWithin decoderLimits v) rfl
  have room : (emitted type v).length ≤ (DataStream.new buffer).available := by decide +kernel
  exact @round_trip type rfl v within ⟨fun _ => 0, .new buffer⟩ (by decide) (by decide +kernel)
    room

end XProject.Base
