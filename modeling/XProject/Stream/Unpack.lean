import XProject.Stream.Limits
import XProject.Stream.Pack
import XProject.Stream.RoundTrip

/-!
# Unpacking

`unpack` reads one variable from the start of a buffer and tells its caller nothing about
errors. What `pack` or its string form allocated and filled comes back as it was, and so
it does from the front of a longer buffer.
-/

namespace XProject.Base

open XProject.Std.Action

/-- `unpack(buffer, len)`, and `unpack(bytes)` for the buffer of a vector. -/
def unpack (environment : Environment) (type : Ty) (buffer : Buffer) : type.Val :=
  let action : Decoder type.Val := do
    let result ← declare environment type
    decode environment type result
  (action.run (Session.new buffer)).1

section

variable {type : Ty} (plain : type.withoutVarInt = true) {v : type.Val}
  (within : type.Within decoderLimits v)

include plain within

/-- The bytes of a value are unpacked to the value, whatever stands behind them. -/
theorem unpack_emitted (environment : Environment) {buffer : Buffer} {rest : List UInt8}
    (holds : load environment.memory buffer.start buffer.size.toNat = emitted type v ++ rest) :
    unpack environment type buffer = v := by
  have ahead := Session.new_ahead environment buffer
  rw [holds] at ahead
  have fresh := @declare_fresh environment type (Session.new buffer)
  have still : Session.new buffer = _ := @declare_still environment type (Session.new buffer)
  rw [still] at ahead
  exact (takes_decode plain within fresh rest _ ahead).1

/-- What either form of `pack` has packed is unpacked to the value, whatever the variable that
is not initialized holds: from the buffer it was packed in, and from the front of any buffer
its bytes are copied to. -/
theorem unpack_pack (allocatable : (emitted type v).length < 2 ^ 63) {storage : Buffer}
    (size : storage.size = packSize type v) (memory : Memory) :
    (∀ environment : Environment, environment.memory = (pack type v storage memory).memory →
      unpack environment type storage = v) ∧
    (∃ output, (packString type v storage memory).2 = some output ∧
      ∀ environment : Environment, environment.memory = output.memory →
        unpack environment type storage = v) ∧
    ∀ (environment : Environment) (buffer : Buffer) (rest : List UInt8),
      load environment.memory buffer.start buffer.size.toNat =
        load (pack type v storage memory).memory storage.start storage.size.toNat ++ rest →
      unpack environment type buffer = v := by
  have packs : type.Within packLimits v := within.weaken (by decide) (by decide)
  obtain ⟨_, filled, output, packed, filledString⟩ :=
    pack_agrees packs allocatable size size memory memory
  have alone : ∀ (environment : Environment) {bytes : Output},
      Filled storage bytes (emitted type v) → environment.memory = bytes.memory →
        unpack environment type storage = v := by
    intro environment bytes filled reads
    have contents : load environment.memory storage.start storage.size.toNat =
        emitted type v ++ [] := by
      rw [reads, filled.contents, List.append_nil]
    exact unpack_emitted plain within environment contents
  refine ⟨fun environment => alone environment filled, ⟨output, by rw [packed],
    fun environment => alone environment filledString⟩, fun environment buffer rest holds => ?_⟩
  rw [filled.contents] at holds
  exact unpack_emitted plain within environment holds

end

/-- A vector of an empty and a short string, packed and unpacked in place. -/
theorem unpack_pack_strings :
    let type : Ty := .vector .string
    let v : type.Val := ([[], [0x68, 0x69, 0x21]] : List (List UInt8))
    let storage : Buffer := ⟨16, packSize type v, by decide +kernel⟩
    unpack ⟨(pack type v storage fun _ => 0).memory, fun _ bits _ => bits, fun _ _ => 1⟩ type
      storage = v := by
  intro type v storage
  have within : type.Within decoderLimits v :=
    @of_decide_eq_true _ (type.decideWithin decoderLimits v) rfl
  exact (@unpack_pack type rfl v within (by decide +kernel) storage rfl fun _ => 0).1 _ rfl

end XProject.Base
