import XProject.Stream.Decoded

/-!
# Decoding over previous contents

Sets and maps are cleared and integers overwritten, but a `std::string` or a
`std::vector<char>` is resized only for a size above zero, and the elements that
a vector or an array holds already are decoded into. So an empty string can
leave old characters where it is decoded to.
-/

namespace XProject.Base

open XProject.Std
open XProject.Std.Action
open Session

/-- Decoding the bytes of a value, whatever follows them, into a variable with any
previous contents leaves the variable equal to the value exactly when the value
has no empty string where the previous contents have another one. -/
theorem replaced_iff {type : Ty} (plain : type.withoutVarInt = true) {v : type.Val}
    (within : type.Within decoderLimits v) (dest : type.Val) {environment : Environment}
    {buffer : Buffer} {rest : List UInt8}
    (holds : load environment.memory buffer.start buffer.size.toNat = emitted type v ++ rest) :
    ((decode environment type dest).run (Session.new buffer)).1 = v ↔ type.Replaced dest v := by
  have ahead := new_ahead environment buffer
  rw [holds] at ahead
  obtain ⟨value, _⟩ := takes_decoded plain within dest rest _ ahead
  rw [value]
  exact Ty.decoded_eq_iff dest v

/-- A vector of two strings decoded over a vector of three. -/
theorem replaced_iff_strings :
    let type : Ty := .vector .string
    let v : type.Val := ([[0x61], []] : List (List UInt8))
    let dest : type.Val := ([[0x62, 0x63], [], [0x64]] : List (List UInt8))
    let environment := holding 4096 (emitted type v)
    let buffer : Buffer := ⟨4096, 4, by decide⟩
    ((decode environment type dest).run (Session.new buffer)).1 = v ↔ type.Replaced dest v := by
  intro type v dest environment buffer
  have within : type.Within decoderLimits v :=
    @of_decide_eq_true _ (type.decideWithin decoderLimits v) rfl
  exact @replaced_iff type rfl v within dest environment buffer [] (by decide +kernel)

/-- An empty string decoded over another one leaves it as it was, without an error. -/
theorem empty_string_keeps_destination :
    let v : Ty.Val .string := ([] : List UInt8)
    let dest : Ty.Val .string := ([0x61] : List UInt8)
    let environment := holding 4096 (emitted .string v)
    let buffer : Buffer := ⟨4096, 1, by decide⟩
    let decoded := (decode environment .string dest).run (Session.new buffer)
    load environment.memory buffer.start buffer.size.toNat = emitted .string v ∧
      decoded.2.stream.errno = .success ∧ decoded.1 = dest ∧ decoded.1 ≠ v := by
  refine ⟨by decide +kernel, by decide +kernel, ?_, ?_⟩
  · exact @of_decide_eq_true _ (instDecidableEqList _ _) (by decide +kernel)
  · exact @of_decide_eq_true _ (@instDecidableNot _ (instDecidableEqList _ _)) (by decide +kernel)

end XProject.Base
