import XProject.Codec.Leb128Readers
import XProject.Stream.Hostile
import XProject.Stream.Reading

/-!
# Two decoders of unsigned LEB128

`operator>>(DataStream, VarUInt)` loops until a byte does not continue and cuts
the number to 32 bits. `ReadU32Leb128` looks at five bytes and checks the last.
They agree on all input but two kinds: what goes on after five bytes, and what
ends with the fifth and is worth `2 ^ 32` or more.
-/

namespace XProject.Base

open XProject.Std
open XProject.Std.Action
open XProject.Base.Leb128
open Session

/-! ## The loop on any input -/

section Loop

variable {environment : Environment} {end_ : Address} {Sum : Type} {add : Sum → BitVec 32 → Sum}
  {sum : Sum} {by_ : UInt8} {session : Session}

/-- A pass whose shift count is out of range notes that. -/
theorem getGroup_undefined {byte : UInt8} {rest : List UInt8} (large : 32 ≤ by_.toNat)
    (ahead : Ahead environment end_ (byte :: rest) session) :
    ∃ bits later, (getGroup environment by_).run session = (some (byte, bits), later) ∧
      later.stream.pos.toNat ≤ later.stream.end_.toNat ∧
      .undefinedShift by_.toNat ∈ later.trace := by
  have outside : ¬(0 ≤ (by_.toNat : Int) ∧ (by_.toNat : Int) < 32) := by omega
  obtain ⟨middle, got, behind⟩ := (takes_get byte).run ahead
  rw [getGroup_run, got]
  refine ⟨_, _, rfl, ?_⟩
  rw [shift_outside outside]
  exact ⟨behind.inside, List.mem_cons_self ..⟩

/-- What was undefined in one pass stays noted until the loop ends. -/
theorem readGroups_undefined {byte : UInt8} {rest : List UInt8} (large : 32 ≤ by_.toNat)
    (ahead : Ahead environment end_ (byte :: rest) session) :
    .undefinedShift by_.toNat ∈ ((readGroups environment add sum by_).run session).2.trace := by
  obtain ⟨bits, later, passed, inside, noted⟩ := getGroup_undefined large ahead
  rw [readGroups_run, passed]
  by_cases more : Base128.continues byte = true
  · simp only [more, if_true]
    exact (advances_readGroups environment add _ _ later inside).mem_trace noted
  · simp only [more]
    exact noted

end Loop

/-! ## `VarUInt` on any input -/

section Decoder

variable {environment : Environment} {end_ : Address} {session : Session}

/-- A sixth byte is shifted by 35. -/
theorem decodeVarUInt_undefined {front rest : List UInt8} {byte : UInt8}
    (continuing : ∀ byte ∈ front, Base128.continues byte = true) (five : front.length = 5)
    (ahead : Ahead environment end_ (front ++ byte :: rest) session) (var : BitVec 32) :
    .undefinedShift 35 ∈ ((decodeVarUInt environment var).run session).2.trace := by
  have small : (0 : UInt8).toNat + 7 * front.length < 32 + 7 := by
    rw [five]
    decide
  obtain ⟨total, later, passed, after⟩ := readGroups_passes continuing small ahead
  rw [five] at passed
  rw [decodeVarUInt_session, passed]
  exact readGroups_undefined (by decide) after

end Decoder

/-- What a buffer holds. -/
def Environment.contents (environment : Environment) (buffer : Buffer) : List UInt8 :=
  load environment.memory buffer.start buffer.size.toNat

/-- Five bytes continue, and another one follows. -/
def Overlong (bytes : List UInt8) : Prop :=
  6 ≤ bytes.length ∧ ∀ byte ∈ bytes.take 5, Base128.continues byte = true

/-- The fifth byte is the last one and its group has more than four bits. -/
def Overflowing (bytes : List UInt8) : Prop :=
  Base128.terminator bytes = some 4 ∧ 16 ≤ Base128.group (bytes.getD 4 0)

/-- The stream decoder accepts what the reader accepts, as the same value and
length, and evaluates no shift by 32 or more. -/
structure Agree (environment : Environment) (buffer : Buffer) (var outValue : BitVec 32) :
    Prop where
  accepted_iff : ∀ value length,
    (((decodeVarUInt environment var).run (Session.new buffer)).2.stream.errno = .success ∧
      ((decodeVarUInt environment var).run (Session.new buffer)).1 = value ∧
      ((decodeVarUInt environment var).run (Session.new buffer)).2.stream.pos.toNat =
        buffer.start.toNat + length) ↔
    0 < length ∧ readU32Leb128 (environment.contents buffer) outValue = (length, value)
  defined : ∀ count, .undefinedShift count ∉
    ((decodeVarUInt environment var).run (Session.new buffer)).2.trace

section Verdicts

variable {environment : Environment} {buffer : Buffer} {var outValue : BitVec 32}

/-- Input that ends within five bytes is decoded up to there. -/
theorem decodeVarUInt_ends {index : Nat}
    (ends : Base128.terminator (environment.contents buffer) = some index) (short : index < 5) :
    let decoded := (decodeVarUInt environment var).run (Session.new buffer)
    decoded.1 =
        BitVec.ofNat 32 (Base128.magnitude ((environment.contents buffer).take (index + 1))) ∧
      decoded.2.stream.errno = .success ∧
      decoded.2.stream.pos.toNat = buffer.start.toNat + (index + 1) ∧
      ∀ count, .undefinedShift count ∉ decoded.2.trace := by
  intro decoded
  have inside := Base128.terminator_lt ends
  have length : ((environment.contents buffer).take (index + 1)).length = index + 1 :=
    List.length_take_of_le inside
  have ahead : Ahead environment _ (environment.contents buffer) _ := new_ahead environment buffer
  rw [← List.take_append_drop (index + 1) (environment.contents buffer)] at ahead
  have terminated := Base128.Terminated.of_terminator ends
  obtain ⟨later, run, after⟩ := (takes_decodeVarUInt terminated (by omega) var).run ahead
  have result : decoded = _ := run
  have before : buffer.start.toNat + _ = _ := ahead.pos
  have behind := after.pos
  rw [List.length_append, length] at before
  have position : later.stream.pos.toNat = buffer.start.toNat + (index + 1) := by omega
  rw [result]
  exact ⟨rfl, after.errno, position, after.defined⟩

/-- The decoders agree on input that ends within five bytes and does not overflow. -/
theorem agree_of_ends {index : Nat}
    (ends : Base128.terminator (environment.contents buffer) = some index) (short : index < 5)
    (fits : ¬Overflowing (environment.contents buffer)) :
    Agree environment buffer var outValue := by
  obtain ⟨value, errno, pos, defined⟩ := @decodeVarUInt_ends environment buffer var _ ends short
  have small : ¬(index = 4 ∧ ¬Base128.group ((environment.contents buffer).getD 4 0) < 16) := by
    rintro ⟨rfl, large⟩
    exact fits ⟨ends, Nat.not_lt.mp large⟩
  have reader := readU32Leb128_terminated ends short outValue
  rw [if_neg small] at reader
  refine ⟨fun other length => ?_, defined⟩
  rw [reader, value, pos, Prod.mk.injEq]
  constructor
  · rintro ⟨_, same, size⟩
    exact ⟨by omega, by omega, same⟩
  · rintro ⟨_, size, same⟩
    exact ⟨errno, same, by omega⟩

/-- They agree on input that ends nowhere and has no sixth byte. -/
theorem agree_of_exhausted (endless : Base128.terminator (environment.contents buffer) = none)
    (short : (environment.contents buffer).length ≤ 5) :
    Agree environment buffer var outValue := by
  have ahead := new_ahead environment buffer
  have continuing := Base128.terminator_eq_none_iff.mp endless
  obtain ⟨errno, defined⟩ := decodeVarUInt_exhausted continuing short ahead var
  have reader : readU32Leb128 (environment.contents buffer) outValue = (0, 0) := by
    refine readU32Leb128_unterminated (fun index ends => ?_) outValue
    rw [endless] at ends
    cases ends
  refine ⟨fun value length => ?_, defined⟩
  rw [reader, errno]
  constructor
  · rintro ⟨success, _⟩
    cases success
  · rintro ⟨positive, same⟩
    cases same
    exact absurd positive (Nat.lt_irrefl 0)

/-- The stream decoder cuts what the reader refuses. -/
theorem not_agree_of_overflowing (overflowing : Overflowing (environment.contents buffer)) :
    ¬Agree environment buffer var outValue := by
  intro agree
  obtain ⟨ends, large⟩ := overflowing
  obtain ⟨_, errno, pos, _⟩ := @decodeVarUInt_ends environment buffer var _ ends (by decide)
  have accepted := (agree.accepted_iff _ 5).mp ⟨errno, rfl, pos⟩
  have reader := readU32Leb128_terminated ends (by decide) outValue
  rw [if_pos ⟨rfl, Nat.not_lt.mpr large⟩] at reader
  rw [reader] at accepted
  cases accepted.2

/-- The stream decoder shifts by 35 for the sixth byte. -/
theorem not_agree_of_overlong (overlong : Overlong (environment.contents buffer)) :
    ¬Agree environment buffer var outValue := by
  intro agree
  obtain ⟨long, continuing⟩ := overlong
  have five : ((environment.contents buffer).take 5).length = 5 :=
    List.length_take_of_le (by omega)
  have ahead : Ahead environment _ (environment.contents buffer) _ := new_ahead environment buffer
  rw [← List.take_append_drop 5 (environment.contents buffer),
    List.drop_eq_getElem_cons (by omega)] at ahead
  exact agree.defined 35 (decodeVarUInt_undefined continuing five ahead var)

end Verdicts

/-- The decoders agree on the contents of a buffer exactly when these neither
continue past five bytes nor end with a fifth byte that overflows. -/
theorem decoders_agree_iff (environment : Environment) (buffer : Buffer)
    (var outValue : BitVec 32) :
    Agree environment buffer var outValue ↔
      ¬Overlong (environment.contents buffer) ∧ ¬Overflowing (environment.contents buffer) := by
  constructor
  · intro agree
    exact ⟨fun overlong => not_agree_of_overlong overlong agree,
      fun overflowing => not_agree_of_overflowing overflowing agree⟩
  · rintro ⟨notLong, fits⟩
    cases ends : Base128.terminator (environment.contents buffer) with
    | none =>
        refine agree_of_exhausted ends ?_
        by_contra long
        refine notLong ⟨by omega, Base128.continuing_take_iff.mpr fun index found => ?_⟩
        rw [ends] at found
        cases found
    | some index =>
        refine agree_of_ends ends ?_ fits
        by_contra late
        have inside := Base128.terminator_lt ends
        refine notLong ⟨by omega, Base128.continuing_take_iff.mpr fun found at_ => ?_⟩
        rw [ends] at at_
        cases at_
        omega

/-- 80 80 80 80 10 spells 2^32: the stream decoder returns 0 after five bytes,
the reader refuses. -/
theorem decoders_disagree :
    let environment : Environment := ⟨store (fun _ => 0) 4096 [0x80, 0x80, 0x80, 0x80, 0x10],
      fun _ bits _ => bits, fun _ _ => 0⟩
    let buffer : Buffer := ⟨4096, 5, by decide⟩
    environment.contents buffer = [0x80, 0x80, 0x80, 0x80, 0x10] ∧
      ¬Agree environment buffer 0 0 := by
  intro environment buffer
  refine ⟨by decide +kernel, fun agree => ?_⟩
  have accepted := (agree.accepted_iff 0 5).mp (by decide +kernel)
  revert accepted
  decide +kernel

end XProject.Base
