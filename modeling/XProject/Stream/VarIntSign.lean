import XProject.Stream.Emitted
import XProject.Stream.Hostile
import XProject.Stream.Reading

/-!
# The sign of a decoded `VarInt`

The decoder extends the sign from the number of bits it has read. After at most
four bytes that is right; the fifth byte brings the count to 35 bits, more than
the operand of the shift has.
-/

namespace XProject.Base

open XProject.Std
open XProject.Std.Action
open Session

variable {environment : Environment} {end_ : Address}

/-- The ones above the low bits, as a number. -/
theorem ones_eq {bits : Nat} (bound : bits < 32) :
    (-1 : BitVec 32) <<< bits = BitVec.ofNat 32 ((2 ^ (32 - bits) - 1) <<< bits) := by
  have every : ∀ bits : Fin 32,
      (-1 : BitVec 32) <<< bits.val = BitVec.ofNat 32 ((2 ^ (32 - bits.val) - 1) <<< bits.val) := by
    decide
  exact every ⟨bits, bound⟩

/-- Setting the ones above `bits` bits subtracts `2 ^ bits`. -/
theorem or_ones {bits : Nat} (bound : bits < 32) {number : Nat} (small : number < 2 ^ bits) :
    BitVec.ofNat 32 number ||| (-1 : BitVec 32) <<< bits =
      BitVec.ofInt 32 ((number : Int) - 2 ^ bits) := by
  have disjoint := Nat.shiftLeft_add_eq_or_of_lt small (2 ^ (32 - bits) - 1)
  have turn : 2 ^ (32 - bits) * 2 ^ bits = 2 ^ 32 := by
    rw [← Nat.pow_add, Nat.sub_add_cancel (by omega)]
  have le : 2 ^ bits ≤ 2 ^ 32 := Nat.pow_le_pow_right (by decide) (by omega)
  have total : (2 ^ (32 - bits) - 1) <<< bits + number = 2 ^ 32 - 2 ^ bits + number := by
    rw [Nat.shiftLeft_eq, Nat.sub_mul, turn, Nat.one_mul]
  have castPow : ((2 ^ bits : Nat) : Int) = 2 ^ bits := by push_cast; rfl
  rw [ones_eq bound, BitVec.or_comm, ← BitVec.ofNat_or, ← disjoint, total, ← castPow]
  apply BitVec.eq_of_toNat_eq
  rw [BitVec.toNat_ofNat, BitVec.toNat_ofInt]
  omega

/-- The sign bit of a number of `bits` bits. -/
theorem sign_eq {bits : Nat} (positive : 0 < bits) (bound : bits ≤ 32) {number : Nat}
    (small : number < 2 ^ bits) :
    ((BitVec.ofNat 32 number >>> (bits - 1)) &&& 0x01 != 0) = decide (2 ^ bits ≤ 2 * number) := by
  obtain ⟨more, rfl⟩ : ∃ more, bits = more + 1 := ⟨bits - 1, by omega⟩
  have turn : 2 ^ (more + 1) = 2 ^ more * 2 := Nat.pow_succ ..
  have fits : number < 2 ^ 32 :=
    lt_of_lt_of_le small (Nat.pow_le_pow_right (by decide) bound)
  have bit : ((BitVec.ofNat 32 number >>> (more + 1 - 1)) &&& 0x01).toNat = number / 2 ^ more := by
    have top : number / 2 ^ more < 2 := by
      rw [Nat.div_lt_iff_lt_mul (Nat.two_pow_pos more)]
      omega
    rw [BitVec.toNat_and, BitVec.toNat_ushiftRight, BitVec.toNat_ofNat, Nat.mod_eq_of_lt fits,
      Nat.shiftRight_eq_div_pow, Nat.add_sub_cancel]
    exact (Nat.and_two_pow_sub_one_eq_mod _ 1).trans (Nat.mod_eq_of_lt top)
  by_cases large : 2 ^ (more + 1) ≤ 2 * number
  · have set_ : number / 2 ^ more ≠ 0 :=
      Nat.div_ne_zero_iff.mpr ⟨(Nat.two_pow_pos more).ne', by omega⟩
    rw [decide_eq_true large, bne_iff_ne]
    intro zero
    rw [zero] at bit
    exact set_ bit.symm
  · have clear : number / 2 ^ more = 0 := Nat.div_eq_of_lt (by omega)
    rw [clear] at bit
    rw [decide_eq_false large, bne_eq_false_iff_eq]
    exact BitVec.eq_of_toNat_eq bit

/-- After at most four bytes the sign is extended as it should be. -/
theorem takes_extendSign {bytes : List UInt8} (positive : 0 < bytes.length)
    (short : bytes.length ≤ 4) :
    Takes (Ahead environment end_)
      (extendSign environment (BitVec.ofNat 32 (Base128.magnitude bytes))
        (UInt8.ofNat (7 * bytes.length))) []
      (BitVec.ofInt 32 (Base128.signedMagnitude bytes)) := by
  have count : (UInt8.ofNat (7 * bytes.length)).toNat = 7 * bytes.length := by
    rw [UInt8.toNat_ofNat']
    omega
  have before : ((7 * bytes.length : Nat) : Int) - 1 = (7 * bytes.length - 1 : Nat) := by omega
  have small := Base128.magnitude_lt bytes
  have sign := sign_eq (by omega) (by omega) small
  rw [extendSign, count, before]
  refine (takes_shift (· >>> ·) _ (by omega)).bind_nil ?_
  rw [sign, Base128.signedMagnitude_eq]
  by_cases negative : 2 ^ (7 * bytes.length) ≤ 2 * Base128.magnitude bytes
  · have shape := or_ones (by omega) small
    simp only [negative, decide_true, if_true, if_neg (Nat.not_lt.mpr negative)]
    exact (takes_shift (· <<< ·) _ (by omega)).finish (congrArg pure shape)
  · simp only [negative, decide_false, Bool.false_eq_true, if_false,
      if_pos (Nat.not_le.mp negative), BitVec.ofInt_natCast]
    exact .pure _

/-- The loop of `VarInt` on a spelling in at most five bytes. -/
theorem takes_signedGroups {bytes : List UInt8} (terminated : Base128.Terminated bytes)
    (short : bytes.length ≤ 5) :
    Takes (Ahead environment end_)
      (readGroups environment (fun v bits => v ||| bits) (0 : BitVec 32) 0) bytes
      (some (BitVec.ofNat 32 (Base128.magnitude bytes), UInt8.ofNat (7 * bytes.length))) := by
  have adds : ∀ sum bits : BitVec 32, id (sum ||| bits) = id sum ||| bits := fun _ _ => rfl
  have zero : id (0 : BitVec 32) = 0 := rfl
  obtain ⟨final, total, taken⟩ := takes_groups environment end_ adds zero terminated short
  rwa [show final = _ from total] at taken

/-- `VarInt` takes a spelling in at most four bytes and returns its integer. -/
theorem takes_decodeVarInt {bytes : List UInt8} (terminated : Base128.Terminated bytes)
    (short : bytes.length ≤ 4) (var : BitVec 32) :
    Takes (Ahead environment end_) (decodeVarInt environment var) bytes
      (BitVec.ofInt 32 (Base128.signedMagnitude bytes)) := by
  have positive := List.length_pos_iff.mpr terminated.nonempty
  exact (takes_signedGroups terminated (by omega)).bind_nil (takes_extendSign positive short)

/-- After more than 32 bits the sign is looked for by a shift without a result. -/
theorem extendSign_undefined {v : BitVec 32} {by_ : UInt8} (long : 32 < by_.toNat)
    {session : Session} (inside : session.stream.pos.toNat ≤ session.stream.end_.toNat) :
    .undefinedShift (by_.toNat - 1) ∈ ((extendSign environment v by_).run session).2.trace := by
  have outside : ¬(0 ≤ (by_.toNat : Int) - 1 ∧ (by_.toNat : Int) - 1 < 32) := by omega
  have shifted := @shift_outside environment (· >>> ·) v _ outside session
  have progress : Progress ((shift environment (· >>> ·) v (by_.toNat - 1)).run session).2
      ((extendSign environment v by_).run session).2 := by
    refine advances_setSign environment v _ by_ _ ?_
    rw [shifted]
    exact inside
  apply progress.mem_trace
  rw [shifted]
  exact List.mem_cons_self ..

/-- `VarInt` reads a spelling in five bytes only with a shift by 34. -/
theorem decodeVarInt_undefined {bytes rest : List UInt8} (terminated : Base128.Terminated bytes)
    (long : bytes.length = 5) (var : BitVec 32) {session : Session}
    (ahead : Ahead environment end_ (bytes ++ rest) session) :
    .undefinedShift 34 ∈ ((decodeVarInt environment var).run session).2.trace := by
  obtain ⟨later, run, after⟩ := (takes_signedGroups terminated (by omega)).run ahead
  rw [long] at run
  rw [decodeVarInt_run, run]
  exact @extendSign_undefined environment _ 35 (by decide) later after.inside

/-- Reading one value returns it with `SUCCESS`, stops right behind its bytes
and evaluates no shift by 32 or more. -/
structure VarIntReturns (environment : Environment) (buffer : Buffer) (value var : BitVec 32) :
    Prop where
  returned : ((decodeVarInt environment var).run (Session.new buffer)).1 = value
  errno : ((decodeVarInt environment var).run (Session.new buffer)).2.stream.errno = .success
  pos : ((decodeVarInt environment var).run (Session.new buffer)).2.stream.pos =
    buffer.start + UInt64.ofNat (emitted .varInt value).length
  defined : ∀ count, .undefinedShift count ∉
    ((decodeVarInt environment var).run (Session.new buffer)).2.trace

/-- A `VarInt` comes back from its bytes exactly when they are at most four. -/
theorem varInt_round_trip_iff {environment : Environment} {buffer : Buffer} {value : BitVec 32}
    {rest : List UInt8} (holds : load environment.memory buffer.start buffer.size.toNat =
      emitted .varInt value ++ rest) (var : BitVec 32) :
    VarIntReturns environment buffer value var ↔
      -2 ^ 27 ≤ value.toInt ∧ value.toInt < 2 ^ 27 := by
  have spelled : emitted .varInt value = Base128.signed value.toInt := encodeVarInt_list value []
  have terminated := Base128.signed_terminated value.toInt
  have ahead := new_ahead environment buffer
  rw [holds, spelled] at ahead
  have four := Base128.length_signed_le_iff value.toInt 3
  constructor
  · intro returns
    have five := Base128.length_signed_le_iff value.toInt 4
    have low := BitVec.le_toInt value
    have high := @BitVec.toInt_lt 32 value
    by_contra outside
    have long : (Base128.signed value.toInt).length = 5 := by omega
    exact returns.defined 34 (decodeVarInt_undefined terminated long var ahead)
  · intro inRange
    have short := four.mpr inRange
    have taken : Takes (Ahead environment (buffer.start + buffer.size)) _ _ _ :=
      takes_decodeVarInt terminated short var
    obtain ⟨returned, after⟩ := taken rest _ ahead
    rw [Base128.signedMagnitude_signed, BitVec.ofInt_toInt] at returned
    refine ⟨returned, after.errno, ?_, after.defined⟩
    rw [spelled]
    exact ahead.moved after

/-- -5 in front of two other bytes. -/
theorem varInt_round_trip_negative :
    let environment : Environment :=
      ⟨store (fun _ => 0) 4096 [0x7b, 0x80, 0x01], fun _ bits _ => bits, fun _ _ => 0⟩
    VarIntReturns environment ⟨4096, 3, by decide⟩ (-5) 0 ↔
      -2 ^ 27 ≤ (-5 : BitVec 32).toInt ∧ (-5 : BitVec 32).toInt < 2 ^ 27 := by
  intro environment
  have holds : load environment.memory 4096 3 =
      emitted .varInt (-5 : BitVec 32) ++ [0x80, 0x01] := by decide +kernel
  exact @varInt_round_trip_iff environment ⟨4096, 3, by decide⟩ (-5) [0x80, 0x01] holds 0

/-- 2^27 takes five bytes, after which `v >> 34` is evaluated. -/
theorem varInt_five_bytes :
    let environment : Environment := ⟨store (fun _ => 0) 4096 [0x80, 0x80, 0x80, 0xc0, 0x00],
      fun _ bits _ => bits, fun _ _ => 0⟩
    let buffer : Buffer := ⟨4096, 5, by decide⟩
    load environment.memory buffer.start buffer.size.toNat = emitted .varInt 134217728#32 ++ [] ∧
      ¬VarIntReturns environment buffer 134217728#32 0 := by
  intro environment buffer
  refine ⟨by decide +kernel, fun returns => returns.defined 34 ?_⟩
  decide +kernel

end XProject.Base
