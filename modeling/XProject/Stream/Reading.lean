import XProject.Std.Base128
import XProject.Stream.Deserialize
import XProject.Stream.Serialize

/-!
# What the decoders take from well-formed input

`Ahead` says which bytes lie between a session's position and the end, and that
nothing went wrong so far. The operations of a session and the variable-length
decoders are characterized by the bytes they take from there; groups that
continue to the end make the loops give up.
-/

namespace XProject.Base

open XProject.Std
open XProject.Std.Action

namespace Session

/-- Exactly these bytes are unread; no error is set and no shift was undefined. -/
structure Ahead (environment : Environment) (end_ : Address) (bytes : List UInt8)
    (session : Session) : Prop where
  end_ : session.stream.end_ = end_
  inside : session.stream.pos.toNat ≤ session.stream.end_.toNat
  unread : session.stream.unread environment.memory = bytes
  errno : session.stream.errno = .success
  defined : ∀ count, .undefinedShift count ∉ session.trace

variable {environment : Environment} {end_ : Address}

theorem Ahead.available {bytes : List UInt8} {session : Session}
    (ahead : Ahead environment end_ bytes session) :
    session.stream.available = bytes.length := by
  rw [← ahead.unread, DataStream.unread, length_load]

/-- The position is determined by what is unread. -/
theorem Ahead.pos {bytes : List UInt8} {session : Session}
    (ahead : Ahead environment end_ bytes session) :
    session.stream.pos.toNat + bytes.length = end_.toNat := by
  have available := ahead.available
  have inside := ahead.inside
  rw [DataStream.available, ahead.end_] at available
  rw [ahead.end_] at inside
  omega

/-- What was taken lies between the positions. -/
theorem Ahead.moved {front rest : List UInt8} {before after : Session}
    (ahead : Ahead environment end_ (front ++ rest) before)
    (left : Ahead environment end_ rest after) :
    after.stream.pos = before.stream.pos + UInt64.ofNat front.length := by
  have first := ahead.pos
  have last := left.pos
  have bound := end_.toNat_lt
  rw [List.length_append] at first
  apply UInt64.toNat_inj.mp
  rw [UInt64.toNat_add, UInt64.toNat_ofNat']
  omega

/-- The bytes in front are loaded from the position, and behind them lies the rest. -/
theorem Ahead.advance {front rest : List UInt8} {session : Session}
    (ahead : Ahead environment end_ (front ++ rest) session) (address : Address) (count : Nat) :
    load environment.memory session.stream.pos front.length = front ∧
      Ahead environment end_ rest
        ⟨{ session.stream with pos := session.stream.pos + UInt64.ofNat front.length },
          .loaded address count :: session.trace⟩ := by
  have available := ahead.available
  rw [List.length_append] at available
  have bound := end_.toNat_lt
  have position := ahead.pos
  rw [List.length_append] at position
  have size : (UInt64.ofNat front.length).toNat = front.length := by
    rw [UInt64.toNat_ofNat']
    omega
  have moved := @DataStream.toNat_pos_add (UInt64.ofNat front.length) session.stream (by omega)
  have unread := ahead.unread
  rw [DataStream.unread, available, load_add] at unread
  obtain ⟨loaded, remaining⟩ := List.append_inj unread (length_load ..)
  refine ⟨loaded, ahead.end_, ?_, ?_, ahead.errno, ?_⟩
  · change (session.stream.pos + UInt64.ofNat front.length).toNat ≤ session.stream.end_.toNat
    rw [ahead.end_]
    omega
  · have left : session.stream.end_.toNat - (session.stream.pos +
        UInt64.ofNat front.length).toNat = rest.length := by
      rw [ahead.end_]
      omega
    simp only [DataStream.unread, DataStream.available, left]
    exact remaining
  · intro other member
    rcases List.mem_cons.mp member with here | before
    · exact Event.noConfusion here
    · exact ahead.defined other before

/-- A stream over a buffer has the bytes of the buffer ahead. -/
theorem new_ahead (environment : Environment) (buffer : Buffer) :
    Ahead environment (buffer.start + buffer.size)
      (load environment.memory buffer.start buffer.size.toNat) (Session.new buffer) := by
  have fits := buffer.fits
  have finish : (buffer.start + buffer.size).toNat = buffer.start.toNat + buffer.size.toNat := by
    rw [UInt64.toNat_add]
    omega
  have size : (buffer.start + buffer.size).toNat - buffer.start.toNat = buffer.size.toNat := by
    omega
  refine ⟨rfl, ?_, ?_, rfl, fun _ member => absurd member List.not_mem_nil⟩
  · change buffer.start.toNat ≤ (buffer.start + buffer.size).toNat
    omega
  · simp only [Session.new, DataStream.new, DataStream.unread, DataStream.available, size]

/-- `read` takes as many bytes as it is asked for. -/
theorem takes_read {bytes : List UInt8} {size : Address} (length : bytes.length = size.toNat) :
    Takes (Ahead environment end_) (read environment size) bytes (some bytes) := by
  intro rest session ahead
  have available := ahead.available
  rw [List.length_append] at available
  have enough : session.stream.end_ - session.stream.pos ≥ size :=
    (DataStream.read_check_iff size ahead.inside).mpr (by omega)
  have step := ahead.advance session.stream.pos size.toNat
  have exact_ : UInt64.ofNat bytes.length = size := by rw [length, UInt64.ofNat_toNat]
  rw [exact_, length] at step
  change (read environment size session).1 = _ ∧ Ahead _ _ _ (read environment size session).2
  rw [read, DataStream.read, if_pos enough]
  exact ⟨congrArg some step.1, step.2⟩

/-- `get` takes one byte. -/
theorem takes_get (byte : UInt8) :
    Takes (Ahead environment end_) (get environment) [byte] (some byte) := by
  intro rest session ahead
  have position := ahead.pos
  have more : session.stream.pos < session.stream.end_ := by
    rw [UInt64.lt_iff_toNat_lt, ahead.end_]
    simp only [List.length_append, List.length_singleton] at position
    omega
  have step := ahead.advance session.stream.pos 1
  change (get environment session).1 = _ ∧ Ahead _ _ _ (get environment session).2
  rw [get, DataStream.get, if_pos more]
  refine ⟨?_, step.2⟩
  have loaded := step.1
  simpa [load] using loaded

/-- A shift by less than 32 takes nothing. -/
theorem takes_shift (operation : BitVec 32 → Nat → BitVec 32) (bits : BitVec 32) {count : Nat}
    (small : count < 32) :
    Takes (Ahead environment end_) (shift environment operation bits count) []
      (operation bits count) := by
  intro rest session ahead
  change (shift environment operation bits count session).1 = _ ∧
    Ahead _ _ _ (shift environment operation bits count session).2
  rw [shift, if_pos (by omega)]
  exact ⟨rfl, ahead⟩

theorem takes_record (size : Nat) :
    Takes (Ahead environment end_) (record (.sized size)) [] () := by
  intro rest session ahead
  refine ⟨rfl, ahead.end_, ahead.inside, ahead.unread, ahead.errno, ?_⟩
  intro count member
  rcases List.mem_cons.mp member with here | before
  · exact Event.noConfusion here
  · exact ahead.defined count before

end Session
/-! ## Variable-length integers -/

open Session

variable {environment : Environment} {end_ : Address}

/-- The low seven bits of a byte at their place. -/
def placed (byte : UInt8) (by_ : UInt8) : BitVec 32 :=
  (byte &&& 0x7f).toBitVec.setWidth 32 <<< by_.toNat

/-- The loop condition tests the continuation bit. -/
theorem loop_condition (byte : UInt8) : (byte &&& 0x80 != 0) = Base128.continues byte := by
  have high := Base128.and_high byte
  rw [bne, high, Bool.not_not]

theorem takes_getGroup (byte : UInt8) {by_ : UInt8} (small : by_.toNat < 32) :
    Takes (Ahead environment end_) (getGroup environment by_) [byte]
      (some (byte, placed byte by_)) := by
  exact (takes_get byte).bind ((takes_shift (· <<< ·) _ small).finish rfl)

theorem readGroups_run {Sum : Type} (add : Sum → BitVec 32 → Sum) (sum : Sum) (by_ : UInt8)
    (session : Session) :
    (readGroups environment add sum by_).run session =
      match (getGroup environment by_).run session with
      | (none, after) => (none, after)
      | (some (byte, bits), after) =>
          if Base128.continues byte then
            (readGroups environment add (add sum bits) (by_ + 7)).run after
          else (some (add sum bits, by_ + 7), after) := by
  change readGroups environment add sum by_ session = _
  rw [readGroups]
  split
  · rename_i passed
    rw [passed]
  · rename_i passed
    rw [passed, loop_condition]
    rfl

section Groups

variable {Sum : Type} {add : Sum → BitVec 32 → Sum} {sum : Sum} {byte by_ : UInt8}

/-- The last group ends the loop. -/
theorem takes_lastGroup (last : Base128.continues byte = false) (small : by_.toNat < 32) :
    Takes (Ahead environment end_) (readGroups environment add sum by_) [byte]
      (some (add sum (placed byte by_), by_ + 7)) := by
  intro rest session ahead
  obtain ⟨later, run, after⟩ := (takes_getGroup byte small).run ahead
  rw [readGroups_run, run]
  simp only [last]
  exact ⟨rfl, after⟩

/-- After any other group the loop goes on behind it. -/
theorem readGroups_more (more : Base128.continues byte = true) (small : by_.toNat < 32)
    {rest : List UInt8} {session : Session}
    (ahead : Ahead environment end_ (byte :: rest) session) :
    ∃ later, (readGroups environment add sum by_).run session =
        (readGroups environment add (add sum (placed byte by_)) (by_ + 7)).run later ∧
      Ahead environment end_ rest later := by
  obtain ⟨later, run, after⟩ := (takes_getGroup byte small).run ahead
  refine ⟨later, ?_, after⟩
  rw [readGroups_run, run]
  simp only [more, if_true]

theorem takes_moreGroups (more : Base128.continues byte = true) (small : by_.toNat < 32)
    {bytes : List UInt8} {result : Option (Sum × UInt8)}
    (tail : Takes (Ahead environment end_)
      (readGroups environment add (add sum (placed byte by_)) (by_ + 7)) bytes result) :
    Takes (Ahead environment end_) (readGroups environment add sum by_) (byte :: bytes) result := by
  intro rest session ahead
  obtain ⟨later, run, after⟩ := readGroups_more more small ahead
  rw [run]
  exact tail rest later after

/-- The count of one more group. -/
theorem toNat_next (small : by_.toNat < 32) : (by_ + 7).toNat = by_.toNat + 7 := by
  rw [UInt8.toNat_add, show (7 : UInt8).toNat = 7 from rfl]
  omega

/-- Counting the first group and then the others counts them all. -/
theorem count_next (by_ byte : UInt8) (rest : List UInt8) :
    by_ + 7 + UInt8.ofNat (7 * rest.length) = by_ + UInt8.ofNat (7 * (byte :: rest).length) := by
  rw [List.length_cons, Nat.mul_succ, UInt8.ofNat_add, UInt8.add_assoc, UInt8.add_comm 7]
  rfl

/-- A group at its place, as a number cut to 32 bits. -/
theorem placed_eq (byte by_ : UInt8) :
    placed byte by_ = BitVec.ofNat 32 (Base128.group byte <<< by_.toNat) := by
  have low : (byte &&& 0x7f).toNat = Base128.group byte := by
    rw [UInt8.toNat_and]
    exact Base128.and_low byte
  have small : Base128.group byte < 2 ^ 32 := lt_trans (Base128.group_lt byte) (by decide)
  apply BitVec.eq_of_toNat_eq
  rw [placed, BitVec.toNat_shiftLeft, BitVec.toNat_setWidth, UInt8.toNat_toBitVec, low,
    Nat.mod_eq_of_lt small, BitVec.toNat_ofNat]

/-- The loops of `VarUInt` and `VarInt` on a spelling none of whose groups is
shifted out of 32 bits entirely: `value` is the part of their sum the result is
taken from, `sofar` the number it holds already. -/
theorem takes_readGroups {value : Sum → BitVec 32}
    (adds : ∀ sum bits, value (add sum bits) = value sum ||| bits) {bytes : List UInt8}
    (terminated : Base128.Terminated bytes) {sofar : Nat}
    (holds : value sum = BitVec.ofNat 32 sofar)
    (below : sofar < 2 ^ by_.toNat) (small : by_.toNat + 7 * bytes.length < 32 + 7) :
    ∃ final, value final = BitVec.ofNat 32 (sofar + 2 ^ by_.toNat * Base128.magnitude bytes) ∧
      Takes (Ahead environment end_) (readGroups environment add sum by_) bytes
        (some (final, by_ + UInt8.ofNat (7 * bytes.length))) := by
  induction bytes generalizing sum by_ sofar with
  | nil => exact absurd rfl terminated.nonempty
  | cons byte rest ih =>
      rw [List.length_cons] at small
      have added : value (add sum (placed byte by_)) =
          BitVec.ofNat 32 (sofar + 2 ^ by_.toNat * Base128.group byte) := by
        have disjoint := Nat.shiftLeft_add_eq_or_of_lt below (Base128.group byte)
        rw [adds, holds, placed_eq, BitVec.or_comm, ← BitVec.ofNat_or, ← disjoint,
          Nat.shiftLeft_eq, Nat.add_comm, Nat.mul_comm]
      cases rest with
      | nil =>
          have last := terminated.stops
          refine ⟨_, ?_, takes_lastGroup last (by omega)⟩
          rw [added, Base128.magnitude_cons, Base128.magnitude_nil]
          rfl
      | cons next rest =>
          obtain ⟨more, tailTerminated⟩ := terminated.uncons
          have moved : (by_ + 7).toNat = by_.toNat + 7 := toNat_next (by omega)
          have scaled : 2 ^ (by_.toNat + 7) = 2 ^ by_.toNat * 128 := Nat.pow_add 2 _ 7
          have group := Base128.group_lt byte
          have grown : sofar + 2 ^ by_.toNat * Base128.group byte < 2 ^ (by_ + 7).toNat := by
            rw [moved, scaled]
            nlinarith
          obtain ⟨final, total, taken⟩ := ih tailTerminated added grown (by omega)
          refine ⟨final, ?_, ?_⟩
          · rw [total, moved, scaled, Base128.magnitude_cons byte, Nat.mul_add, Nat.add_assoc,
              Nat.mul_assoc]
          · rw [count_next] at taken
            exact takes_moreGroups more (by omega) taken

/-- Groups that all continue are passed, as far as their shifts are defined. -/
theorem readGroups_passes {front rest : List UInt8}
    (continuing : ∀ byte ∈ front, Base128.continues byte = true)
    (small : by_.toNat + 7 * front.length < 32 + 7)
    {session : Session} (ahead : Ahead environment end_ (front ++ rest) session) :
    ∃ total later, (readGroups environment add sum by_).run session =
        (readGroups environment add total (by_ + UInt8.ofNat (7 * front.length))).run later ∧
      Ahead environment end_ rest later := by
  induction front generalizing sum by_ session with
  | nil =>
      have still : by_ + UInt8.ofNat (7 * 0) = by_ := UInt8.add_zero by_
      exact ⟨sum, session, by rw [List.length_nil, still], ahead⟩
  | cons byte front ih =>
      rw [List.length_cons] at small
      have shiftable : by_.toNat < 32 := by omega
      have moved := toNat_next shiftable
      have tail : ∀ other ∈ front, Base128.continues other = true :=
        fun other member => continuing other (List.mem_cons_of_mem _ member)
      obtain ⟨middle, first, behind⟩ := @readGroups_more environment end_ Sum add sum byte by_
        (continuing byte (by simp)) shiftable _ _ ahead
      have room : (by_ + 7).toNat + 7 * front.length < 32 + 7 := by omega
      obtain ⟨total, later, others, after⟩ := ih tail room behind
      refine ⟨total, later, ?_, after⟩
      rw [first, others, count_next]

/-- Out of bytes the loop gives up with `TRAP_OUT_OF_STREAM`. -/
theorem readGroups_exhausted {session : Session} (ahead : Ahead environment end_ [] session) :
    ∃ later, (readGroups environment add sum by_).run session = (none, later) ∧
      later.stream.errno = .trapOutOfStream ∧ ∀ count, .undefinedShift count ∉ later.trace := by
  have position := ahead.pos
  have last : ¬session.stream.pos < session.stream.end_ := by
    rw [UInt64.lt_iff_toNat_lt, ahead.end_]
    rw [List.length_nil] at position
    omega
  have got : (Session.get environment).run session =
      (none, ⟨session.stream.setErrno .trapOutOfStream, .short :: session.trace⟩) := by
    change Session.get environment session = _
    rw [Session.get, DataStream.get, if_neg last]
  rw [readGroups_run, getGroup_run, got]
  refine ⟨_, rfl, rfl, ?_⟩
  intro count member
  rcases List.mem_cons.mp member with here | before
  · exact Event.noConfusion here
  · exact ahead.defined count before

variable (environment end_)

/-- A whole loop on a spelling in at most five bytes. -/
theorem takes_groups {value : Sum → BitVec 32}
    (adds : ∀ sum bits, value (add sum bits) = value sum ||| bits) (zero : value sum = 0)
    {bytes : List UInt8} (terminated : Base128.Terminated bytes) (short : bytes.length ≤ 5) :
    ∃ final, value final = BitVec.ofNat 32 (Base128.magnitude bytes) ∧
      Takes (Ahead environment end_) (readGroups environment add sum 0) bytes
        (some (final, UInt8.ofNat (7 * bytes.length))) := by
  have small : (0 : UInt8).toNat + 7 * bytes.length < 32 + 7 := by
    change 0 + 7 * bytes.length < 32 + 7
    omega
  have whole := @takes_readGroups environment end_ Sum add sum 0 value adds bytes terminated 0 zero
    (by decide) small
  simpa using whole

end Groups

/-- `VarUInt` takes a spelling in at most five bytes and returns its number,
cut to 32 bits. -/
theorem takes_decodeVarUInt {bytes : List UInt8} (terminated : Base128.Terminated bytes)
    (short : bytes.length ≤ 5) (var : BitVec 32) :
    Takes (Ahead environment end_) (decodeVarUInt environment var) bytes
      (BitVec.ofNat 32 (Base128.magnitude bytes)) := by
  have adds : ∀ (v : BitVec 64) (bits : BitVec 32),
      (v ||| bits.setWidth 64).setWidth 32 = v.setWidth 32 ||| bits := by
    intro v bits
    rw [BitVec.setWidth_or, BitVec.setWidth_setWidth_of_le _ (by decide), BitVec.setWidth_eq]
  have zero : (0 : BitVec 64).setWidth 32 = 0 := rfl
  obtain ⟨final, total, taken⟩ := takes_groups environment end_ adds zero terminated short
  exact taken.finish (congrArg pure total)

/-- `VarUInt` takes the shortest spelling of a value and returns it. -/
theorem takes_varUInt (value var : BitVec 32) :
    Takes (Ahead environment end_) (decodeVarUInt environment var)
      (Base128.unsigned value.toNat) value := by
  have bound := value.isLt
  have short := Base128.length_unsigned_le value.toNat 4 (by omega)
  have taken : Takes (Ahead environment end_) _ _ _ :=
    takes_decodeVarUInt (Base128.unsigned_terminated value.toNat) short var
  rwa [Base128.magnitude_unsigned, BitVec.ofNat_toNat, BitVec.setWidth_eq] at taken

/-- Up to five bytes that all continue end in an error. -/
theorem decodeVarUInt_exhausted {bytes : List UInt8}
    (continuing : ∀ byte ∈ bytes, Base128.continues byte = true) (short : bytes.length ≤ 5)
    {session : Session} (ahead : Ahead environment end_ bytes session) (var : BitVec 32) :
    let decoded := (decodeVarUInt environment var).run session
    decoded.2.stream.errno = .trapOutOfStream ∧
      ∀ count, .undefinedShift count ∉ decoded.2.trace := by
  intro decoded
  have small : (0 : UInt8).toNat + 7 * bytes.length < 32 + 7 := by
    change 0 + 7 * bytes.length < 32 + 7
    omega
  rw [← List.append_nil bytes] at ahead
  obtain ⟨total, later, passed, after⟩ := readGroups_passes continuing small ahead
  obtain ⟨final, gaveUp, errno, defined⟩ := readGroups_exhausted after
  have left : decoded.2 = final := by rw [decodeVarUInt_session, passed, gaveUp]
  rw [left]
  exact ⟨errno, defined⟩

/-- A decoder that accepts the element count in front goes on with it. -/
theorem takes_withCount {α : Type} {accepts : Nat → Bool} {dest result : α}
    {body : Nat → Decoder α} {size : Nat} (small : size < 2 ^ 32) (accepted : accepts size = true)
    {bytes : List UInt8} (taken : Takes (Ahead environment end_) (body size) bytes result) :
    Takes (Ahead environment end_) (withCount environment accepts dest body)
      (Base128.unsigned size ++ bytes) result := by
  have exact_ : (BitVec.ofNat 32 size).toNat = size := by
    rw [BitVec.toNat_ofNat, Nat.mod_eq_of_lt small]
  have count : Takes (Ahead environment end_) _ _ _ := takes_varUInt (BitVec.ofNat 32 size) 0
  rw [exact_] at count
  refine count.bind ?_
  rw [exact_, if_pos accepted]
  exact (takes_record size).bind taken

/-! ## Fixed-width integers -/

/-- The digits of a number are the number up to its size. -/
theorem ofDigits_range (count number : Nat) :
    Nat.ofDigits 256 ((List.range count).map fun index => number / 256 ^ index % 256) =
      number % 256 ^ count := by
  induction count with
  | zero => simp [Nat.mod_one]
  | succ count ih =>
      rw [List.range_succ, List.map_append, Nat.ofDigits_append, ih]
      simp [Nat.mod_pow_succ]

/-- The little-endian bytes of an integer are read back as the integer. -/
theorem littleEndian_bytes (count : Nat) (v : BitVec (8 * count)) :
    littleEndian (8 * count) (littleEndianBytes count v) = v := by
  have digit : ∀ index, (UInt8.ofBitVec ((v >>> (8 * index)).setWidth 8)).toNat =
      v.toNat / 256 ^ index % 256 := by
    intro index
    have scale : 2 ^ (8 * index) = 256 ^ index := Nat.pow_mul 2 8 index
    rw [UInt8.toNat_ofBitVec, BitVec.toNat_setWidth, BitVec.toNat_ushiftRight,
      Nat.shiftRight_eq_div_pow, scale]
  have digits : (littleEndianBytes count v).map UInt8.toNat =
      (List.range count).map fun index => v.toNat / 256 ^ index % 256 := by
    rw [littleEndianBytes, List.map_map]
    exact List.map_congr_left fun index _ => digit index
  have bound : v.toNat < 256 ^ count := by
    have scale : 2 ^ (8 * count) = 256 ^ count := Nat.pow_mul 2 8 count
    rw [← scale]
    exact v.isLt
  rw [littleEndian, digits, ofDigits_range, Nat.mod_eq_of_lt bound, BitVec.ofNat_toNat,
    BitVec.setWidth_eq]

theorem takes_decodeInteger (width : IntWidth) (value v : BitVec (8 * width.bytes)) :
    Takes (Ahead environment end_) (decodeInteger environment width v)
      (littleEndianBytes width.bytes value) value := by
  have length : (littleEndianBytes width.bytes value).length =
      (UInt64.ofNat width.bytes).toNat := by
    rw [littleEndianBytes, List.length_map, List.length_range]
    cases width <;> rfl
  exact (takes_read length).finish (congrArg pure (littleEndian_bytes width.bytes value))

end XProject.Base
