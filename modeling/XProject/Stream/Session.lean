import XProject.Stream.DataStream

/-!
# Decoding sessions

A session is a `DataStream` being read, with a trace of what the decoders did
that their results do not show: the bytes loaded, the reads that found too few
bytes, the element counts obeyed or refused, and the shifts whose count leaves
their result undefined. What the language leaves open is an `Environment`.
-/

namespace XProject.Base

/-- What a decoder did. -/
inductive Event where
  | loaded (address : Address) (count : Nat)
  | short
  | sized (count : Nat)
  | refused (count : Nat)
  | undefinedShift (count : Int)
deriving DecidableEq

/-- A stream being read and what happened so far, latest first. -/
structure Session where
  stream : DataStream
  trace : List Event

/-- The memory read from, the results of shifts by counts out of range, and what
an uninitialized integer variable holds. -/
structure Environment where
  memory : Memory
  undefinedShift : List Event → (bits : BitVec 32) → (count : Int) → BitVec 32
  uninitialized : List Event → (width : Nat) → BitVec width

/-- Memory that holds some bytes at an address, for variables to be decoded from. -/
def holding (start : Address) (bytes : List UInt8) : Environment where
  memory := store (fun _ => 0) start bytes
  undefinedShift _ bits _ := bits
  uninitialized _ _ := 0

/-- A program that reads from a session. -/
abbrev Decoder (α : Type) := StateM Session α

namespace Session

/-- `DataStream(start, s)` before anything is read. -/
def new (buffer : Buffer) : Session := ⟨.new buffer, []⟩

/-- Note an event. -/
def record (event : Event) : Decoder Unit :=
  fun session => ((), { session with trace := event :: session.trace })

/-- `set_errno`. -/
def setErrno (errno : ErrorCode) : Decoder Unit :=
  fun session => ((), { session with stream := session.stream.setErrno errno })

/-- A failed `STREAM_ASSERT` on an element count. -/
def refuse (size : Nat) : Decoder Unit := fun session =>
  ((), ⟨session.stream.setErrno .trapOutOfCapacity, .refused size :: session.trace⟩)

variable (environment : Environment)

/-- `read`: the bytes, absent when it returns false. -/
def read (size : Address) : Decoder (Option (List UInt8)) := fun session =>
  match session.stream.read environment.memory size with
  | (none, stream) => (none, ⟨stream, .short :: session.trace⟩)
  | (some bytes, stream) =>
      (some bytes, ⟨stream, .loaded session.stream.pos size.toNat :: session.trace⟩)

/-- `get`: the byte, absent when it returns false. -/
def get : Decoder (Option UInt8) := fun session =>
  match session.stream.get environment.memory with
  | (none, stream) => (none, ⟨stream, .short :: session.trace⟩)
  | (some byte, stream) => (some byte, ⟨stream, .loaded session.stream.pos 1 :: session.trace⟩)

/-- A shift of a 32-bit operand; its result is defined for counts below 32. -/
def shift (operation : BitVec 32 → Nat → BitVec 32) (bits : BitVec 32) (count : Int) :
    Decoder (BitVec 32) := fun session =>
  if 0 ≤ count ∧ count < 32 then (operation bits count.toNat, session)
  else (environment.undefinedShift session.trace bits count,
    { session with trace := .undefinedShift count :: session.trace })

/-- What an uninitialized integer variable holds. -/
def uninitialized (width : Nat) : Decoder (BitVec width) := fun session =>
  (environment.uninitialized session.trace width, session)

variable {environment}

/-- A shift leaves the stream alone. -/
theorem shift_stream {operation : BitVec 32 → Nat → BitVec 32} {bits : BitVec 32} {count : Int}
    (session : Session) :
    ((shift environment operation bits count).run session).2.stream = session.stream := by
  change (shift environment operation bits count session).2.stream = session.stream
  rw [shift]
  split <;> rfl

/-- A shift by a count out of range is noted. -/
theorem shift_outside {operation : BitVec 32 → Nat → BitVec 32} {bits : BitVec 32} {count : Int}
    (outside : ¬(0 ≤ count ∧ count < 32)) (session : Session) :
    ((shift environment operation bits count).run session).2 =
      { session with trace := .undefinedShift count :: session.trace } := by
  change (shift environment operation bits count session).2 = _
  rw [shift, if_neg outside]

/-- A byte that was got lies before the end, and the position is behind it. -/
theorem get_some {session after : Session} {byte : UInt8}
    (got : (get environment).run session = (some byte, after)) :
    session.stream.pos < session.stream.end_ ∧
      after.stream = { session.stream with pos := session.stream.pos + 1 } := by
  change get environment session = (some byte, after) at got
  rw [get, DataStream.get] at got
  by_cases inside : session.stream.pos < session.stream.end_
  · rw [if_pos inside] at got
    refine ⟨inside, ?_⟩
    cases got
    rfl
  · rw [if_neg inside] at got
    cases got

end Session
end XProject.Base
