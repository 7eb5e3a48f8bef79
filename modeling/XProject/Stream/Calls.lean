import XProject.Std.Machine
import XProject.Stream.Stream

/-!
# Every call a caller makes on an output stream

`MoveData`, `AddOffset` and `ClearOffset` complete the calls of `Stream`. A
write and a move are one attempt each: refused after an error, otherwise logged
and handed to the implementation. `Stream.machine` takes one call at a time.
-/

namespace XProject.Base

open XProject.Std

/-- The virtual members of a stream class, `MoveDataImpl` included. -/
class MovableImpl (Impl : Type) extends StreamImpl Impl where
  moveDataImpl : (dstOffset srcOffset size : Address) → Impl → Option (Result × Impl)

/-- What a stream does to its log stream, the line printed by a move included. -/
class LogWriter (Log : Type) extends LogStream Log where
  writef : (format : String) → (arguments : List Address) → Log → Log

instance : LogWriter Empty where
  writef _ _ log := log

namespace Stream

section Attempt

variable {Impl Log : Type}

/-- What a write and a move share: nothing after an error, otherwise a line in
the log and the implementation's result. -/
def attempt (line : Log → Log) (effect : Impl → Option (Result × Impl))
    (stream : Stream Impl Log) : Option (Stream Impl Log) :=
  if stream.result = .error then some stream
  else
    match effect stream.impl with
    | none => none
    | some (result, impl) => some { stream with
        logStream := stream.logStream.map line
        result := result
        impl := impl }

/-- An attempt that has a result was refused, or the implementation gave one. -/
theorem attempt_eq_some {line : Log → Log} {effect : Impl → Option (Result × Impl)}
    {stream next : Stream Impl Log} (made : attempt line effect stream = some next) :
    (stream.result = .error ∧ next = stream) ∨
      (stream.result = .ok ∧ ∃ result impl, effect stream.impl = some (result, impl) ∧
        next = { stream with
          logStream := stream.logStream.map line, result := result, impl := impl }) := by
  unfold attempt at made
  cases before : stream.result with
  | error =>
      rw [before, if_pos rfl] at made
      exact .inl ⟨rfl, (Option.some.inj made).symm⟩
  | ok =>
      rw [before, if_neg (by decide)] at made
      cases given : effect stream.impl with
      | none => simp [given] at made
      | some answer =>
          rw [given] at made
          exact .inr ⟨rfl, answer.1, answer.2, rfl, (Option.some.inj made).symm⟩

/-- An attempt without a result is one the implementation has none for. -/
theorem attempt_eq_none {line : Log → Log} {effect : Impl → Option (Result × Impl)}
    {stream : Stream Impl Log} (undefined : attempt line effect stream = none) :
    stream.result = .ok ∧ effect stream.impl = none := by
  unfold attempt at undefined
  cases before : stream.result with
  | error => simp [before] at undefined
  | ok =>
      rw [before, if_neg (by decide)] at undefined
      cases given : effect stream.impl with
      | none => exact ⟨rfl, rfl⟩
      | some answer => simp [given] at undefined

/-- Without an error an attempt does what the implementation does. -/
theorem attempt_of_ok {line : Log → Log} {effect : Impl → Option (Result × Impl)}
    {stream : Stream Impl Log} {result : Result} {impl : Impl} (live : stream.result = .ok)
    (given : effect stream.impl = some (result, impl)) :
    attempt line effect stream = some { stream with
      logStream := stream.logStream.map line, result := result, impl := impl } := by
  rw [attempt, live, if_neg (by decide), given]

end Attempt

variable {Impl Log : Type} [MovableImpl Impl] [LogWriter Log]

/-- The format `MoveData` logs with, `PRIzx` spelled out. -/
def moveFormat : String := "; move data: [%zx, %zx) -> [%zx, %zx)\n"

/-- `MoveData`. -/
def moveData (dstOffset srcOffset size : Address) (stream : Stream Impl Log) :
    Option (Stream Impl Log) :=
  if stream.result = .error then some stream
  else
    match MovableImpl.moveDataImpl dstOffset srcOffset size stream.impl with
    | none => none
    | some (result, impl) => some { stream with
        logStream := stream.logStream.map (LogWriter.writef moveFormat
          [srcOffset, srcOffset + size, dstOffset, dstOffset + size])
        result := result
        impl := impl }

/-- `AddOffset`. -/
def addOffset (delta : Address) (stream : Stream Impl Log) : Stream Impl Log :=
  { stream with offset := stream.offset + delta }

/-- `ClearOffset`. -/
def clearOffset (stream : Stream Impl Log) : Stream Impl Log :=
  { stream with offset := 0 }

end Stream

/-- The arguments of a write: a `size_t` counts the bytes. -/
structure Chunk where
  src : List UInt8
  desc : Desc
  printChars : PrintChars
  fits : src.length < 2 ^ 64

/-- One call on a stream. -/
inductive Call where
  | writeData (chunk : Chunk)
  | writeDataAt (at_ : Address) (chunk : Chunk)
  | moveData (dstOffset srcOffset size : Address)
  | addOffset (delta : Address)
  | clearOffset

/-- The calls that reach the implementation. -/
def Call.Accesses : Call → Prop
  | .writeData _ | .writeDataAt _ _ | .moveData _ _ _ => True
  | .addOffset _ | .clearOffset => False

/-- The bytes of a sequence of writes. -/
def Chunk.bytes (chunks : List Chunk) : List UInt8 := chunks.flatMap Chunk.src

namespace Stream

variable {Impl Log Output : Type} [MovableImpl Impl] [LogWriter Log]

/-- Perform a call. -/
def perform : Call → Stream Impl Log → Option (Stream Impl Log)
  | .writeData chunk => writeData chunk.src chunk.desc chunk.printChars
  | .writeDataAt at_ chunk => writeDataAt at_ chunk.src chunk.desc chunk.printChars
  | .moveData dstOffset srcOffset size => moveData dstOffset srcOffset size
  | .addOffset delta => fun stream => some (stream.addOffset delta)
  | .clearOffset => fun stream => some stream.clearOffset

/-- A stream taking one call at a time, observed after each. -/
@[reducible] def machine (observe : Stream Impl Log → Output) : Machine Call Output where
  State := Stream Impl Log
  step stream call := (perform call stream).map fun next => (observe next, next)

/-- The machine that takes `WriteData` calls only. -/
@[reducible] def writer (observe : Stream Impl Log → Output) : Machine Chunk Output :=
  (machine observe).comap Call.writeData

/-- A step of the machine is a call that has a result. -/
theorem machine_step_eq_some {observe : Stream Impl Log → Output} {call : Call}
    {stream next : Stream Impl Log} {output : Output} :
    (machine observe).step stream call = some (output, next) ↔
      perform call stream = some next ∧ observe next = output := by
  simp only [machine, Option.map_eq_some_iff, Prod.mk.injEq]
  constructor
  · rintro ⟨_, performed, seen, rfl⟩
    exact ⟨performed, seen⟩
  · rintro ⟨performed, seen⟩
    exact ⟨next, performed, seen, rfl⟩

theorem foldl_append_bytes (data : List UInt8) (chunks : List Chunk) :
    chunks.foldl (fun written chunk => written ++ chunk.src) data = data ++ Chunk.bytes chunks := by
  induction chunks generalizing data with
  | nil => simp [Chunk.bytes]
  | cons chunk rest ih => simp [ih, Chunk.bytes]

/-- A stream each of whose allowed `WriteData` calls appends to what it holds
performs a whole allowed sequence of them, and holds the bytes of all in the end. -/
theorem writer_appends {observe : Stream Impl Log → Output}
    {Holds : Stream Impl Log → List UInt8 → Prop} {Allowed : Stream Impl Log → Chunk → Prop}
    (append : ∀ stream data chunk, Holds stream data → Allowed stream chunk →
      ∃ next, stream.perform (.writeData chunk) = some next ∧ Holds next (data ++ chunk.src))
    {stream : Stream Impl Log} {data : List UInt8} (holds : Holds stream data)
    {chunks : List Chunk}
    (allowed : ∀ step ∈ (writer observe).steps stream chunks, Allowed step.1 step.2) :
    ∃ outputs final, (writer observe).run stream chunks = some (outputs, final) ∧
      Holds final (data ++ Chunk.bytes chunks) := by
  rw [← foldl_append_bytes]
  refine @Machine.run_foldl _ _ (writer observe) _ Holds _ Allowed ?_ _ _ holds _ allowed
  intro state value chunk holdsThere allowedThere
  obtain ⟨next, performed, holdsNext⟩ := append state value chunk holdsThere allowedThere
  exact ⟨_, next, machine_step_eq_some.mpr ⟨performed, rfl⟩, holdsNext⟩

theorem writeDataAt_eq_attempt (at_ : Address) (src : List UInt8) (desc : Desc)
    (printChars : PrintChars) (stream : Stream Impl Log) :
    writeDataAt at_ src desc printChars stream =
      attempt (LogStream.writeMemoryDump src at_ printChars desc)
        (StreamImpl.writeDataImpl at_ src) stream := rfl

/-- A `WriteData` that has a result is an attempt followed by the advance. -/
theorem writeData_eq_some {chunk : Chunk} {stream next : Stream Impl Log}
    (performed : perform (.writeData chunk) stream = some next) :
    ∃ attempted,
      attempt (LogStream.writeMemoryDump chunk.src stream.offset chunk.printChars chunk.desc)
        (StreamImpl.writeDataImpl stream.offset chunk.src) stream = some attempted ∧
      next = { attempted with offset := attempted.offset + UInt64.ofNat chunk.src.length } := by
  simp only [perform, writeData, writeDataAt_eq_attempt] at performed
  split at performed
  · cases performed
  · rename_i attempted made
    exact ⟨attempted, made, (Option.some.inj performed).symm⟩

/-- Without an error `WriteData` is the implementation's write at the offset, then
the advance. -/
theorem writeData_of_ok {chunk : Chunk} {stream : Stream Impl Log} {result : Result} {impl : Impl}
    (live : stream.result = .ok)
    (given : StreamImpl.writeDataImpl stream.offset chunk.src stream.impl = some (result, impl)) :
    stream.writeData chunk.src chunk.desc chunk.printChars = some {
      offset := stream.offset + UInt64.ofNat chunk.src.length
      result := result
      logStream := stream.logStream.map
        (LogStream.writeMemoryDump chunk.src stream.offset chunk.printChars chunk.desc)
      impl := impl } := by
  rw [writeData, writeDataAt_eq_attempt, attempt_of_ok live given]

end Stream

namespace MemoryStream

/-- `memmove` inside a vector; a range beyond the vector has no defined result. -/
def moveWithin (data : List UInt8) (target source size : Nat) : Option (List UInt8) :=
  if source + size ≤ data.length then overwrite data target ((data.drop source).take size)
  else none

/-- `MoveDataImpl`. -/
def moveDataImpl (dstOffset srcOffset size : Address) (memory : MemoryStream) :
    Option (Result × MemoryStream) :=
  if size = 0 then some (.ok, memory)
  else
    match memory.buf with
    | none => none
    | some data =>
        let srcEnd := srcOffset + size
        let dstEnd := dstOffset + size
        let end_ := if srcEnd > dstEnd then srcEnd else dstEnd
        let grown := if end_.toNat > data.length then resize data end_.toNat else data
        match moveWithin grown dstOffset.toNat srcOffset.toNat size.toNat with
        | none => none
        | some moved => some (.ok, ⟨some moved⟩)

instance : MovableImpl MemoryStream where
  moveDataImpl := moveDataImpl

end MemoryStream
end XProject.Base
