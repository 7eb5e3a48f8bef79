import XProject.Stream.GrowableMemory

/-!
# The file stream of `stream/file-stream.h`

`FileStream` hands its writes to stdio and remembers in a second offset where
the file stands, so that it seeks only when a write goes elsewhere. While stdio
succeeds, a file stream and a memory stream agree call by call, and that offset
is the position of the file.
-/

namespace XProject.Base

open XProject.Std

/-- What a file stream relies on from stdio. A call may fail, and a failing one
may leave the file in any state. -/
structure Stdio where
  File : Type
  bytes : File → Growable UInt8
  position : File → Nat
  /-- `fopen(filename, "wb")`. -/
  fopen : String → Option File
  /-- `fseek(file, offset, SEEK_SET)`: zero for success. -/
  fseek : Int64 → File → Int32 × File
  /-- `fwrite(data, size, 1, file)`: the number of items written. -/
  fwrite : List UInt8 → File → Nat × File
  fopen_opened : ∀ filename file, fopen filename = some file →
    bytes file = .empty ∧ position file = 0
  fseek_done : ∀ offset file next, fseek offset file = (0, next) →
    bytes next = bytes file ∧ (position next : Int) = offset.toInt
  fwrite_done : ∀ data file next, fwrite data file = (1, next) →
    bytes next = (bytes file).write (position file) data ∧
      position next = position file + data.length
  /-- A file has no position that a `long` cannot tell. -/
  position_representable : ∀ file, position file < 2 ^ 63

/-- Files kept in memory: a call fails only where it has to. -/
def Stdio.inMemory : Stdio where
  File := Growable UInt8 × { position : Nat // position < 2 ^ 63 }
  bytes file := file.1
  position file := file.2
  fopen _ := some (.empty, ⟨0, by decide⟩)
  fseek offset file :=
    if negative : offset.toInt < 0 then (-1, file)
    else (0, file.1, ⟨offset.toInt.toNat, by have := offset.toInt_lt; omega⟩)
  fwrite data file :=
    if fits : data ≠ [] ∧ file.2.val + data.length < 2 ^ 63 then
      (1, file.1.write file.2 data, ⟨file.2 + data.length, fits.2⟩)
    else (0, file)
  fopen_opened := by
    rintro _ _ ⟨⟩
    exact ⟨rfl, rfl⟩
  fseek_done := by
    intro offset file next done
    split at done
    · cases done
    · cases done
      refine ⟨rfl, ?_⟩
      simp only
      omega
  fwrite_done := by
    intro data file next done
    split at done
    · cases done
      exact ⟨rfl, rfl⟩
    · cases done
  position_representable file := file.2.property

/-- The fields of `FileStream`. -/
structure FileStream (stdio : Stdio) where
  file : Option stdio.File
  offset : Address
  shouldClose : Bool

namespace FileStream

variable {stdio : Stdio}

/-- The end of `WriteDataImpl`: the write where the file stands, then the advance. -/
def writeHere (src : List UInt8) (file : stdio.File) (stream : FileStream stdio) :
    Result × FileStream stdio :=
  match stdio.fwrite src file with
  | (items, file) =>
      if items ≠ 1 then (.error, { stream with file := some file })
      else (.ok, { stream with
        file := some file, offset := stream.offset + UInt64.ofNat src.length })

/-- `WriteDataImpl`. -/
def writeDataImpl (at_ : Address) (src : List UInt8) (stream : FileStream stdio) :
    Option (Result × FileStream stdio) :=
  match stream.file with
  | none => some (.error, stream)
  | some file =>
      if src.length = 0 then some (.ok, stream)
      else if at_ ≠ stream.offset then
        match stdio.fseek at_.toInt64 file with
        | (status, file) =>
            if status ≠ 0 then some (.error, { stream with file := some file })
            else some (writeHere src file { stream with offset := at_ })
      else some (writeHere src file stream)

/-- `MoveDataImpl`: not implemented. -/
def moveDataImpl (size : Address) (stream : FileStream stdio) :
    Option (Result × FileStream stdio) :=
  match stream.file with
  | none => some (.error, stream)
  | some _ => if size = 0 then some (.ok, stream) else some (.error, stream)

instance : MovableImpl (FileStream stdio) where
  writeDataImpl := writeDataImpl
  moveDataImpl _ _ := moveDataImpl

/-- `FileStream(filename, log_stream)`. -/
def open_ (stdio : Stdio) {Log : Type} (filename : String) (logStream : Option Log) :
    Stream (FileStream stdio) Log where
  offset := 0
  result := .ok
  logStream := logStream
  impl := {
    file := stdio.fopen filename
    offset := 0
    shouldClose := (stdio.fopen filename).isSome }

/-- Every stdio call that `WriteDataImpl` makes succeeds. -/
def StdioSucceeds (at_ : Address) (src : List UInt8) (stream : FileStream stdio) : Prop :=
  match stream.file with
  | none => True
  | some file =>
      src.length ≠ 0 →
        if at_ ≠ stream.offset then
          (stdio.fseek at_.toInt64 file).1 = 0 ∧
            (stdio.fwrite src (stdio.fseek at_.toInt64 file).2).1 = 1
        else (stdio.fwrite src file).1 = 1

instance (at_ : Address) (src : List UInt8) (stream : FileStream stdio) :
    Decidable (stream.StdioSucceeds at_ src) := by
  unfold StdioSucceeds
  cases stream.file <;> infer_instance

/-- The file holds `memory` and stands at the remembered offset. -/
structure Stands (stream : FileStream stdio) (memory : Growable UInt8) (file : stdio.File) :
    Prop where
  handle : stream.file = some file
  bytes : stdio.bytes file = memory
  position : stream.offset.toNat = stdio.position file

/-- A write that stdio performs where the file stands. -/
theorem Stands.writeHere {stream : FileStream stdio} {memory : Growable UInt8}
    {file : stdio.File} (stands : Stands stream memory file) {src : List UInt8}
    (written : (stdio.fwrite src file).1 = 1) :
    stream.offset.toNat + src.length < 2 ^ 63 ∧
      ∃ next last, stream.writeHere src file = (.ok, next) ∧
        Stands next (memory.write stream.offset.toNat src) last := by
  obtain ⟨bytes, position⟩ := stdio.fwrite_done src file (stdio.fwrite src file).2
    (Prod.ext written rfl)
  have fits : stream.offset.toNat + src.length < 2 ^ 63 := by
    rw [stands.position, ← position]
    exact stdio.position_representable _
  refine ⟨fits, { stream with
    file := some (stdio.fwrite src file).2
    offset := stream.offset + UInt64.ofNat src.length }, _, ?_, rfl, ?_, ?_⟩
  · simp only [FileStream.writeHere, written, ne_eq, not_true_eq_false, if_false]
  · rw [bytes, stands.bytes, stands.position]
  · rw [position, ← stands.position, UInt64.toNat_add, UInt64.toNat_ofNat']
    omega

/-- `WriteDataImpl` writes the memory at its offset, by whichever cursor. -/
theorem Stands.writeDataImpl {stream : FileStream stdio} {memory : Growable UInt8}
    {file : stdio.File} (stands : Stands stream memory file) {at_ : Address} {src : List UInt8}
    (representable : at_.toNat < 2 ^ 63) (succeeds : stream.StdioSucceeds at_ src) :
    at_.toNat + src.length < 2 ^ 63 ∧
      ∃ next last, writeDataImpl at_ src stream = some (.ok, next) ∧
        Stands next (memory.write at_.toNat src) last := by
  unfold FileStream.writeDataImpl
  simp only [StdioSucceeds, stands.handle] at succeeds
  simp only [stands.handle]
  by_cases empty : src.length = 0
  · refine ⟨by omega, stream, file, by rw [if_pos empty], ?_⟩
    simpa [Growable.write, List.length_eq_zero_iff.mp empty] using stands
  · rw [if_neg empty]
    by_cases elsewhere : at_ ≠ stream.offset
    · simp only [if_pos elsewhere] at succeeds ⊢
      obtain ⟨sought, written⟩ := succeeds empty
      obtain ⟨bytes, position⟩ := stdio.fseek_done at_.toInt64 file
        (stdio.fseek at_.toInt64 file).2 (Prod.ext sought rfl)
      have moved : Stands { stream with file := some (stdio.fseek at_.toInt64 file).2, offset := at_ }
          memory (stdio.fseek at_.toInt64 file).2 := by
        refine ⟨rfl, bytes.trans stands.bytes, ?_⟩
        have below : 2 * at_.toBitVec.toNat < 2 ^ 64 := by
          rw [UInt64.toNat_toBitVec]
          omega
        have exact_ : at_.toInt64.toInt = at_.toNat := by
          rw [Int64.toInt, UInt64.toBitVec_toInt64, BitVec.toInt_eq_toNat_of_lt below,
            UInt64.toNat_toBitVec]
        have standing : stdio.position (stdio.fseek at_.toInt64 file).2 = at_.toNat := by omega
        exact standing.symm
      obtain ⟨fits, next, last, here, standsNext⟩ := moved.writeHere written
      refine ⟨fits, next, last, ?_, standsNext⟩
      simp only [sought, ne_eq, not_true_eq_false, if_false]
      exact congrArg some here
    · simp only [if_neg elsewhere] at succeeds ⊢
      have same : at_ = stream.offset := not_not.mp elsewhere
      subst same
      obtain ⟨fits, next, last, here, standsNext⟩ := stands.writeHere (succeeds empty)
      exact ⟨fits, next, last, congrArg some here, standsNext⟩

/-- A write at an offset that a `long` represents, all of whose stdio calls
succeed. A stream that has failed makes none. -/
def Performed {Log : Type} (stream : Stream (FileStream stdio) Log) (at_ : Address)
    (src : List UInt8) : Prop :=
  stream.result = .ok →
    at_.toNat < 2 ^ 63 ∧ stream.impl.StdioSucceeds at_ src

instance {Log : Type} (stream : Stream (FileStream stdio) Log) (at_ : Address)
    (src : List UInt8) : Decidable (Performed stream at_ src) := by
  unfold Performed
  infer_instance

/-- The same for a call, which is a write. -/
def CallPerformed {Log : Type} (stream : Stream (FileStream stdio) Log) : Call → Prop
  | .writeData chunk => Performed stream stream.offset chunk.src
  | .writeDataAt at_ chunk => Performed stream at_ chunk.src
  | .moveData _ _ _ | .addOffset _ | .clearOffset => False

instance {Log : Type} (stream : Stream (FileStream stdio) Log) (call : Call) :
    Decidable (CallPerformed stream call) :=
  match call with
  | .writeData chunk => inferInstanceAs (Decidable (Performed stream stream.offset chunk.src))
  | .writeDataAt at_ chunk => inferInstanceAs (Decidable (Performed stream at_ chunk.src))
  | .moveData _ _ _ | .addOffset _ | .clearOffset => .isFalse id

/-- A live file stream and a live memory stream at one offset, with one contents. -/
structure Agrees {Log MemoryLog : Type} (stream : Stream (FileStream stdio) Log)
    (memory : Stream MemoryStream MemoryLog) : Prop where
  stands : ∃ bytes file, Stands stream.impl bytes file ∧ memory.impl.buf = some bytes.contents
  offset : stream.offset = memory.offset
  result : stream.result = .ok
  memoryResult : memory.result = .ok

variable {Log MemoryLog : Type}

/-- What a caller sees of any stream: its offset and its result. -/
def observe {Impl Log : Type} (stream : Stream Impl Log) : Address × Result :=
  (stream.offset, stream.result)

/-- One performed write at one offset keeps the implementations together. -/
theorem Agrees.writeDataImpl {stream : Stream (FileStream stdio) Log}
    {memory : Stream MemoryStream MemoryLog} (agrees : Agrees stream memory) {at_ : Address}
    {src : List UInt8} (performed : Performed stream at_ src) :
    ∃ next memoryNext bytes file,
      StreamImpl.writeDataImpl at_ src stream.impl = some (Result.ok, next) ∧
      StreamImpl.writeDataImpl at_ src memory.impl = some (Result.ok, memoryNext) ∧
      Stands next bytes file ∧ memoryNext.buf = some bytes.contents := by
  obtain ⟨bytes, file, stands, buf⟩ := agrees.stands
  obtain ⟨representable, succeeds⟩ := performed agrees.result
  obtain ⟨fits, next, last, written, standsNext⟩ := stands.writeDataImpl representable succeeds
  have impl : memory.impl = ⟨some bytes.contents⟩ := congrArg MemoryStream.mk buf
  refine ⟨next, _, _, last, written, ?_, standsNext, rfl⟩
  rw [impl]
  exact MemoryStream.writeDataImpl_contents (by omega)

/-- A file stream opened by name starts as a fresh memory stream does. -/
theorem open_agrees {filename : String} {file : stdio.File}
    (opened : stdio.fopen filename = some file) (logStream : Option Log)
    (memoryLog : Option MemoryLog) :
    Agrees (open_ stdio filename logStream) (MemoryStream.new memoryLog) := by
  obtain ⟨bytes, position⟩ := stdio.fopen_opened filename file opened
  exact ⟨⟨.empty, file, ⟨opened, bytes, position.symm⟩, rfl⟩, rfl, rfl, rfl⟩

variable [LogWriter Log] [LogWriter MemoryLog]

/-- The lockstep simulation of a memory stream by a file stream. -/
def memorySimulation : Machine.GuardedSimulation
    (Stream.machine (@observe (FileStream stdio) Log))
    (Stream.machine (@observe MemoryStream MemoryLog)) CallPerformed where
  Related := Agrees
  step stream memory call agrees performed := by
    cases call with
    | writeData chunk =>
        obtain ⟨next, memoryNext, bytes, file, written, memoryWritten, stands, buf⟩ :=
          agrees.writeDataImpl performed
        rw [agrees.offset] at memoryWritten
        refine ⟨_, _, _, Stream.machine_step_eq_some.mpr
          ⟨Stream.writeData_of_ok agrees.result written, rfl⟩,
          Stream.machine_step_eq_some.mpr
            ⟨Stream.writeData_of_ok agrees.memoryResult memoryWritten, ?_⟩,
          ⟨bytes, file, stands, buf⟩, ?_, rfl, rfl⟩
        · simp only [observe, agrees.offset]
        · simp only [agrees.offset]
    | writeDataAt at_ chunk =>
        obtain ⟨next, memoryNext, bytes, file, written, memoryWritten, stands, buf⟩ :=
          agrees.writeDataImpl performed
        refine ⟨_, _, _, Stream.machine_step_eq_some.mpr
          ⟨Stream.attempt_of_ok agrees.result written, rfl⟩,
          Stream.machine_step_eq_some.mpr
            ⟨Stream.attempt_of_ok agrees.memoryResult memoryWritten, ?_⟩,
          ⟨bytes, file, stands, buf⟩, agrees.offset, rfl, rfl⟩
        simp only [observe, agrees.offset]
    | moveData _ _ _ => exact performed.elim
    | addOffset _ => exact performed.elim
    | clearOffset => exact performed.elim

/-- On a file stream opened by name and on a fresh memory stream, whatever the
writes are: while stdio succeeds the offset and the result agree after every
call, the file ends up with the bytes of the buffer, and in every state in which
a write can start the file stands at the remembered offset. Log streams are taken to be
given only what they can log. -/
theorem agrees_with_memory {filename : String} {opened : stdio.File}
    (fopen : stdio.fopen filename = some opened) (logStream : Option Log)
    (memoryLog : Option MemoryLog) (calls : List Call)
    (performed : ∀ step ∈ (Stream.machine observe).steps (open_ stdio filename logStream) calls,
      CallPerformed step.1 step.2) :
    (∃ outputs stream memory file,
      (Stream.machine observe).run (open_ stdio filename logStream) calls =
        some (outputs, stream) ∧
      (Stream.machine observe).run (MemoryStream.new memoryLog) calls = some (outputs, memory) ∧
      stream.impl.file = some file ∧ memory.impl.buf = some (stdio.bytes file).contents) ∧
    ∀ stream ∈ (Stream.machine observe).states (open_ stdio filename logStream) calls,
      ∃ file, stream.impl.file = some file ∧ stream.impl.offset.toNat = stdio.position file := by
  obtain ⟨outputs, stream, memory, run, memoryRun, agrees, visited⟩ :=
    memorySimulation.run_eq (open_agrees fopen logStream memoryLog) performed
  obtain ⟨bytes, file, stands, buf⟩ := agrees.stands
  refine ⟨⟨outputs, stream, memory, file, run, memoryRun, stands.handle, ?_⟩, ?_⟩
  · rw [stands.bytes]
    exact buf
  · intro state member
    obtain ⟨_, agreesThere⟩ := visited state member
    obtain ⟨_, there, standsThere, _⟩ := agreesThere.stands
    exact ⟨there, standsThere.handle, standsThere.position⟩

/-- Sequential writes before and after a write far beyond the end of the file. -/
theorem agrees_with_memory_gap :
    let calls : List Call := [.writeData ⟨[1, 2], none, .no, by decide⟩,
      .writeDataAt 6 ⟨[9], none, .no, by decide⟩, .writeData ⟨[3], none, .no, by decide⟩]
    let start : Stream (FileStream .inMemory) Empty := open_ .inMemory "out" none
    (∃ outputs stream memory file,
      (Stream.machine observe).run start calls = some (outputs, stream) ∧
      (Stream.machine observe).run (MemoryStream.new (none : Option Empty)) calls =
        some (outputs, memory) ∧
      stream.impl.file = some file ∧
      memory.impl.buf = some (Stdio.inMemory.bytes file).contents) ∧
    ∀ stream ∈ (Stream.machine observe).states start calls,
      ∃ file, stream.impl.file = some file ∧
        stream.impl.offset.toNat = Stdio.inMemory.position file :=
  agrees_with_memory rfl none none _ (by decide)

end FileStream
end XProject.Base
