import XProject.Stream.FileStream

/-!
# Moving a file stream

`operator=(FileStream &&)` takes over the file and the remembered offset, and
leaves the base class of the receiver as it was; the move constructor applies it
to a default base. The next write therefore starts at the receiver's offset.
`move_transparent_iff` says when that is where the source had stopped.
-/

namespace XProject.Base.FileStream

open XProject.Std

variable {stdio : Stdio} {Log : Type}

/-- `operator=(FileStream &&)`: the receiver and the source afterwards. -/
def assign (receiver source : Stream (FileStream stdio) Log) :
    Stream (FileStream stdio) Log × Stream (FileStream stdio) Log :=
  ({ receiver with impl := source.impl },
    { source with impl := { file := none, offset := 0, shouldClose := false } })

/-- `FileStream(FileStream &&)`: an assignment to a stream whose base is default. -/
def moveConstruct (source : Stream (FileStream stdio) Log) :
    Stream (FileStream stdio) Log × Stream (FileStream stdio) Log :=
  assign {
    offset := 0
    result := .ok
    logStream := none
    impl := { file := none, offset := 0, shouldClose := false } } source

/-- The contents of the file behind a stream. -/
def fileContents (stream : Stream (FileStream stdio) Log) : Option (List UInt8) :=
  stream.impl.file.map fun file => (stdio.bytes file).contents

/-- A live stream that has written exactly `data`, in order. -/
structure Wrote (stream : Stream (FileStream stdio) Log) (data : List UInt8) : Prop where
  stands : ∃ memory file, Stands stream.impl memory file ∧ memory.contents = data
  offset : stream.offset.toNat = data.length
  result : stream.result = .ok

theorem open_wrote {filename : String} {file : stdio.File}
    (opened : stdio.fopen filename = some file) (logStream : Option Log) :
    Wrote (open_ stdio filename logStream) [] := by
  obtain ⟨bytes, position⟩ := stdio.fopen_opened filename file opened
  exact ⟨⟨.empty, file, ⟨opened, bytes, position.symm⟩, rfl⟩, rfl, rfl⟩

theorem Wrote.fileContents {stream : Stream (FileStream stdio) Log} {data : List UInt8}
    (wrote : Wrote stream data) : fileContents stream = some data := by
  obtain ⟨memory, file, stands, contents⟩ := wrote.stands
  rw [FileStream.fileContents, stands.handle, Option.map_some, stands.bytes, contents]

/-- What was written outlives a move exactly to a receiver that stands where the
source stood and has not failed. -/
theorem Wrote.assign {receiver source : Stream (FileStream stdio) Log} {data : List UInt8}
    (wrote : Wrote source data) (offset : receiver.offset = source.offset)
    (result : receiver.result = .ok) : Wrote (assign receiver source).1 data :=
  ⟨wrote.stands, (congrArg UInt64.toNat offset).trans wrote.offset, result⟩

/-- `WriteDataImpl` of a file stream always has a result. -/
theorem writeDataImpl_total (at_ : Address) (src : List UInt8) (stream : FileStream stdio) :
    ∃ result next, writeDataImpl at_ src stream = some (result, next) := by
  unfold writeDataImpl
  split
  · exact ⟨_, _, rfl⟩
  · split
    · exact ⟨_, _, rfl⟩
    · split
      · dsimp only
        split
        · exact ⟨_, _, rfl⟩
        · exact ⟨_, _, rfl⟩
      · exact ⟨_, _, rfl⟩

variable [LogWriter Log]

/-- One performed `WriteData` appends. -/
theorem Wrote.writeData {stream : Stream (FileStream stdio) Log} {data : List UInt8}
    (wrote : Wrote stream data) {chunk : Chunk}
    (performed : Performed stream stream.offset chunk.src) :
    ∃ next, stream.perform (.writeData chunk) = some next ∧ Wrote next (data ++ chunk.src) := by
  obtain ⟨memory, file, stands, contents⟩ := wrote.stands
  obtain ⟨representable, succeeds⟩ := performed wrote.result
  obtain ⟨fits, next, last, written, standsNext⟩ := stands.writeDataImpl representable succeeds
  have atEnd : stream.offset.toNat = memory.length := by
    rw [wrote.offset, ← contents, Growable.length_contents]
  refine ⟨_, Stream.writeData_of_ok wrote.result written, ⟨_, last, standsNext, ?_⟩, ?_, rfl⟩
  · rw [Growable.contents_append atEnd, contents]
  · rw [List.length_append, ← wrote.offset, UInt64.toNat_add, UInt64.toNat_ofNat']
    omega

/-- `WriteData` on a file stream always has a result. -/
theorem writeData_total (stream : Stream (FileStream stdio) Log) (chunk : Chunk) :
    ∃ next, stream.perform (.writeData chunk) = some next := by
  cases live : stream.result with
  | error =>
      refine ⟨{ stream with offset := stream.offset + UInt64.ofNat chunk.src.length }, ?_⟩
      simp only [Stream.perform, Stream.writeData, Stream.writeDataAt, live, if_pos]
  | ok =>
      obtain ⟨result, next, written⟩ := writeDataImpl_total stream.offset chunk.src stream.impl
      exact ⟨_, Stream.writeData_of_ok live written⟩

/-- A run of performed `WriteData` calls appends its bytes. -/
theorem Wrote.run {stream : Stream (FileStream stdio) Log} {data : List UInt8}
    (wrote : Wrote stream data) {chunks : List Chunk}
    (performed : ∀ step ∈ (Stream.writer observe).steps stream chunks,
      Performed step.1 step.1.offset step.2.src) :
    ∃ outputs final, (Stream.writer observe).run stream chunks = some (outputs, final) ∧
      Wrote final (data ++ Chunk.bytes chunks) :=
  Stream.writer_appends (fun _ _ _ holds allowed => holds.writeData allowed) wrote performed

/-- A run of `WriteData` calls on a file stream has a result, whatever fails. -/
theorem run_total (stream : Stream (FileStream stdio) Log) (chunks : List Chunk) :
    ∃ outputs final, (Stream.writer observe).run stream chunks = some (outputs, final) := by
  refine @Machine.run_total _ _ (Stream.writer observe) (fun _ => True) ?_ stream trivial chunks
  intro state chunk _
  obtain ⟨next, taken⟩ := writeData_total state chunk
  exact ⟨_, next, Stream.machine_step_eq_some.mpr ⟨taken, rfl⟩, trivial⟩

/-- Write some chunks to a file opened by name, move the stream into a receiver,
write the others there, with every stdio call of both halves succeeding. The file
ends up with all the bytes, and offset and result are carried over, exactly when
the receiver stands where the first half ended and has not failed. For the move
constructor, whose receiver stands at zero, this is when nothing was written before. -/
theorem move_transparent_iff {filename : String} {opened : stdio.File}
    (fopen : stdio.fopen filename = some opened) (logStream : Option Log)
    (before after : List Chunk) (receiver : Stream (FileStream stdio) Log)
    (performed : ∀ step ∈ (Stream.writer observe).steps (open_ stdio filename logStream) before,
      Performed step.1 step.1.offset step.2.src) :
    ∃ outputs source,
      (Stream.writer observe).run (open_ stdio filename logStream) before =
        some (outputs, source) ∧
      ((∀ step ∈ (Stream.writer observe).steps (assign receiver source).1 after,
          Performed step.1 step.1.offset step.2.src) →
        ∃ later final,
          (Stream.writer observe).run (assign receiver source).1 after = some (later, final) ∧
          ((fileContents final = some (Chunk.bytes before ++ Chunk.bytes after) ∧
              observe (assign receiver source).1 = observe source) ↔
            receiver.offset = UInt64.ofNat (Chunk.bytes before).length ∧
              receiver.result = .ok)) := by
  obtain ⟨outputs, source, run, wrote⟩ := (open_wrote fopen logStream).run performed
  rw [List.nil_append] at wrote
  refine ⟨outputs, source, run, fun performedAfter => ?_⟩
  obtain ⟨later, final, runAfter⟩ := run_total (assign receiver source).1 after
  refine ⟨later, final, runAfter, ?_⟩
  have stopped : source.offset = UInt64.ofNat (Chunk.bytes before).length := by
    rw [← wrote.offset, UInt64.ofNat_toNat]
  rw [← stopped]
  constructor
  · rintro ⟨_, carried⟩
    simp only [observe, assign, Prod.mk.injEq, wrote.result] at carried
    exact carried
  · rintro ⟨offset, result⟩
    obtain ⟨_, _, runHere, wroteFinal⟩ := (wrote.assign offset result).run performedAfter
    cases runAfter.symm.trans runHere
    refine ⟨wroteFinal.fileContents, ?_⟩
    simp only [observe, assign, offset, result, wrote.result]

/-- Two chunks around a move to a receiver that stands where the first one ended. -/
theorem move_transparent_caught_up :
    let chunk : Chunk := ⟨[1, 2, 3], none, .no, by decide⟩
    let start : Stream (FileStream .inMemory) Empty := open_ .inMemory "out" none
    let receiver : Stream (FileStream .inMemory) Empty := ⟨3, .ok, none, none, 0, false⟩
    ∃ outputs source later final,
      (Stream.writer observe).run start [chunk] = some (outputs, source) ∧
      (Stream.writer observe).run (assign receiver source).1 [chunk] = some (later, final) ∧
      ((fileContents final = some (Chunk.bytes [chunk] ++ Chunk.bytes [chunk]) ∧
          observe (assign receiver source).1 = observe source) ↔
        receiver.offset = UInt64.ofNat (Chunk.bytes [chunk]).length ∧
          receiver.result = .ok) := by
  intro chunk start receiver
  obtain ⟨outputs, source, run, goesOn⟩ :=
    @move_transparent_iff .inMemory Empty _ "out" _ rfl none [chunk] [chunk] receiver (by decide)
  cases run
  obtain ⟨later, final, runAfter, carried⟩ := goesOn (by decide)
  exact ⟨_, _, later, final, rfl, runAfter, carried⟩

/-- After a move construction the next write starts at offset zero, over the
bytes that the source has written there. -/
theorem move_overwrites_start :
    let start : Stream (FileStream .inMemory) Empty := open_ .inMemory "out" none
    let before : List Chunk := [⟨[1, 2, 3], none, .no, by decide⟩]
    let after : List Chunk := [⟨[4], none, .no, by decide⟩]
    ∃ outputs source later final,
      (Stream.writer observe).run start before = some (outputs, source) ∧
      (Stream.writer observe).run (moveConstruct source).1 after = some (later, final) ∧
      (∀ step ∈ (Stream.writer observe).steps start before ++
          (Stream.writer observe).steps (moveConstruct source).1 after,
        Performed step.1 step.1.offset step.2.src) ∧
      fileContents final = some [4, 2, 3] ∧
      fileContents final ≠ some (Chunk.bytes before ++ Chunk.bytes after) ∧
      (moveConstruct source).1.offset ≠ source.offset :=
  ⟨_, _, _, _, rfl, rfl, by decide, by decide, by decide, by decide⟩

end XProject.Base.FileStream
