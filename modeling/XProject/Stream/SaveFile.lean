import XProject.Stream.FileStream
import XProject.Stream.Reuse

/-!
# Saving a buffer to a file

`OutputBuffer::WriteToFile` writes the whole buffer with one `fwrite` and closes the file
on every way out. A program that writes to a `MemoryStream` and saves its buffer leaves the
file that the same writes leave through a `FileStream`.
-/

namespace XProject.Base

open XProject.Std

/-- The C library's files, with the `fwrite` that counts single bytes. -/
structure ByteStdio extends Stdio where
  /-- `fwrite(data, 1, size, file)`: the number of bytes written. -/
  fwriteBytes : List UInt8 → File → Nat × File
  fwriteBytes_done : ∀ data file next, fwriteBytes data file = (data.length, next) →
    bytes next = (bytes file).write (position file) data

/-- Files kept in memory, as large as a position can be. -/
def ByteStdio.inMemory : ByteStdio where
  toStdio := .inMemory
  fwriteBytes data file :=
    if fits : file.2.val + data.length < 2 ^ 63 then
      (data.length, file.1.write file.2 data, ⟨file.2 + data.length, fits⟩)
    else (0, file)
  fwriteBytes_done := by
    intro data file next done
    split at done
    · cases done
      rfl
    · have none : 0 = data.length := congrArg Prod.fst done
      have bound := file.2.property
      omega

namespace OutputBuffer

/-- `WriteToFile`: the result, and the files closed, as they were then. -/
def writeToFile (stdio : ByteStdio) (filename : String) (data : List UInt8) :
    Result × List stdio.File :=
  match stdio.fopen filename with
  | none => (.error, [])
  | some file =>
      if data.isEmpty then (.ok, [file])
      else
        match stdio.fwriteBytes data file with
        | (bytes, file) =>
            if bytes ≤ 0 ∨ bytes ≠ data.length then (.error, [file]) else (.ok, [file])

variable {stdio : ByteStdio} {filename : String} {data : List UInt8}

/-- Saving succeeds exactly when the file is opened and takes every byte. -/
theorem writeToFile_ok_iff :
    (writeToFile stdio filename data).1 = .ok ↔ ∃ file, stdio.fopen filename = some file ∧
      (data ≠ [] → (stdio.fwriteBytes data file).1 = data.length) := by
  unfold writeToFile
  cases stdio.fopen filename with
  | none => simp
  | some file =>
      simp only [List.isEmpty_iff, Option.some.injEq, exists_eq_left']
      by_cases empty : data = []
      · simp [empty]
      · have positive : 0 < data.length := List.length_pos_iff.mpr empty
        by_cases whole : (stdio.fwriteBytes data file).1 = data.length
        · have right : ¬ ((stdio.fwriteBytes data file).1 ≤ 0 ∨
              (stdio.fwriteBytes data file).1 ≠ data.length) := by omega
          rw [if_neg empty, if_neg right]
          exact iff_of_true rfl fun _ => whole
        · rw [if_neg empty, if_pos (.inr whole)]
          exact iff_of_false (fun same => by cases same) fun takes => whole (takes empty)

/-- What was saved is the buffer. -/
theorem writeToFile_saves (saved : (writeToFile stdio filename data).1 = .ok) :
    ∃ file, (writeToFile stdio filename data).2 = [file] ∧
      (stdio.bytes file).contents = data := by
  obtain ⟨opened, fopen, takes⟩ := writeToFile_ok_iff.mp saved
  obtain ⟨blank, start⟩ := stdio.fopen_opened filename opened fopen
  unfold writeToFile
  rw [fopen]
  by_cases empty : data = []
  · subst empty
    exact ⟨opened, rfl, by rw [blank]; rfl⟩
  · have whole := takes empty
    have done := stdio.fwriteBytes_done data opened (stdio.fwriteBytes data opened).2
      (Prod.ext whole rfl)
    have positive : 0 < data.length := List.length_pos_iff.mpr empty
    refine ⟨(stdio.fwriteBytes data opened).2, ?_, ?_⟩
    · simp only [List.isEmpty_iff, if_neg empty]
      split <;> rfl
    · rw [done, blank, start]
      exact (Growable.contents_append rfl).trans (List.nil_append data)

end OutputBuffer

/-! ## The two ways to a file -/

variable {Log MemoryLog : Type} [LogWriter Log] [LogWriter MemoryLog]

/-- Whatever is written, sequentially or at offsets: while stdio performs the writes of a
file stream, the same writes to a memory stream answer the same, and saving the buffer it
releases either reports an error or leaves a file with the bytes of the file stream's. -/
theorem saved_as_written (stdio : ByteStdio) {filename : String} {opened : stdio.File}
    (fopen : stdio.fopen filename = some opened) (logStream : Option Log)
    (memoryLog : Option MemoryLog) (calls : List Call)
    (performed : ∀ step ∈ (Stream.machine FileStream.observe).steps
      (FileStream.open_ stdio.toStdio filename logStream) calls,
      FileStream.CallPerformed step.1 step.2) :
    ∃ outputs stream memory file data,
      (Stream.machine FileStream.observe).run
        (FileStream.open_ stdio.toStdio filename logStream) calls = some (outputs, stream) ∧
      (Stream.machine FileStream.observe).run (MemoryStream.new memoryLog) calls =
        some (outputs, memory) ∧
      stream.impl.file = some file ∧
      (MemoryStream.releaseOutputBuffer memory).1 = some data ∧
      ∀ other, (OutputBuffer.writeToFile stdio other data).1 = .ok →
        ∃ saved, (OutputBuffer.writeToFile stdio other data).2 = [saved] ∧
          (stdio.bytes saved).contents = (stdio.bytes file).contents := by
  obtain ⟨outputs, stream, memory, run, memoryRun, agrees, _⟩ :=
    FileStream.memorySimulation.run_eq (FileStream.open_agrees fopen logStream memoryLog) performed
  obtain ⟨bytes, file, stands, buf⟩ := agrees.stands
  refine ⟨outputs, stream, memory, file, _, run, memoryRun, stands.handle, buf, ?_⟩
  intro other saved
  obtain ⟨last, closed, contents⟩ := OutputBuffer.writeToFile_saves saved
  exact ⟨last, closed, by rw [contents, stands.bytes]⟩

/-- A write beyond the end and one back at the start, with a gap of zeros between them. -/
theorem saved_as_written_twice :
    let calls : List Call := [.writeDataAt 3 ⟨[9], none, .no, by decide⟩,
      .writeData ⟨[1, 2], none, .no, by decide⟩]
    let start : Stream (FileStream .inMemory) Empty := FileStream.open_ .inMemory "out" none
    ∃ outputs stream memory file data,
      (Stream.machine FileStream.observe).run start calls = some (outputs, stream) ∧
      (Stream.machine FileStream.observe).run (MemoryStream.new (none : Option Empty)) calls =
        some (outputs, memory) ∧
      stream.impl.file = some file ∧
      (MemoryStream.releaseOutputBuffer memory).1 = some data ∧
      ∀ other, (OutputBuffer.writeToFile .inMemory other data).1 = .ok →
        ∃ saved, (OutputBuffer.writeToFile .inMemory other data).2 = [saved] ∧
          (ByteStdio.inMemory.bytes saved).contents = (Stdio.inMemory.bytes file).contents :=
  saved_as_written .inMemory rfl none none _ (by decide)

end XProject.Base
