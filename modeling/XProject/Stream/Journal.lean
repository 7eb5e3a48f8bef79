import XProject.Std.Lines
import XProject.Stream.GrowableMemory
import XProject.Stream.LogStream

/-!
# The log of a memory stream as a journal

The log names every range that was written, with its bytes, and every range that
was moved. Read line by line and replayed on an empty memory it gives the contents
of the stream.
-/

namespace XProject.Base.Journal

open XProject.Std

/-- What one line of a log says. -/
inductive Entry where
  | write (at_ : Nat) (bytes : List UInt8)
  | move (target source size : Nat)
deriving DecidableEq

/-- The ranges of a move, behind the words in front of them. -/
def readMove (text : List UInt8) : Option Entry := do
  let (source, text) ← Hex.readNumber text
  let text ← Lines.skip (literal ", ") text
  let (sourceEnd, text) ← Hex.readNumber text
  let text ← Lines.skip (literal ") -> [") text
  let (target, text) ← Hex.readNumber text
  let text ← Lines.skip (literal ", ") text
  let (targetEnd, text) ← Hex.readNumber text
  let text ← Lines.skip (literal ")") text
  if text = [] ∧ targetEnd - target = sourceEnd - source then
    some (.move target source (sourceEnd - source))
  else none

/-- The offset of a line of a dump, and the bytes in its forty columns. -/
def readDump (line : List UInt8) : Option Entry := do
  let (at_, text) ← Hex.readNumber line
  let text ← Lines.skip (literal ": ") text
  let bytes ← Hex.decode ((text.take 40).filter (· ≠ 32))
  some (.write at_ bytes)

def readLine (line : List UInt8) : Option Entry :=
  match Lines.skip (literal "; move data: [") line with
  | some text => readMove text
  | none => readDump line

/-- What an entry does to a memory. -/
def Entry.replay (memory : Growable UInt8) : Entry → Growable UInt8
  | .write at_ bytes => memory.write at_ bytes
  | .move target source size => memory.move target source size

/-- All entries, in order. -/
def replay (entries : List Entry) (memory : Growable UInt8) : Growable UInt8 :=
  entries.foldl Entry.replay memory

theorem replay_append (front back : List Entry) (memory : Growable UInt8) :
    replay (front ++ back) memory = replay back (replay front memory) := List.foldl_append

/-! ## Reading lines back -/

/-- The line of a move reads as the move. -/
theorem readLine_move {dstOffset srcOffset size : Address}
    (targetFits : dstOffset.toNat + size.toNat < 2 ^ 64)
    (sourceFits : srcOffset.toNat + size.toNat < 2 ^ 64) :
    readLine (moveLine dstOffset srcOffset size) =
      some (.move dstOffset.toNat srcOffset.toNat size.toNat) := by
  have sourceEnd : (srcOffset + size).toNat - srcOffset.toNat = size.toNat := by
    rw [UInt64.toNat_add]
    omega
  have targetEnd : (dstOffset + size).toNat - dstOffset.toNat = size.toNat := by
    rw [UInt64.toNat_add]
    omega
  have comma : ∀ rest, ∀ char ∈ (literal ", " ++ rest).head?, ¬Hex.IsDigit char := by
    rintro rest char ⟨⟩
    decide
  have arrow : ∀ rest, ∀ char ∈ (literal ") -> [" ++ rest).head?, ¬Hex.IsDigit char := by
    rintro rest char ⟨⟩
    decide
  have close : ∀ rest, ∀ char ∈ (literal ")" ++ rest).head?, ¬Hex.IsDigit char := by
    rintro rest char ⟨⟩
    decide
  have ends : Lines.skip (literal ")") (literal ")") = some [] := by decide
  have last := @Hex.readNumber_numeral (dstOffset + size).toNat (literal ")") (by
    rintro char ⟨⟩
    decide)
  simp only [readLine, moveLine, Lines.skip_append, readMove, Hex.readNumber_numeral _ (comma _),
    Hex.readNumber_numeral _ (arrow _), last, ends, Option.bind_eq_bind, Option.bind_some,
    sourceEnd, targetEnd, and_self, if_true]

/-- A line of a dump reads as a write of its bytes. -/
theorem readLine_dump {src : List UInt8} {offset : Address} {printChars : PrintChars} {k : Nat}
    {tail line : List UInt8} (isLine : IsDumpLine src offset printChars k tail line) :
    readLine line = some (.write (offset.toNat + 16 * k) (row src k)) := by
  obtain ⟨columns, rfl, width, decoded⟩ := isLine
  simp only [List.append_assoc]
  have colon : ∀ rest, ∀ char ∈ (literal ": " ++ rest).head?, ¬Hex.IsDigit char := by
    rintro rest char ⟨⟩
    decide
  have number := fun rest => @Hex.readNumber_padded 7 (offset.toNat + 16 * k) _ (colon rest)
  have dump : ∀ rest, Lines.skip (literal "; move data: [")
      (Hex.padded 7 (offset.toNat + 16 * k) ++ rest) = none := by
    intro rest
    obtain ⟨char, more, digits⟩ := List.exists_cons_of_ne_nil
      (Hex.padded_ne_nil 7 (offset.toNat + 16 * k))
    have first : Hex.IsDigit char := by
      have inside : char ∈ Hex.padded 7 (offset.toNat + 16 * k) := by
        rw [digits]
        exact List.mem_cons_self
      obtain ⟨v, small, rfl⟩ := Hex.mem_padded inside
      exact Hex.isDigit_digit small
    have semicolon : literal "; move data: [" = 59 :: literal " move data: [" := by decide
    have other : char ≠ 59 := by
      rintro rfl
      exact absurd first (by decide)
    rw [digits, semicolon]
    exact Lines.skip_other other _ _
  rw [readLine, dump]
  dsimp only
  simp only [readDump, number, Lines.skip_append, Option.bind_eq_bind, Option.bind_some]
  rw [List.take_left' width, decoded]
  rfl

/-- The rows of some bytes, written one after another, write the bytes. -/
theorem replay_rows (src : List UInt8) (start : Nat) (memory : Growable UInt8) (count : Nat) :
    replay ((List.range count).map fun k => .write (start + 16 * k) (row src k)) memory =
      memory.write start (src.take (16 * count)) := by
  induction count with
  | zero => simp [replay, Growable.write]
  | succ count ih =>
      have taken : src.take (16 * (count + 1)) = src.take (16 * count) ++ row src count := by
        rw [Nat.mul_add, Nat.mul_one, List.take_add, row]
      rw [List.range_succ, List.map_append, replay_append, ih, taken]
      rcases Nat.lt_or_ge src.length (16 * count) with short | long
      · have nothing : row src count = [] := by
          rw [row, List.drop_of_length_le (Nat.le_of_lt short), List.take_nil]
        rw [nothing, List.append_nil]
        simp [replay, Entry.replay, nothing, Growable.write]
      · have length : (src.take (16 * count)).length = 16 * count := by
          rw [List.length_take, Nat.min_eq_left long]
        rw [← Growable.write_append, length]
        rfl

/-! ## What a call logs -/

/-- A dump reads as the writes of its rows. -/
theorem reads_dump {src : List UInt8} {offset : Address} (printChars : PrintChars) {desc : Desc}
    (fits : offset.toNat + src.length < 2 ^ 64)
    (described : ∀ words ∈ desc, words.length < 500 ∧ (10 : UInt8) ∉ words) :
    ∃ found, Lines.Reads 10 readLine (written (dumpCalls src offset printChars none desc)) found ∧
      ∀ memory, replay found memory = memory.write offset.toNat src := by
  obtain ⟨lines, joined, clean, count, each⟩ := dumpLines_written printChars fits
    (fun words given => (described words given).2) (Nat.mul_zero 16).symm
  have read : ∀ index (inside : index < lines.length),
      readLine lines[index] = some (.write (offset.toNat + 16 * index) (row src index)) := by
    intro index inside
    have isLine := each index inside
    rw [Nat.zero_add] at isLine
    exact readLine_dump isLine
  refine ⟨_, ⟨lines, joined, clean, Lines.mapM_range read⟩, fun memory => ?_⟩
  rw [replay_rows, List.take_of_length_le (by omega)]

theorem moveLine_clean (dstOffset srcOffset size : Address) :
    (10 : UInt8) ∉ moveLine dstOffset srcOffset size := by
  have number : ∀ value, (10 : UInt8) ∉ Hex.numeral value := by
    intro value inside
    obtain ⟨v, small, same⟩ := Hex.mem_numeral inside
    exact (digit_ne small).2 same.symm
  have front : (10 : UInt8) ∉ literal "; move data: [" := by decide
  have comma : (10 : UInt8) ∉ literal ", " := by decide
  have arrow : (10 : UInt8) ∉ literal ") -> [" := by decide
  have close : (10 : UInt8) ∉ literal ")" := by decide
  simp only [moveLine, List.mem_append, not_or]
  exact ⟨front, number _, comma, number _, arrow, number _, comma, number _, close⟩

/-- What a call logs reads as what the call does to the memory. -/
theorem reads_logged {reference : GrowableStream} {call : Call}
    (fits : call.Fits reference.offset) (described : call.Described) :
    ∃ found, Lines.Reads 10 readLine (call.logged reference.offset) found ∧
      replay found reference.memory = (reference.perform call).memory := by
  cases call with
  | writeData chunk =>
      obtain ⟨found, reads, replayed⟩ := reads_dump chunk.printChars fits described
      exact ⟨found, reads, replayed _⟩
  | writeDataAt at_ chunk =>
      obtain ⟨found, reads, replayed⟩ := reads_dump chunk.printChars fits described
      exact ⟨found, reads, replayed _⟩
  | moveData dstOffset srcOffset size =>
      refine ⟨[.move dstOffset.toNat srcOffset.toNat size.toNat], ?_, rfl⟩
      rw [Call.logged, formatSizes_move]
      exact .single (moveLine_clean _ _ _) (readLine_move fits.1 fits.2)
  | addOffset delta => exact ⟨[], .nil, rfl⟩
  | clearOffset => exact ⟨[], .nil, rfl⟩

/-! ## Runs -/

variable {Log : Type} [LogStream Log]

/-- A memory stream that logs to a memory stream. -/
abbrev Logging (Log : Type) := Stream MemoryStream (Attached MemoryStream Log)

/-- Where the log ends. -/
def logEnd (stream : Logging Log) : Nat :=
  (stream.logStream.bind Attached.stream).elim 0 fun log => log.offset.toNat

/-- No range of the call ends beyond `SIZE_MAX`, not in the log either, and a description
stays in its line. -/
def Allowed (stream : Logging Log) (call : Call) : Prop :=
  call.Fits stream.offset ∧ call.Described ∧
    logEnd stream + (call.logged stream.offset).length < 2 ^ 64

instance (stream : Logging Log) (call : Call) : Decidable (Allowed stream call) :=
  inferInstanceAs (Decidable (_ ∧ _ ∧ _))

/-- The stream follows the reference, and its log replays to the memory of that. -/
structure Recorded (stream : Logging Log) (reference : GrowableStream) : Prop where
  follows : MemoryStream.Follows stream reference
  recorded : ∃ log text found, stream.logStream = some ⟨some log⟩ ∧ MemoryStream.Holds log text ∧
    Lines.Reads 10 readLine text found ∧ replay found .empty = reference.memory

/-- One call is recorded with the others. -/
theorem Recorded.perform {stream : Logging Log} {reference : GrowableStream}
    (recorded : Recorded stream reference) {call : Call} (allowed : Allowed stream call) :
    ∃ next, stream.perform call = some next ∧ Recorded next (reference.perform call) := by
  obtain ⟨follows, log, text, found, isLog, holds, reads, replayed⟩ := recorded
  obtain ⟨fits, described, room⟩ := allowed
  obtain ⟨next, performed, followsNext⟩ := follows.perform fits
  have ends : logEnd stream = text.length := by
    rw [logEnd, isLog]
    exact holds.offset
  rw [ends] at room
  obtain ⟨nextLog, isNext, nextHolds⟩ := holds.log described room
  rw [follows.offset] at fits
  obtain ⟨more, readsMore, replayedMore⟩ := reads_logged fits described
  refine ⟨next, performed, followsNext, nextLog, _, found ++ more, ?_, nextHolds, ?_, ?_⟩
  · rw [Stream.perform_logStream follows.result performed, isLog, Option.map_some, isNext]
  · rw [follows.offset]
    exact reads.append readsMore
  · rw [replay_append, replayed, replayedMore]

/-- A fresh memory stream, with a fresh memory stream for its log. -/
def newLogging (log : Option Log) : Logging Log := MemoryStream.new (some ⟨some (MemoryStream.new log)⟩)

/-- The lockstep simulation of the reference by a stream that logs. -/
def recordedSimulation : Machine.GuardedSimulation (Stream.machine (@MemoryStream.observe _))
    GrowableStream.machine (@Allowed Log) where
  Related := Recorded
  step low high call recorded allowed := by
    obtain ⟨next, performed, recordedNext⟩ := recorded.perform allowed
    refine ⟨_, next, _, Stream.machine_step_eq_some.mpr ⟨performed, rfl⟩, ?_, recordedNext⟩
    simp only [GrowableStream.machine, MemoryStream.observe, recordedNext.follows.buf,
      recordedNext.follows.offset]

/-- Whatever is written to and moved in a fresh memory stream that logs to a memory stream, at
whatever offsets and in whatever order, as long as no range wraps, every description is short
and has no newline, and the log has room: cut into lines, the log reads as ranges written and
moved, and these, replayed on an empty memory, give the contents of the stream. -/
theorem journal_replays (log : Option Log) (calls : List Call)
    (allowed : ∀ step ∈ (Stream.machine MemoryStream.observe).steps (newLogging log) calls,
      Allowed step.1 step.2) :
    ∃ outputs stream final text found,
      (Stream.machine MemoryStream.observe).run (newLogging log) calls = some (outputs, stream) ∧
      stream.logStream = some ⟨some final⟩ ∧ MemoryStream.Holds final text ∧
      Lines.entries 10 readLine text = some found ∧
      stream.impl.buf = some (replay found .empty).contents := by
  have start : Recorded (newLogging log) GrowableStream.new :=
    ⟨⟨rfl, rfl, rfl⟩, _, [], [], rfl, MemoryStream.new_holds log, .nil, rfl⟩
  obtain ⟨outputs, stream, reference, run, _, recorded, _⟩ := recordedSimulation.run_eq start allowed
  obtain ⟨follows, final, text, found, isLog, holds, reads, replayed⟩ := recorded
  refine ⟨outputs, stream, final, text, found, run, isLog, holds, reads.entries, ?_⟩
  rw [replayed, follows.buf]

/-- A write, a move between overlapping ranges, and a write with a description and characters. -/
theorem journal_replays_overlap :
    let calls : List Call := [.writeDataAt 2 ⟨[7, 8], none, .no, by decide⟩, .moveData 3 1 3,
      .writeData ⟨[5], some (literal "five"), .yes, by decide⟩]
    ∃ outputs stream final text found,
      (Stream.machine MemoryStream.observe).run (newLogging (none : Option Empty)) calls =
        some (outputs, stream) ∧
      stream.logStream = some ⟨some final⟩ ∧ MemoryStream.Holds final text ∧
      Lines.entries 10 readLine text = some found ∧
      stream.impl.buf = some (replay found .empty).contents :=
  journal_replays none _ (by decide +kernel)

end XProject.Base.Journal
