import XProject.Stream.Calls
import XProject.Stream.DumpLines

/-!
# A stream that logs to another stream

The log stream of a stream is a stream itself: writes are dumped to it and moves
printed. It may have a log stream of its own. After a call without a defined result
nothing is known of it.
-/

namespace XProject.Base

open XProject.Std

/-- A format whose conversions are all `%zx`, filled in. -/
def formatSizes : (format : List UInt8) → (arguments : List Address) → List UInt8
  | 37 :: 122 :: 120 :: format, argument :: arguments =>
      Hex.numeral argument.toNat ++ formatSizes format arguments
  | char :: format, arguments => char :: formatSizes format arguments
  | [], _ => []

/-- A stream behind the pointer `log_stream_`; absent once a call on it had no defined result. -/
structure Attached (Impl Log : Type) where
  stream : Option (Stream Impl Log)

variable {Impl Log : Type} [StreamImpl Impl] [LogStream Log]

/-- `WriteDataAt` dumps without a prefix, `MoveData` prints with `Writef`. -/
instance : LogWriter (Attached Impl Log) where
  writeMemoryDump src offset printChars desc log :=
    ⟨log.stream.bind (writeMemoryDump src offset printChars none desc)⟩
  writef format arguments log :=
    ⟨log.stream.bind (writef (formatSizes (literal format) arguments))⟩

/-- What a call on a stream at `offset` does to the log stream. -/
def Call.log {Log : Type} [LogWriter Log] (offset : Address) : Call → Log → Log
  | .writeData chunk => LogStream.writeMemoryDump chunk.src offset chunk.printChars chunk.desc
  | .writeDataAt at_ chunk => LogStream.writeMemoryDump chunk.src at_ chunk.printChars chunk.desc
  | .moveData dstOffset srcOffset size => LogWriter.writef Stream.moveFormat
      [srcOffset, srcOffset + size, dstOffset, dstOffset + size]
  | .addOffset _ => id
  | .clearOffset => id

/-- The text a call on a stream at `offset` logs. -/
def Call.logged (offset : Address) : Call → List UInt8
  | .writeData chunk => written (dumpCalls chunk.src offset chunk.printChars none chunk.desc)
  | .writeDataAt at_ chunk => written (dumpCalls chunk.src at_ chunk.printChars none chunk.desc)
  | .moveData dstOffset srcOffset size => formatSizes (literal Stream.moveFormat)
      [srcOffset, srcOffset + size, dstOffset, dstOffset + size]
  | .addOffset _ => []
  | .clearOffset => []

/-- Any description is short and has no newline. -/
def Chunk.Described (chunk : Chunk) : Prop :=
  ∀ words ∈ chunk.desc, words.length < 500 ∧ (10 : UInt8) ∉ words

def Call.Described : Call → Prop
  | .writeData chunk | .writeDataAt _ chunk => chunk.Described
  | .moveData _ _ _ | .addOffset _ | .clearOffset => True

instance decidableDescribed (chunk : Chunk) : Decidable chunk.Described :=
  inferInstanceAs (Decidable (∀ words ∈ chunk.desc, words.length < 500 ∧ (10 : UInt8) ∉ words))

instance decidableCallDescribed : (call : Call) → Decidable call.Described
  | .writeData chunk | .writeDataAt _ chunk => decidableDescribed chunk
  | .moveData _ _ _ | .addOffset _ | .clearOffset => .isTrue trivial

/-- A call on a stream that has not failed logs once, whatever comes of it. -/
theorem Stream.perform_logStream {Impl Log : Type} [MovableImpl Impl] [LogWriter Log] {call : Call}
    {stream next : Stream Impl Log} (live : stream.result = .ok)
    (performed : stream.perform call = some next) :
    next.logStream = stream.logStream.map (call.log stream.offset) := by
  have failed : stream.result ≠ .error := by
    rw [live]
    decide
  have attempted : ∀ {line : Log → Log} {effect : Impl → Option (Result × Impl)}
      {after : Stream Impl Log}, Stream.attempt line effect stream = some after →
      after.logStream = stream.logStream.map line := by
    intro line effect after made
    rcases Stream.attempt_eq_some made with ⟨bad, _⟩ | ⟨_, result, impl, _, rfl⟩
    · exact absurd bad failed
    · rfl
  cases call with
  | writeData chunk =>
      obtain ⟨after, made, rfl⟩ := Stream.writeData_eq_some performed
      have once := attempted made
      exact once
  | writeDataAt at_ chunk => exact attempted performed
  | moveData dstOffset srcOffset size => exact attempted performed
  | addOffset delta =>
      cases performed
      exact Option.map_id.symm ▸ rfl
  | clearOffset =>
      cases performed
      exact Option.map_id.symm ▸ rfl

/-! ## What reaches a log stream -/

/-- The line of a move, before its newline. -/
def moveLine (dstOffset srcOffset size : Address) : List UInt8 :=
  literal "; move data: [" ++ (Hex.numeral srcOffset.toNat ++ (literal ", " ++
    (Hex.numeral (srcOffset + size).toNat ++ (literal ") -> [" ++
      (Hex.numeral dstOffset.toNat ++ (literal ", " ++
        (Hex.numeral (dstOffset + size).toNat ++ literal ")")))))))

/-- Nothing but `%` starts a conversion. -/
theorem formatSizes_word {word : List UInt8} (plain : (37 : UInt8) ∉ word) (format : List UInt8)
    (arguments : List Address) :
    formatSizes (word ++ format) arguments = word ++ formatSizes format arguments := by
  induction word with
  | nil => rfl
  | cons char word ih =>
      rw [List.mem_cons, not_or] at plain
      rw [List.cons_append, List.cons_append, ← ih plain.2, formatSizes]
      exact fun _ _ _ _ percent _ => plain.1 percent.symm

theorem formatSizes_size (format : List UInt8) (argument : Address) (arguments : List Address) :
    formatSizes (literal "%zx" ++ format) (argument :: arguments) =
      Hex.numeral argument.toNat ++ formatSizes format arguments := rfl

theorem formatSizes_move (dstOffset srcOffset size : Address) :
    formatSizes (literal Stream.moveFormat)
      [srcOffset, srcOffset + size, dstOffset, dstOffset + size] =
        moveLine dstOffset srcOffset size ++ [10] := by
  have format : literal Stream.moveFormat =
      literal "; move data: [" ++ (literal "%zx" ++ (literal ", " ++ (literal "%zx" ++
        (literal ") -> [" ++ (literal "%zx" ++ (literal ", " ++ (literal "%zx" ++
          (literal ")" ++ [10])))))))) := by decide
  have newline : formatSizes [10] [] = [10] := rfl
  rw [format, formatSizes_word (by decide), formatSizes_size, formatSizes_word (by decide),
    formatSizes_size, formatSizes_word (by decide), formatSizes_size, formatSizes_word (by decide),
    formatSizes_size, formatSizes_word (by decide), newline]
  simp only [moveLine, List.append_assoc]

/-- A move is printed by a text that fits the buffer. -/
theorem fits_moveLine (dstOffset srcOffset size : Address) :
    FitsBuffer (moveLine dstOffset srcOffset size ++ [10]) := by
  have short : ∀ address : Address, (Hex.numeral address.toNat).length ≤ 16 :=
    fun address => @Hex.length_numeral _ 15 address.toNat_lt
  have first := short srcOffset
  have second := short (srcOffset + size)
  have third := short dstOffset
  have fourth := short (dstOffset + size)
  have front : (literal "; move data: [").length = 14 := rfl
  have comma : (literal ", ").length = 2 := rfl
  have arrow : (literal ") -> [").length = 6 := rfl
  have close : (literal ")").length = 1 := rfl
  refine .inl ?_
  simp only [moveLine, List.length_append, List.length_singleton, front, comma, arrow, close,
    streamLoggerBufferSize]
  omega

/-- The texts of a described dump fit the buffer. -/
theorem fits_dumpCalls {src : List UInt8} {offset : Address} {printChars : PrintChars} {desc : Desc}
    (short : ∀ words ∈ desc, words.length < 500) :
    ∀ text, .writef text ∈ dumpCalls src offset printChars none desc → FitsBuffer text := by
  intro text called
  refine .inl ?_
  unfold streamLoggerBufferSize
  rcases mem_dumpLines called with small | bad | ⟨words, given, rfl⟩
  · omega
  · cases bad
  · have bound := short words given
    have mark : (literal "  ; ").length = 4 := rfl
    rw [List.length_append, mark]
    omega

/-- What a memory stream holds after a call is logged to it, given that it has room. -/
theorem MemoryStream.Holds.log {Log : Type} [LogStream Log] {log : Stream MemoryStream Log}
    {text : List UInt8} (holds : Holds log text) {call : Call} {offset : Address}
    (described : call.Described) (room : text.length + (call.logged offset).length < 2 ^ 64) :
    ∃ next, call.log offset (⟨some log⟩ : Attached MemoryStream Log) = ⟨some next⟩ ∧
      Holds next (text ++ call.logged offset) := by
  have dumped : ∀ {src : List UInt8} {at_ : Address} {printChars : PrintChars} {desc : Desc},
      (∀ words ∈ desc, words.length < 500 ∧ (10 : UInt8) ∉ words) →
      text.length + (written (dumpCalls src at_ printChars none desc)).length < 2 ^ 64 →
      ∃ next, writeMemoryDump src at_ printChars none desc log = some next ∧
        Holds next (text ++ written (dumpCalls src at_ printChars none desc)) := by
    intro src at_ printChars desc short fits
    rw [written, List.flatMap_def] at fits ⊢
    obtain ⟨next, isNext, nextHolds⟩ := holds.writePieces fits
    refine ⟨next, ?_, nextHolds⟩
    rw [writeMemoryDump, perform_eq_writePieces (fits_dumpCalls fun words given =>
      (short words given).1), isNext]
  cases call with
  | writeData chunk =>
      obtain ⟨next, isNext, nextHolds⟩ := dumped described room
      exact ⟨next, congrArg Attached.mk isNext, nextHolds⟩
  | writeDataAt at_ chunk =>
      obtain ⟨next, isNext, nextHolds⟩ := dumped described room
      exact ⟨next, congrArg Attached.mk isNext, nextHolds⟩
  | moveData dstOffset srcOffset size =>
      have printed := formatSizes_move dstOffset srcOffset size
      rw [Call.logged, printed] at room ⊢
      obtain ⟨next, isNext, nextHolds⟩ := holds.writeData _ none .no room
      refine ⟨next, congrArg Attached.mk ?_, nextHolds⟩
      rw [printed]
      exact (writef_eq_writeData (fits_moveLine _ _ _) log).trans isNext
  | addOffset delta => exact ⟨log, rfl, by rwa [Call.logged, List.append_nil]⟩
  | clearOffset => exact ⟨log, rfl, by rwa [Call.logged, List.append_nil]⟩

end XProject.Base
