import Mathlib.Data.List.TakeWhile
import XProject.Std.Sections
import XProject.Stream.Writef

/-!
# The tracer of `log/tracer.h` and `log/trace-marker.h`

An `AutoTracer` marks its scope in the kernel's trace marker: it renders its text,
renders the result again as a format without arguments, and writes it behind the
process number. `my_printf` marks itself with the two macros instead, and returns
between them when a pointer does not pass. From what the marker received, a reader
rebuilds the scopes as they nested, under their own texts, exactly when every text is
plain and short and no `my_printf` returned early.

This is the tracer of the ftrace build outside the sandbox. What it logs is left out.
-/

namespace XProject.Base.Tracer

open XProject.Std (Mark Sections SectionReader)

/-- `LOGGER_BUFFER_SIZE` of `log/log.h`. -/
def loggerBufferSize : Nat := 1024

/-- The string in a logger buffer behind a format and arguments that render to `text`. -/
def formatted (text : List UInt8) : List UInt8 :=
  (vsnprintf loggerBufferSize text).1.takeWhile (· != 0)

/-- What a format renders to when it is given no arguments. A conversion that takes one,
or a `%` with nothing behind it, has no defined result. -/
def literal : List UInt8 → Option (List UInt8)
  | [] => some []
  | [char] => if char = 0x25 then none else some [char]
  | char :: next :: rest =>
      if char = 0x25 then
        if next = 0x25 then (literal rest).map (0x25 :: ·) else none
      else (literal (next :: rest)).map (char :: ·)

/-- `B|%d|` for the process number. -/
def header (pid : Nat) : List UInt8 :=
  0x42 :: 0x7c :: ((Nat.toDigits 10 pid).map (fun char => UInt8.ofNat char.toNat) ++ [0x7c])

/-- A `TraceMarker`, with what was written to its file, one entry a `write`. -/
structure TraceMarker where
  fd : Int
  written : List (List UInt8)

namespace TraceMarker

/-- The marker behind further writes. -/
def adding (writes : List (List UInt8)) (marker : TraceMarker) : TraceMarker :=
  { marker with written := marker.written ++ writes }

/-- `WriteBegin`: `write` gets the length `snprintf` returns, which is that of the whole text;
more of the buffer than there is has no defined result. -/
def writeBegin (pid : Nat) (message : List UInt8) (marker : TraceMarker) : Option TraceMarker :=
  if marker.fd = -1 then some marker
  else
    let text := header pid ++ message
    let buffer := (vsnprintf loggerBufferSize text).1
    if text.length ≤ loggerBufferSize then
      some (marker.adding [buffer.take text.length])
    else none

/-- `WriteEnd`, which writes `E` whatever its message. -/
def writeEnd (marker : TraceMarker) : TraceMarker :=
  if marker.fd = -1 then marker else marker.adding [[0x45]]

/-- `Tracer::TraceBegin` of a format and arguments that render to `text`. -/
def traceBegin (pid : Nat) (text : List UInt8) (marker : TraceMarker) : Option TraceMarker :=
  marker.writeBegin pid (formatted text)

/-- `Tracer::TraceEnd`, whose text only reaches the log. -/
def traceEnd (marker : TraceMarker) : TraceMarker := marker.writeEnd

end TraceMarker

/-- The `message_` an `AutoTracer` keeps. -/
structure AutoTracer where
  message : List UInt8

namespace AutoTracer

/-- The constructor, of a format and arguments that render to `text`: its buffer is the
format of `TraceBegin`. -/
def new (pid : Nat) (text : List UInt8) (marker : TraceMarker) :
    Option (AutoTracer × TraceMarker) := do
  let buf := formatted text
  let rendered ← literal buf
  let begun ← marker.traceBegin pid rendered
  return (⟨buf⟩, begun)

/-- The destructor: `message_` is the format of `TraceEnd`. -/
def delete (tracer : AutoTracer) (marker : TraceMarker) : Option TraceMarker :=
  (literal tracer.message).map fun _ => marker.traceEnd

end AutoTracer

/-- What a thread runs between two points, as far as it is traced. -/
inductive Traced where
  | done
  /-- A block with an `X_AUTO_TRACE` whose format and arguments render to `text`. -/
  | scope (text : List UInt8) (body behind : Traced)
  /-- A call of `my_printf`; whether both of its pointers pass. -/
  | print (valid : Bool) (behind : Traced)

namespace Traced

/-- `__func__` in `my_printf`. -/
def printfName : List UInt8 := "my_printf".toList.map fun char => UInt8.ofNat char.toNat

/-- The run. -/
def run (pid : Nat) : Traced → TraceMarker → Option TraceMarker
  | done, marker => some marker
  | scope text body behind, marker => do
      let (tracer, begun) ← AutoTracer.new pid text marker
      let inside ← body.run pid begun
      let ended ← tracer.delete inside
      behind.run pid ended
  | print valid behind, marker => do
      let begun ← marker.traceBegin pid printfName
      -- The return for a pointer that does not pass stands before `X_TRACE_END`.
      behind.run pid (if valid then begun.traceEnd else begun)

/-- The sections the run is meant to show. -/
def sections : Traced → Sections (List UInt8)
  | done => .none
  | scope text body behind => .closed text body.sections behind.sections
  | print true behind => .closed printfName .none behind.sections
  | print false behind => .left printfName behind.sections

/-- How many calls of `my_printf` return early. -/
def failed : Traced → Nat
  | done => 0
  | scope _ body behind => body.failed + behind.failed
  | print valid behind => (if valid then 0 else 1) + behind.failed

theorem lost_sections (traced : Traced) : traced.sections.lost = traced.failed := by
  induction traced with
  | done => rfl
  | scope text body behind bodySame behindSame =>
      simp only [sections, Sections.lost, failed, bodySame, behindSame]
  | print valid behind behindSame =>
      cases valid
      · simp only [sections, Sections.lost, failed, behindSame, Bool.false_eq_true, if_false]
        omega
      · simp only [sections, Sections.lost, failed, behindSame, if_true]

end Traced

/-! ## What a reader of the marker does -/

/-- The mark one write stands for: an end, or the text behind the process number. -/
def markOf (bytes : List UInt8) : Option (Mark (List UInt8)) :=
  if bytes = [0x45] then some .ended
  else if bytes.take 2 = [0x42, 0x7c] then
    some (.begun (((bytes.drop 2).dropWhile (· != 0x7c)).drop 1))
  else none

def readTrace (written : List (List UInt8)) : Option (SectionReader (List UInt8)) :=
  (written.mapM markOf).bind SectionReader.start.readAll

/-- The number of a process, an `int`, takes ten digits at most. -/
theorem length_header {pid : Nat} (small : pid < 2 ^ 31) : (header pid).length ≤ 13 := by
  have digits : (Nat.toDigits 10 pid).length ≤ 10 :=
    (Nat.length_toDigits_le_iff (by decide) (by decide)).mpr (by omega)
  simp only [header, List.length_cons, List.length_append, List.length_map, List.length_nil]
  omega

theorem header_room {pid : Nat} (small : pid < 2 ^ 31) :
    (header pid).length < loggerBufferSize := by
  have width := length_header small
  rw [loggerBufferSize]
  omega

/-- A text that the tracer can show: no `%` to format, no NUL to end it, and room for it
behind the process number. -/
def Plain (pid : Nat) (text : List UInt8) : Prop :=
  0x25 ∉ text ∧ 0 ∉ text ∧ (header pid).length + text.length < loggerBufferSize

instance instDecidablePlain (pid : Nat) (text : List UInt8) : Decidable (Plain pid text) :=
  inferInstanceAs (Decidable (_ ∧ _ ∧ _))

/-- The part of a message that `write` gets behind the header. -/
def kept (pid : Nat) (message : List UInt8) : Option (List UInt8) :=
  let text := header pid ++ message
  if text.length ≤ loggerBufferSize then
    some (((vsnprintf loggerBufferSize text).1.take text.length).drop (header pid).length)
  else none

/-- What the marker shows for an `AutoTracer`. -/
def recorded (pid : Nat) (text : List UInt8) : Option (List UInt8) :=
  (literal (formatted text)).bind fun message => kept pid (formatted message)

/-! ## Rendering a text -/

theorem formatted_eq (text : List UInt8) :
    formatted text = (text.take (loggerBufferSize - 1)).takeWhile (· != 0) := by
  unfold formatted vsnprintf
  rw [List.takeWhile_append]
  split
  · rename_i whole
    have same := (List.takeWhile_prefix (· != (0 : UInt8))).eq_of_length whole
    rw [List.takeWhile_replicate, if_neg (by decide), List.append_nil, same]
  · rfl

/-- The string is the beginning of the text. -/
theorem formatted_isBeginning (text : List UInt8) : formatted text <+: text := by
  rw [formatted_eq]
  exact (List.takeWhile_prefix _).trans (List.take_prefix _ _)

theorem length_formatted (text : List UInt8) : (formatted text).length < loggerBufferSize := by
  have short := (List.takeWhile_prefix (l := text.take (loggerBufferSize - 1)) (· != 0)).length_le
  rw [← formatted_eq, List.length_take] at short
  unfold loggerBufferSize at short ⊢
  omega

theorem zero_notMem_formatted (text : List UInt8) : 0 ∉ formatted text := by
  intro inside
  rw [formatted_eq] at inside
  simpa using List.mem_takeWhile_imp inside

theorem formatted_of_short {text : List UInt8} (noEnd : 0 ∉ text)
    (short : text.length < loggerBufferSize) : formatted text = text := by
  rw [formatted_eq, List.take_of_length_le (by omega), List.takeWhile_eq_self_iff]
  intro char inside
  have other : char ≠ 0 := fun zero => noEnd (zero ▸ inside)
  simpa using other

/-- A text without `%` is rendered as it is. -/
theorem literal_of_notMem {text : List UInt8} (plain : 0x25 ∉ text) :
    literal text = some text := by
  induction text using literal.induct with
  | case1 => rfl
  | case2 => simp at plain
  | case3 char other => simp [literal, other]
  | case4 => simp at plain
  | case5 => simp at plain
  | case6 char next rest other shorter =>
      have behind : 0x25 ∉ next :: rest := fun inside => plain (List.mem_cons_of_mem _ inside)
      simp only [literal, if_neg other, shorter behind, Option.map_some]

/-- Rendering adds nothing, and what it drops are the `%`. -/
theorem literal_shrinks {text shown : List UInt8} (rendered : literal text = some shown) :
    shown ⊆ text ∧ shown.length ≤ text.length ∧
      (0x25 ∈ text → shown.length < text.length) := by
  induction text using literal.induct generalizing shown with
  | case1 => simp_all [literal]
  | case2 => simp [literal] at rendered
  | case3 char other => simp_all [literal, eq_comm]
  | case4 rest shorter =>
      simp only [literal, if_true, Option.map_eq_some_iff] at rendered
      obtain ⟨tail, isTail, rfl⟩ := rendered
      obtain ⟨inside, bound, _⟩ := shorter isTail
      refine ⟨?_, ?_, ?_⟩
      · exact List.cons_subset_cons _ (List.subset_cons_of_subset _ inside)
      · simp only [List.length_cons]
        omega
      · intro _
        simp only [List.length_cons]
        omega
  | case5 next rest other => simp [literal, other] at rendered
  | case6 char next rest other shorter =>
      simp only [literal, if_neg other, Option.map_eq_some_iff] at rendered
      obtain ⟨tail, isTail, rfl⟩ := rendered
      obtain ⟨inside, bound, strict⟩ := shorter isTail
      refine ⟨List.cons_subset_cons _ inside, Nat.succ_le_succ bound, ?_⟩
      intro member
      rcases List.mem_cons.mp member with same | behind
      · exact absurd same.symm other
      · exact Nat.succ_lt_succ (strict behind)

/-! ## What the marker receives -/

/-- The buffer begins as the text does, as far as it has room. -/
theorem take_vsnprintf {size count : Nat} {text : List UInt8} (room : count < size)
    (within : count ≤ text.length) : (vsnprintf size text).1.take count = text.take count := by
  have enough : count ≤ (text.take (size - 1)).length := by
    rw [List.length_take]
    omega
  simp only [vsnprintf]
  rw [List.take_append_of_le_length enough, List.take_take, Nat.min_eq_left (by omega)]

theorem length_kept {pid : Nat} {message shown : List UInt8}
    (keeps : kept pid message = some shown) :
    shown.length = message.length ∧ (header pid).length + message.length ≤ loggerBufferSize := by
  simp only [kept, Option.ite_none_right_eq_some, Option.some.injEq] at keeps
  obtain ⟨fits, rfl⟩ := keeps
  have size : (vsnprintf loggerBufferSize (header pid ++ message)).1.length = loggerBufferSize := by
    simp only [vsnprintf, loggerBufferSize, List.length_append, List.length_take,
      List.length_replicate]
    omega
  rw [List.length_append] at fits
  simp only [List.length_drop, List.length_take, size, List.length_append]
  exact ⟨by omega, fits⟩

/-- A message that leaves room for the NUL is kept whole. -/
theorem kept_of_short {pid : Nat} {message : List UInt8}
    (short : (header pid).length + message.length < loggerBufferSize) :
    kept pid message = some message := by
  have fits : (header pid ++ message).length < loggerBufferSize := by
    rwa [List.length_append]
  simp only [kept]
  rw [if_pos (Nat.le_of_lt fits), take_vsnprintf fits (Nat.le_refl _), List.take_length,
    List.drop_left]

/-- One that does not is kept with a NUL in the place of its last byte. -/
theorem zero_mem_kept {pid : Nat} {message shown : List UInt8}
    (room : (header pid).length < loggerBufferSize)
    (full : (header pid).length + message.length = loggerBufferSize)
    (keeps : kept pid message = some shown) : 0 ∈ shown := by
  simp only [kept, Option.ite_none_right_eq_some, Option.some.injEq] at keeps
  obtain ⟨_, rfl⟩ := keeps
  have length : (header pid ++ message).length = loggerBufferSize := by
    rwa [List.length_append]
  have front : ((header pid ++ message).take (loggerBufferSize - 1)).length =
      loggerBufferSize - 1 := by
    rw [List.length_take, length]
    omega
  have buffer : (vsnprintf loggerBufferSize (header pid ++ message)).1 =
      (header pid ++ message).take (loggerBufferSize - 1) ++ [0] := by
    simp only [vsnprintf, front]
    rfl
  rw [buffer, length, List.take_of_length_le (by simp only [List.length_append, front]; decide),
    List.drop_append_of_le_length (by omega)]
  exact List.mem_append_right _ List.mem_cons_self

theorem adding_adding (first second : List (List UInt8)) (marker : TraceMarker) :
    (marker.adding first).adding second = marker.adding (first ++ second) := by
  simp only [TraceMarker.adding, List.append_assoc]

theorem traceEnd_eq (marker : TraceMarker) (opened : marker.fd ≠ -1) :
    marker.traceEnd = marker.adding [[0x45]] := if_neg opened

theorem writeBegin_eq {pid : Nat} {message : List UInt8} {marker : TraceMarker}
    (opened : marker.fd ≠ -1) (room : (header pid).length < loggerBufferSize) :
    marker.writeBegin pid message =
      (kept pid message).map fun shown => marker.adding [header pid ++ shown] := by
  simp only [TraceMarker.writeBegin, kept, if_neg opened]
  split
  · rename_i fits
    have front : ((vsnprintf loggerBufferSize (header pid ++ message)).1.take
        (header pid ++ message).length).take (header pid).length = header pid := by
      have inside : (header pid).length ≤ (header pid ++ message).length := by
        rw [List.length_append]
        omega
      rw [List.take_take, Nat.min_eq_left inside, take_vsnprintf room inside, List.take_left]
    have whole := List.take_append_drop (header pid).length
      ((vsnprintf loggerBufferSize (header pid ++ message)).1.take (header pid ++ message).length)
    rw [front] at whole
    simp only [Option.map_some, whole]
  · rfl

/-- A text is shown as it is exactly when it is plain. -/
theorem recorded_eq_self_iff {pid : Nat} {text : List UInt8}
    (room : (header pid).length < loggerBufferSize) :
    recorded pid text = some text ↔ Plain pid text := by
  constructor
  · intro shows
    obtain ⟨message, rendered, keeps⟩ := Option.bind_eq_some_iff.mp shows
    obtain ⟨inside, bound, strict⟩ := literal_shrinks rendered
    have noEnd : 0 ∉ message := fun zero => zero_notMem_formatted text (inside zero)
    have short : message.length < loggerBufferSize :=
      Nat.lt_of_le_of_lt bound (length_formatted text)
    rw [formatted_of_short noEnd short] at keeps
    obtain ⟨same, fits⟩ := length_kept keeps
    -- As long as the text, the rendered string is the text.
    have start := (formatted_isBeginning text).length_le
    have whole : formatted text = text := (formatted_isBeginning text).eq_of_length (by omega)
    have noPercent : 0x25 ∉ text := by
      intro percent
      rw [whole] at strict
      have fewer := strict percent
      omega
    have ends : 0 ∉ text := whole ▸ zero_notMem_formatted text
    refine ⟨noPercent, ends, ?_⟩
    rcases Nat.lt_or_eq_of_le fits with fewer | full
    · omega
    · exact absurd (zero_mem_kept room full keeps) ends
  · rintro ⟨noPercent, noEnd, short⟩
    have same : formatted text = text := formatted_of_short noEnd (by omega)
    rw [recorded, same, literal_of_notMem noPercent, Option.bind_some, same, kept_of_short short]

/-! ## Reading the writes -/

theorem markOf_ended : markOf [0x45] = some .ended := rfl

/-- No digit of the process number ends the header. -/
theorem notMem_digits (pid : Nat) :
    0x7c ∉ (Nat.toDigits 10 pid).map fun char => UInt8.ofNat char.toNat := by
  intro inside
  obtain ⟨char, isIn, same⟩ := List.mem_map.mp inside
  have digit := Nat.isDigit_of_mem_toDigits (by decide) (by decide) isIn
  simp only [Char.isDigit, Bool.and_eq_true, decide_eq_true_eq] at digit
  obtain ⟨_, above⟩ := digit
  have small : char.toNat ≤ 57 := above
  have value := congrArg UInt8.toNat same
  rw [UInt8.toNat_ofNat', Nat.mod_eq_of_lt (by omega)] at value
  simp at value
  omega

theorem markOf_begun (pid : Nat) (shown : List UInt8) :
    markOf (header pid ++ shown) = some (.begun shown) := by
  have digits : ∀ char ∈ (Nat.toDigits 10 pid).map (fun char => UInt8.ofNat char.toNat),
      (char != 0x7c) = true := by
    intro char inside
    simpa using fun same : char = 0x7c => notMem_digits pid (same ▸ inside)
  simp only [markOf, header, List.cons_append, List.append_assoc, List.take_succ_cons,
    List.take_zero, List.drop_succ_cons, List.drop_zero]
  rw [if_neg (by simp), if_pos trivial, List.dropWhile_append_of_pos digits]
  rfl

/-! ## Runs -/

/-- What the marker shows for a text, where it shows anything. -/
def shown (pid : Nat) (text : List UInt8) : List UInt8 := (recorded pid text).getD []

theorem new_eq {pid : Nat} {text : List UInt8} {marker : TraceMarker}
    (opened : marker.fd ≠ -1) (room : (header pid).length < loggerBufferSize) :
    AutoTracer.new pid text marker = (recorded pid text).map fun shown =>
      (⟨formatted text⟩, marker.adding [header pid ++ shown]) := by
  simp only [AutoTracer.new, recorded]
  cases literal (formatted text) with
  | none => rfl
  | some message =>
      simp only [Option.bind_eq_bind, Option.bind_some, TraceMarker.traceBegin,
        writeBegin_eq opened room]
      cases kept pid (formatted message) with
      | none => rfl
      | some shown => rfl

/-- What is begun can be ended. -/
theorem delete_eq {pid : Nat} {text shows : List UInt8} (marker : TraceMarker)
    (opened : marker.fd ≠ -1) (records : recorded pid text = some shows) :
    (AutoTracer.mk (formatted text)).delete marker = some (marker.adding [[0x45]]) := by
  obtain ⟨message, rendered, _⟩ := Option.bind_eq_some_iff.mp records
  simp only [AutoTracer.delete, rendered, Option.map_some, traceEnd_eq marker opened]

/-- The name of the function is plain. -/
theorem plain_printfName {pid : Nat} (small : pid < 2 ^ 31) : Plain pid Traced.printfName := by
  have width := length_header small
  refine ⟨by decide, by decide, ?_⟩
  rw [show Traced.printfName.length = 9 from rfl, loggerBufferSize]
  omega

theorem traceBegin_name {pid : Nat} {marker : TraceMarker} (opened : marker.fd ≠ -1)
    (small : pid < 2 ^ 31) :
    marker.traceBegin pid Traced.printfName =
      some (marker.adding [header pid ++ Traced.printfName]) := by
  obtain ⟨_, noEnd, short⟩ := plain_printfName small
  rw [TraceMarker.traceBegin, formatted_of_short noEnd (by omega),
    writeBegin_eq opened (by omega), kept_of_short short]
  rfl

theorem recorded_of_plain {pid : Nat} {text : List UInt8} (plain : Plain pid text) :
    recorded pid text = some text :=
  (recorded_eq_self_iff (by have short := plain.2.2; omega)).mpr plain

/-- A run whose texts are all shown writes the marks of its sections, in order. -/
theorem run_writes {pid : Nat} (small : pid < 2 ^ 31) {traced : Traced}
    (shows : ∀ text ∈ traced.sections.labels, (recorded pid text).isSome)
    (marker : TraceMarker) (opened : marker.fd ≠ -1) :
    ∃ writes, traced.run pid marker = some (marker.adding writes) ∧
      writes.mapM markOf = some (traced.sections.map (shown pid)).marks := by
  have room := header_room small
  induction traced generalizing marker with
  | done => exact ⟨[], by simp only [Traced.run, TraceMarker.adding, List.append_nil], rfl⟩
  | scope text body behind bodyWrites behindWrites =>
      simp only [Traced.sections, Sections.labels, List.forall_mem_cons,
        List.forall_mem_append] at shows
      obtain ⟨textShows, bodyShows, behindShows⟩ := shows
      obtain ⟨seen, records⟩ := Option.isSome_iff_exists.mp textShows
      let begun := marker.adding [header pid ++ seen]
      obtain ⟨inner, bodyRun, innerMarks⟩ := bodyWrites bodyShows begun opened
      have ended := delete_eq (begun.adding inner) opened records
      obtain ⟨rest, behindRun, restMarks⟩ := behindWrites behindShows
        ((begun.adding inner).adding [[0x45]]) opened
      refine ⟨[header pid ++ seen] ++ inner ++ [[0x45]] ++ rest, ?_, ?_⟩
      · simp only [Traced.run, Option.bind_eq_bind, new_eq opened room, records, Option.map_some,
          Option.bind_some]
        rw [bodyRun, Option.bind_some, ended, Option.bind_some, behindRun]
        simp only [begun, adding_adding]
      · simp [innerMarks, restMarks, markOf_begun, markOf_ended, Traced.sections, Sections.map,
          Sections.marks, shown, records]
  | print valid behind behindWrites =>
      have seen : shown pid Traced.printfName = Traced.printfName := by
        rw [shown, recorded_of_plain (plain_printfName small), Option.getD_some]
      let begun := marker.adding [header pid ++ Traced.printfName]
      have begins := traceBegin_name opened small
      cases valid with
      | true =>
          have behindShows := (List.forall_mem_cons.mp shows).2
          obtain ⟨rest, behindRun, restMarks⟩ := behindWrites behindShows
            (begun.adding [[0x45]]) opened
          refine ⟨[header pid ++ Traced.printfName] ++ [[0x45]] ++ rest, ?_, ?_⟩
          · simp only [Traced.run, Option.bind_eq_bind, begins, Option.bind_some, if_true]
            rw [traceEnd_eq begun opened, behindRun]
            simp only [begun, adding_adding]
          · simp [restMarks, markOf_begun, markOf_ended, Traced.sections, Sections.map,
              Sections.marks, seen]
      | false =>
          have behindShows := (List.forall_mem_cons.mp shows).2
          obtain ⟨rest, behindRun, restMarks⟩ := behindWrites behindShows begun opened
          refine ⟨[header pid ++ Traced.printfName] ++ rest, ?_, ?_⟩
          · simp only [Traced.run, Option.bind_eq_bind, begins, Option.bind_some,
              Bool.false_eq_true, if_false]
            rw [behindRun]
            simp only [begun, adding_adding]
          · simp [restMarks, markOf_begun, Traced.sections, Sections.map, Sections.marks, seen]

/-- A run with a defined result shows every text. -/
theorem shows_of_run {pid : Nat} (small : pid < 2 ^ 31) {traced : Traced}
    (marker : TraceMarker) {after : TraceMarker} (opened : marker.fd ≠ -1)
    (ran : traced.run pid marker = some after) :
    ∀ text ∈ traced.sections.labels, (recorded pid text).isSome := by
  have room := header_room small
  have nameShows : (recorded pid Traced.printfName).isSome := by
    rw [recorded_of_plain (plain_printfName small)]
    rfl
  suffices whole : (∀ text ∈ traced.sections.labels, (recorded pid text).isSome) ∧
      after.fd = marker.fd from whole.1
  induction traced generalizing marker after with
  | done =>
      cases ran
      exact ⟨by simp [Traced.sections, Sections.labels], rfl⟩
  | scope text body behind bodyShows behindShows =>
      simp only [Traced.run, Option.bind_eq_bind, new_eq opened room] at ran
      obtain ⟨⟨tracer, begun⟩, begins, rest⟩ := Option.bind_eq_some_iff.mp ran
      obtain ⟨seen, records, same⟩ := Option.map_eq_some_iff.mp begins
      cases same
      obtain ⟨inside, bodyRun, rest⟩ := Option.bind_eq_some_iff.mp rest
      obtain ⟨bodyAll, insideFd⟩ := bodyShows (marker.adding _) opened bodyRun
      have stillOpen : inside.fd ≠ -1 := by
        rw [insideFd]
        exact opened
      rw [delete_eq inside stillOpen records, Option.bind_some] at rest
      obtain ⟨behindAll, afterFd⟩ := behindShows (inside.adding _) stillOpen rest
      refine ⟨?_, afterFd.trans insideFd⟩
      simp only [Traced.sections, Sections.labels, List.forall_mem_cons, List.forall_mem_append]
      exact ⟨Option.isSome_iff_exists.mpr ⟨seen, records⟩, bodyAll, behindAll⟩
  | print valid behind behindShows =>
      simp only [Traced.run, Option.bind_eq_bind, traceBegin_name opened small,
        Option.bind_some] at ran
      cases valid with
      | true =>
          rw [if_pos rfl, traceEnd_eq (marker.adding _) opened] at ran
          obtain ⟨behindAll, afterFd⟩ :=
            behindShows ((marker.adding _).adding [[0x45]]) opened ran
          exact ⟨List.forall_mem_cons.mpr ⟨nameShows, behindAll⟩, afterFd⟩
      | false =>
          obtain ⟨behindAll, afterFd⟩ := behindShows (marker.adding _) opened ran
          exact ⟨List.forall_mem_cons.mpr ⟨nameShows, behindAll⟩, afterFd⟩

/-- The reader of a run gets the marks of its sections, as they are shown. -/
theorem readTrace_run {pid : Nat} (small : pid < 2 ^ 31) {traced : Traced}
    {marker after : TraceMarker} (opened : marker.fd ≠ -1) (fresh : marker.written = [])
    (ran : traced.run pid marker = some after) :
    readTrace after.written =
      SectionReader.start.readAll (traced.sections.map (shown pid)).marks := by
  obtain ⟨writes, runs, marks⟩ :=
    run_writes small (shows_of_run small marker opened ran) marker opened
  rw [ran, Option.some.injEq] at runs
  rw [runs, readTrace, TraceMarker.adding, fresh, List.nil_append, marks, Option.bind_some]

/-- A reader of the marker finds the scopes of a run as they nested, under their own texts
and with nothing open, exactly when the texts are plain and every `my_printf` got pointers
that pass. In any run it meets no end without a beginning, and what it has open at the end
is one section for each `my_printf` that returned early. -/
theorem trace_rebuilt {pid : Nat} (small : pid < 2 ^ 31) (traced : Traced)
    {marker : TraceMarker} (opened : marker.fd ≠ -1) (fresh : marker.written = []) :
    ((∃ after, traced.run pid marker = some after ∧
        readTrace after.written = some ⟨traced.sections, []⟩) ↔
      (∀ text ∈ traced.sections.labels, Plain pid text) ∧ traced.failed = 0) ∧
    ∀ after, traced.run pid marker = some after →
      ∃ reader, readTrace after.written = some reader ∧
        reader.outer.length = traced.failed := by
  have room := header_room small
  have lost : (traced.sections.map (shown pid)).lost = traced.failed := by
    rw [Sections.lost_map, Traced.lost_sections]
  refine ⟨⟨?_, ?_⟩, ?_⟩
  · rintro ⟨after, ran, rebuilt⟩
    rw [readTrace_run small opened fresh ran, SectionReader.readAll_start_iff, lost] at rebuilt
    obtain ⟨same, none⟩ := rebuilt
    refine ⟨?_, none⟩
    intro text inside
    have shows := shows_of_run small marker opened ran text inside
    have own := Sections.map_eq_self_iff.mp same.symm text inside
    obtain ⟨seen, records⟩ := Option.isSome_iff_exists.mp shows
    rw [shown, records, Option.getD_some] at own
    rw [← recorded_eq_self_iff room, records, own]
  · rintro ⟨texts, none⟩
    have shows : ∀ text ∈ traced.sections.labels, recorded pid text = some text :=
      fun text inside => recorded_of_plain (texts text inside)
    obtain ⟨writes, runs, _⟩ := run_writes small
      (fun text inside => Option.isSome_iff_exists.mpr ⟨text, shows text inside⟩) marker opened
    refine ⟨_, runs, ?_⟩
    rw [readTrace_run small opened fresh runs, SectionReader.readAll_start_iff, lost]
    refine ⟨(Sections.map_eq_self_iff.mpr ?_).symm, none⟩
    intro text inside
    rw [shown, shows text inside, Option.getD_some]
  · intro after ran
    obtain ⟨reader, read, depth⟩ := SectionReader.readAll_open
      (traced.sections.map (shown pid)) SectionReader.start
    refine ⟨reader, (readTrace_run small opened fresh ran).trans read, ?_⟩
    rw [depth, lost]
    exact Nat.zero_add _

/-- A call of `my_printf` inside a scope `New`, and one behind it. -/
theorem trace_rebuilt_scope :
    ∃ after, (Traced.scope [0x4e, 0x65, 0x77] (.print true .done) (.print true .done)).run 4711
        ⟨3, []⟩ = some after ∧
      readTrace after.written = some ⟨.closed [0x4e, 0x65, 0x77]
        (.closed Traced.printfName .none .none) (.closed Traced.printfName .none .none), []⟩ :=
  (trace_rebuilt (by decide) _ (by decide) rfl).1.mpr ⟨by decide +kernel, rfl⟩

end XProject.Base.Tracer
