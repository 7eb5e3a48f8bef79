import XProject.Std.CursorArray
import XProject.Stream.Output
import XProject.Stream.Pack
import XProject.Stream.WriteBounds

/-!
# A buffer stream is an array with a cursor

`read`, `write`, `put`, `get`, `skip`, `seekp` and the queries of a `DataStream` over a
buffer do what the same accesses do on an array of as many bytes, in any order, as long
as the pointers do not wrap and `read`, `write` and `remaining` find the position inside
the buffer. `DataStream<size_t>` goes through the same motions without the array: the
size it ends with is the size of the buffer they fit exactly.
-/

namespace XProject.Base

open XProject.Std
open XProject.Std.CursorArray (Access Answer)

namespace DataStream

/-- `put`: the byte is stored, unless the call returns false. -/
def put (c : UInt8) (memory : Memory) (stream : DataStream) : Bool × Memory × DataStream :=
  if stream.pos < stream.end_ then
    (true, store memory stream.pos [c], { stream with pos := stream.pos + 1 })
  else (false, memory, stream.setErrno .trapOutOfStream)

/-- `tellp`. -/
def tellp (stream : DataStream) : Address := stream.pos - stream.start

/-- `remaining`. -/
def remaining (stream : DataStream) : Address := stream.end_ - stream.pos

end DataStream

namespace Counting

/-- `DataStream<size_t>::skip`, `write`, `put` and `seekp`, which all return true. -/
def skip (size : Address) (ds : Counting) : Bool × Counting := (true, ⟨ds.size + size⟩)

def write (size : Address) (ds : Counting) : Bool × Counting := (true, ⟨ds.size + size⟩)

def put (ds : Counting) : Bool × Counting := (true, ⟨ds.size + 1⟩)

def seekp (offset : Address) (_ : Counting) : Bool × Counting := (true, ⟨offset⟩)

/-- `tellp`, `remaining` and `valid`. -/
def tellp (ds : Counting) : Address := ds.size

def remaining (_ : Counting) : Address := 0

def valid (_ : Counting) : Bool := true

end Counting

namespace BufferAccess

/-- A call on a stream, of either kind. -/
inductive Operation where
  | read (size : Address)
  | write (bytes : List UInt8)
  | put (c : UInt8)
  | get
  | skip (size : Address)
  | seekp (offset : Address)
  | tellp
  | remaining
  | valid

/-- A call on a stream over a buffer. -/
def perform (output : Output) : Operation → Answer UInt8 × Output
  | .read size =>
      let (bytes, stream) := output.stream.read output.memory size
      (.items bytes, { output with stream := stream })
  | .write bytes =>
      let (passed, memory, stream) := output.stream.write bytes output.memory
      (.done passed, ⟨memory, stream⟩)
  | .put c =>
      let (passed, memory, stream) := output.stream.put c output.memory
      (.done passed, ⟨memory, stream⟩)
  | .get =>
      let (byte, stream) := output.stream.get output.memory
      (.items (byte.map fun byte => [byte]), { output with stream := stream })
  | .skip size => (.done true, { output with stream := output.stream.skip size })
  | .seekp offset =>
      let (passed, stream) := output.stream.seekp offset
      (.done passed, { output with stream := stream })
  | .tellp => (.number output.stream.tellp.toNat, output)
  | .remaining => (.number output.stream.remaining.toNat, output)
  | .valid => (.done output.stream.valid, output)

/-- A call on a `DataStream<size_t>`, which can not be read from. -/
def count (ds : Counting) : Operation → Option (Answer UInt8 × Counting)
  | .read _ | .get => none
  | .write bytes =>
      let (passed, ds) := ds.write (UInt64.ofNat bytes.length)
      some (.done passed, ds)
  | .put _ =>
      let (passed, ds) := ds.put
      some (.done passed, ds)
  | .skip size =>
      let (passed, ds) := ds.skip size
      some (.done passed, ds)
  | .seekp offset =>
      let (passed, ds) := ds.seekp offset
      some (.done passed, ds)
  | .tellp => some (.number ds.tellp.toNat, ds)
  | .remaining => some (.number ds.remaining.toNat, ds)
  | .valid => some (.done ds.valid, ds)

@[reducible] def machine : Machine Operation (Answer UInt8) where
  State := Output
  step output operation := some (perform output operation)

@[reducible] def counter : Machine Operation (Answer UInt8) where
  State := Counting
  step := count

/-- What a call means for an array. -/
def Operation.access : Operation → Access UInt8
  | .read size => .read size.toNat
  | .write bytes => .write bytes
  | .put c => .write [c]
  | .get => .read 1
  | .skip size => .skip size.toNat
  | .seekp offset => .seek offset.toNat
  | .tellp => .tell
  | .remaining => .remaining
  | .valid => .valid

/-- A call that a stream means: its pointer does not wrap, and what compares pointer
differences finds the position inside the buffer. `write` sees an `int32_t`. -/
def Meant (output : Output) : Operation → Prop
  | .read _ | .remaining => output.stream.pos ≤ output.stream.end_
  | .write bytes => output.stream.pos ≤ output.stream.end_ ∧ bytes.length < 2 ^ 31
  | .skip size => output.stream.pos.toNat + size.toNat < 2 ^ 64
  | .seekp offset => output.stream.start.toNat + offset.toNat < 2 ^ 64
  | .put _ | .get | .tellp | .valid => True

instance instDecidableMeant (output : Output) : (operation : Operation) →
    Decidable (Meant output operation)
  | .read _ | .remaining => inferInstanceAs (Decidable (_ ≤ _))
  | .write _ => inferInstanceAs (Decidable (_ ∧ _))
  | .skip _ | .seekp _ => inferInstanceAs (Decidable (_ < _))
  | .put _ | .get | .tellp | .valid => inferInstanceAs (Decidable True)

/-- The stream stands over the bytes of the array, at its cursor, and has touched nothing
of the original memory outside the buffer. -/
structure Shows (buffer : Buffer) (original : Memory) (output : Output)
    (array : CursorArray UInt8) : Prop where
  start : output.stream.start = buffer.start
  end_ : output.stream.end_ = buffer.start + buffer.size
  pos : output.stream.pos.toNat = buffer.start.toNat + array.cursor
  cells : load output.memory buffer.start buffer.size.toNat = array.cells
  errno : output.stream.errno = if array.refused then .trapOutOfStream else .success
  outside : ∀ other : Address, other.toNat < buffer.start.toNat ∨
    buffer.start.toNat + buffer.size.toNat ≤ other.toNat → output.memory other = original other

/-! ## Ranges of memory -/

/-- A store before a range leaves the range alone. -/
theorem load_store_behind (memory : Memory) (address : Address) (count : Nat)
    (bytes : List UInt8) (fits : bytes.length + count ≤ 2 ^ 64) :
    load (store memory address bytes) (address + UInt64.ofNat bytes.length) count =
      load memory (address + UInt64.ofNat bytes.length) count := by
  apply List.map_congr_left
  intro index member
  have inside := List.mem_range.mp member
  have offset : (address + UInt64.ofNat bytes.length + UInt64.ofNat index - address).toNat =
      bytes.length + index := by
    rw [UInt64.toNat_sub, UInt64.toNat_add, UInt64.toNat_add, UInt64.toNat_ofNat',
      UInt64.toNat_ofNat']
    have bound := address.toNat_lt
    omega
  have beyond : bytes.length ≤ bytes.length + index := by omega
  simp only [store, offset, List.getElem?_eq_none beyond, Option.getD_none]

/-- A range inside a longer one. -/
theorem load_within (memory : Memory) (address : Address) {skipped count total : Nat}
    (within : skipped + count ≤ total) :
    load memory (address + UInt64.ofNat skipped) count =
      ((load memory address total).drop skipped).take count := by
  obtain ⟨rest, rfl⟩ := Nat.exists_eq_add_of_le within
  rw [load_add, load_add, List.append_assoc, List.drop_left' (length_load _ _ _),
    List.take_left' (length_load _ _ _)]

/-- A store inside a range. -/
theorem load_store_within (memory : Memory) (address : Address) {skipped total : Nat}
    {bytes : List UInt8} (within : skipped + bytes.length ≤ total) (small : total ≤ 2 ^ 64) :
    load (store memory (address + UInt64.ofNat skipped) bytes) address total =
      (load memory address total).take skipped ++ bytes ++
        (load memory address total).drop (skipped + bytes.length) := by
  obtain ⟨rest, rfl⟩ := Nat.exists_eq_add_of_le within
  have next : address + UInt64.ofNat (skipped + bytes.length) =
      address + UInt64.ofNat skipped + UInt64.ofNat bytes.length := by
    rw [UInt64.ofNat_add, UInt64.add_assoc]
  have front : (load memory address (skipped + bytes.length + rest)).take skipped =
      load memory address skipped := by
    rw [load_add, load_add, List.append_assoc, List.take_left' (length_load _ _ _)]
  have back : (load memory address (skipped + bytes.length + rest)).drop
      (skipped + bytes.length) =
        load memory (address + UInt64.ofNat (skipped + bytes.length)) rest := by
    rw [load_add memory address (skipped + bytes.length), List.drop_left' (length_load _ _ _)]
  rw [front, back, load_add, load_add, load_store_before _ _ _ _ (by omega),
    load_store _ _ _ (by omega), next, load_store_behind _ _ _ _ (by omega)]

namespace Shows

variable {buffer : Buffer} {original : Memory} {output : Output} {array : CursorArray UInt8}

theorem length (shows : Shows buffer original output array) :
    array.cells.length = buffer.size.toNat := by
  rw [← shows.cells, length_load]

theorem toNat_end (shows : Shows buffer original output array) :
    output.stream.end_.toNat = buffer.start.toNat + array.cells.length := by
  have fits := buffer.fits
  rw [shows.end_, shows.length, UInt64.toNat_add]
  omega

/-- The position is the cursor's address. -/
theorem position (shows : Shows buffer original output array) :
    output.stream.pos = buffer.start + UInt64.ofNat array.cursor := by
  have bound := output.stream.pos.toNat_lt
  apply UInt64.toNat_inj.mp
  rw [shows.pos] at bound ⊢
  rw [UInt64.toNat_add, UInt64.toNat_ofNat']
  omega

theorem inside_iff (shows : Shows buffer original output array) :
    output.stream.pos ≤ output.stream.end_ ↔ array.cursor ≤ array.cells.length := by
  rw [UInt64.le_iff_toNat_le, shows.pos, shows.toNat_end]
  omega

theorem before_iff (shows : Shows buffer original output array) :
    output.stream.pos < output.stream.end_ ↔ array.cursor + 1 ≤ array.cells.length := by
  rw [UInt64.lt_iff_toNat_lt, shows.pos, shows.toNat_end]
  omega

theorem available (shows : Shows buffer original output array) :
    output.stream.available = array.cells.length - array.cursor := by
  rw [DataStream.available, shows.pos, shows.toNat_end]
  omega

/-- Another position of the stream is another place of the cursor. -/
theorem moved (shows : Shows buffer original output array) {pos : Address} {cursor : Nat}
    (there : pos.toNat = buffer.start.toNat + cursor) :
    Shows buffer original { output with stream := { output.stream with pos := pos } }
      { array with cursor := cursor } where
  start := shows.start
  end_ := shows.end_
  pos := there
  cells := shows.cells
  errno := shows.errno
  outside := shows.outside

/-- A refusal shows in the error number alone. -/
theorem refuse (shows : Shows buffer original output array) :
    Shows buffer original
      { output with stream := output.stream.setErrno .trapOutOfStream }
      { array with refused := true } where
  start := shows.start
  end_ := shows.end_
  pos := shows.pos
  cells := shows.cells
  errno := rfl
  outside := shows.outside

/-- Bytes that fit are read from the array. -/
theorem loaded (shows : Shows buffer original output array) {count : Nat}
    (fits : array.cursor + count ≤ array.cells.length) :
    load output.memory output.stream.pos count = (array.cells.drop array.cursor).take count := by
  have within : array.cursor + count ≤ buffer.size.toNat := by
    rwa [← shows.length]
  rw [shows.position, load_within _ _ within, shows.cells]

/-- Bytes that fit are stored in the array. -/
theorem stored (shows : Shows buffer original output array) {bytes : List UInt8} {pos : Address}
    (fits : array.cursor + bytes.length ≤ array.cells.length)
    (there : pos.toNat = buffer.start.toNat + (array.cursor + bytes.length)) :
    Shows buffer original
      ⟨store output.memory output.stream.pos bytes, { output.stream with pos := pos }⟩
      { array with
        cells := array.cells.take array.cursor ++ bytes ++
          array.cells.drop (array.cursor + bytes.length)
        cursor := array.cursor + bytes.length } where
  start := shows.start
  end_ := shows.end_
  pos := there
  cells := by
    have within : array.cursor + bytes.length ≤ buffer.size.toNat := by
      rwa [← shows.length]
    have small := buffer.size.toNat_lt
    simp only
    rw [shows.position, load_store_within _ _ within (by omega), shows.cells]
  errno := shows.errno
  outside := by
    intro other out
    have bufferFits := buffer.fits
    have length := shows.length
    have replaced := store_replaced output.memory output.stream.pos bytes
      (by rw [shows.pos]; omega) other
    rw [if_neg (by rw [shows.pos]; omega)] at replaced
    exact replaced.trans (shows.outside other out)

/-- A `read` takes the bytes at the cursor. -/
theorem perform_read (shows : Shows buffer original output array) {size : Address}
    (meant : Meant output (.read size)) :
    (BufferAccess.perform output (.read size)).1 = (array.perform (.read size.toNat)).1 ∧
      Shows buffer original (BufferAccess.perform output (.read size)).2
        (array.perform (.read size.toNat)).2 := by
  have length := shows.length
  have bufferFits := buffer.fits
  have inside := shows.inside_iff.mp meant
  have check : output.stream.end_ - output.stream.pos ≥ size ↔
      array.cursor + size.toNat ≤ array.cells.length := by
    rw [DataStream.read_check_iff size (UInt64.le_iff_toNat_le.mp meant), shows.available]
    omega
  by_cases fits : array.cursor + size.toNat ≤ array.cells.length
  · simp only [BufferAccess.perform, DataStream.read, if_pos (check.mpr fits),
      CursorArray.perform, if_pos fits, shows.loaded fits, true_and]
    apply shows.moved
    rw [UInt64.toNat_add, shows.pos]
    omega
  · simp only [BufferAccess.perform, DataStream.read, if_neg (check.not.mpr fits),
      CursorArray.perform, if_neg fits, true_and]
    exact shows.refuse

/-- A `write` of a piece that an `int32_t` counts stores it at the cursor. -/
theorem perform_write (shows : Shows buffer original output array) {bytes : List UInt8}
    (object : buffer.size.toNat < 2 ^ 63) (meant : Meant output (.write bytes)) :
    (BufferAccess.perform output (.write bytes)).1 = (array.perform (.write bytes)).1 ∧
      Shows buffer original (BufferAccess.perform output (.write bytes)).2
        (array.perform (.write bytes)).2 := by
  have length := shows.length
  have bufferFits := buffer.fits
  obtain ⟨within, short⟩ := meant
  have inside := shows.inside_iff.mp within
  have passes : (output.stream.write bytes output.memory).1 = true ↔
      array.cursor + bytes.length ≤ array.cells.length := by
    rw [DataStream.write_returns_iff (UInt64.le_iff_toNat_le.mp within)
      (by rw [shows.available]; omega), shows.available]
    omega
  by_cases fits : array.cursor + bytes.length ≤ array.cells.length
  · have performed := passes.mpr fits
    simp only [BufferAccess.perform, performed, DataStream.write_true performed,
      CursorArray.perform, if_pos fits, true_and]
    apply shows.stored fits
    rw [UInt64.toNat_add, UInt64.toNat_ofNat', shows.pos]
    omega
  · have refused := Bool.eq_false_iff.mpr (passes.not.mpr fits)
    simp only [BufferAccess.perform, refused, DataStream.write_false refused,
      CursorArray.perform, if_neg fits, true_and]
    exact shows.refuse

/-- A `put` is a write of one byte. -/
theorem perform_put (shows : Shows buffer original output array) (c : UInt8) :
    (BufferAccess.perform output (.put c)).1 = (array.perform (.write [c])).1 ∧
      Shows buffer original (BufferAccess.perform output (.put c)).2
        (array.perform (.write [c])).2 := by
  by_cases fits : array.cursor + 1 ≤ array.cells.length
  · have one : array.cursor + [c].length ≤ array.cells.length := fits
    simp only [BufferAccess.perform, DataStream.put, if_pos (shows.before_iff.mpr fits),
      CursorArray.perform, List.length_singleton, if_pos fits, true_and]
    apply shows.stored one
    rw [DataStream.toNat_pos_succ (shows.before_iff.mpr fits), shows.pos]
    rfl
  · simp only [BufferAccess.perform, DataStream.put, if_neg (shows.before_iff.not.mpr fits),
      CursorArray.perform, List.length_singleton, if_neg fits, true_and]
    exact shows.refuse

/-- A `get` is a read of one byte. -/
theorem perform_get (shows : Shows buffer original output array) :
    (BufferAccess.perform output .get).1 = (array.perform (.read 1)).1 ∧
      Shows buffer original (BufferAccess.perform output .get).2
        (array.perform (.read 1)).2 := by
  by_cases fits : array.cursor + 1 ≤ array.cells.length
  · have byte := shows.loaded fits
    rw [show load output.memory output.stream.pos 1 = [output.memory output.stream.pos] by
      simp [load]] at byte
    simp only [BufferAccess.perform, DataStream.get, if_pos (shows.before_iff.mpr fits),
      CursorArray.perform, if_pos fits, Option.map_some, byte, true_and]
    apply shows.moved
    rw [DataStream.toNat_pos_succ (shows.before_iff.mpr fits), shows.pos]
    rfl
  · simp only [BufferAccess.perform, DataStream.get, if_neg (shows.before_iff.not.mpr fits),
      CursorArray.perform, if_neg fits, Option.map_none, true_and]
    exact shows.refuse

theorem perform_skip (shows : Shows buffer original output array) {size : Address}
    (meant : Meant output (.skip size)) :
    (BufferAccess.perform output (.skip size)).1 = (array.perform (.skip size.toNat)).1 ∧
      Shows buffer original (BufferAccess.perform output (.skip size)).2
        (array.perform (.skip size.toNat)).2 := by
  refine ⟨rfl, shows.moved ?_⟩
  simp only [Meant] at meant
  rw [UInt64.toNat_add, shows.pos]
  rw [shows.pos] at meant
  omega

theorem perform_seekp (shows : Shows buffer original output array) {offset : Address}
    (meant : Meant output (.seekp offset)) :
    (BufferAccess.perform output (.seekp offset)).1 = (array.perform (.seek offset.toNat)).1 ∧
      Shows buffer original (BufferAccess.perform output (.seekp offset)).2
        (array.perform (.seek offset.toNat)).2 := by
  simp only [Meant, shows.start] at meant
  have there : (output.stream.start + offset).toNat =
      buffer.start.toNat + offset.toNat := by
    rw [UInt64.toNat_add, shows.start]
    omega
  refine ⟨?_, shows.moved there⟩
  simp only [BufferAccess.perform, DataStream.seekp, CursorArray.perform,
    Answer.done.injEq, decide_eq_decide]
  rw [UInt64.le_iff_toNat_le, there, shows.toNat_end]
  omega

theorem toNat_tellp (shows : Shows buffer original output array) :
    output.stream.tellp.toNat = array.cursor := by
  have bound := output.stream.pos.toNat_lt
  rw [shows.pos] at bound
  rw [DataStream.tellp, UInt64.toNat_sub, shows.start, shows.pos]
  omega

theorem toNat_remaining (shows : Shows buffer original output array)
    (inside : output.stream.pos ≤ output.stream.end_) :
    output.stream.remaining.toNat = array.cells.length - array.cursor := by
  have within := shows.inside_iff.mp inside
  have bound := output.stream.end_.toNat_lt
  rw [shows.toNat_end] at bound
  rw [DataStream.remaining, UInt64.toNat_sub, shows.pos, shows.toNat_end]
  omega

theorem valid_eq (shows : Shows buffer original output array) :
    output.stream.valid = decide (array.cursor ≤ array.cells.length) := by
  rw [Bool.eq_iff_iff, DataStream.valid_iff, decide_eq_true_eq, shows.start, shows.pos,
    shows.toNat_end]
  omega

/-- One meant call does what the access does. -/
theorem perform (shows : Shows buffer original output array) (object : buffer.size.toNat < 2 ^ 63)
    {operation : Operation} (meant : Meant output operation) :
    (BufferAccess.perform output operation).1 = (array.perform operation.access).1 ∧
      Shows buffer original (BufferAccess.perform output operation).2
        (array.perform operation.access).2 := by
  cases operation with
  | read size => exact shows.perform_read meant
  | write bytes => exact shows.perform_write object meant
  | put c => exact shows.perform_put c
  | get => exact shows.perform_get
  | skip size => exact shows.perform_skip meant
  | seekp offset => exact shows.perform_seekp meant
  | tellp => exact ⟨congrArg Answer.number shows.toNat_tellp, shows⟩
  | remaining => exact ⟨congrArg Answer.number (shows.toNat_remaining meant), shows⟩
  | valid => exact ⟨congrArg Answer.done shows.valid_eq, shows⟩

end Shows

/-- A new stream shows the bytes of its buffer, from the first one on. -/
theorem shows_new (buffer : Buffer) (memory : Memory) :
    Shows buffer memory ⟨memory, .new buffer⟩
      ⟨load memory buffer.start buffer.size.toNat, 0, false⟩ where
  start := rfl
  end_ := rfl
  pos := rfl
  cells := rfl
  errno := rfl
  outside _ _ := rfl

/-- The lockstep simulation of an array by a stream. -/
def arraySimulation (buffer : Buffer) (original : Memory) (object : buffer.size.toNat < 2 ^ 63) :
    Machine.GuardedSimulation machine ((CursorArray.machine UInt8).comap Operation.access)
      Meant where
  Related := Shows buffer original
  step output array operation shows meant := by
    obtain ⟨same, next⟩ := shows.perform object meant
    exact ⟨_, _, _, rfl, congrArg some (Prod.ext same.symm rfl), next⟩

/-- Whatever is called in whatever order on a new stream over a buffer, as long as every
call is meant: each call answers as the access of an array does, and at the end the array,
its cursor and its refusals are in the buffer, the position and the error number, with
nothing outside the buffer touched. -/
theorem buffer_is_array (buffer : Buffer) (object : buffer.size.toNat < 2 ^ 63) (memory : Memory)
    (operations : List Operation)
    (meant : ∀ step ∈ machine.steps ⟨memory, .new buffer⟩ operations, Meant step.1 step.2) :
    ∃ answers output array,
      machine.run ⟨memory, .new buffer⟩ operations = some (answers, output) ∧
      ((CursorArray.machine UInt8).comap Operation.access).run
        ⟨load memory buffer.start buffer.size.toNat, 0, false⟩ operations =
          some (answers, array) ∧
      Shows buffer memory output array := by
  obtain ⟨answers, output, array, ran, meantRun, shows, _⟩ :=
    (arraySimulation buffer memory object).run_eq (shows_new buffer memory) meant
  exact ⟨answers, output, array, ran, meantRun, shows⟩

/-- A write beyond the end, refused, and a position behind it from which nothing is read. -/
theorem buffer_is_array_beyond :
    let buffer : Buffer := ⟨4096, 3, by decide⟩
    let operations : List Operation := [.put 7, .write [1, 2, 3], .seekp 5, .get, .tellp,
      .seekp 0, .read 2, .remaining]
    ∃ answers output array,
      machine.run ⟨fun _ => 0, .new buffer⟩ operations = some (answers, output) ∧
      ((CursorArray.machine UInt8).comap Operation.access).run
        ⟨load (fun _ => 0) buffer.start buffer.size.toNat, 0, false⟩ operations =
          some (answers, array) ∧
      Shows buffer (fun _ => 0) output array :=
  buffer_is_array _ (by decide) _ _ (by decide)

/-! ## Measuring -/

/-- A call that only goes forward, with a piece that `write` takes. -/
def Operation.Forward : Operation → Prop
  | .write bytes => bytes.length < 2 ^ 31
  | .put _ | .skip _ => True
  | .read _ | .get | .seekp _ | .tellp | .remaining | .valid => False

/-- How far the calls go together. -/
def total : List Operation → Nat
  | [] => 0
  | operation :: rest => CursorArray.advance operation.access + total rest

theorem access_forward {operation : Operation} (forward : operation.Forward) :
    (∃ items, operation.access = .write items) ∨ ∃ count, operation.access = .skip count := by
  cases operation with
  | write bytes => exact .inl ⟨bytes, rfl⟩
  | put c => exact .inl ⟨[c], rfl⟩
  | skip size => exact .inr ⟨size.toNat, rfl⟩
  | read | get | seekp | tellp | remaining | valid => exact forward.elim

/-- `DataStream<size_t>` counts what a call goes forward. -/
theorem count_forward {operation : Operation} (forward : operation.Forward) (ds : Counting) :
    count ds operation = some (.done true,
      ⟨ds.size + UInt64.ofNat (CursorArray.advance operation.access)⟩) := by
  cases operation with
  | write bytes => rfl
  | put c => rfl
  | skip size =>
      simp only [count, Counting.skip, Operation.access, CursorArray.advance, UInt64.ofNat_toNat]
  | read | get | seekp | tellp | remaining | valid => exact forward.elim

theorem counter_run {operations : List Operation}
    (forward : ∀ operation ∈ operations, operation.Forward) (ds : Counting) :
    counter.run ds operations = some (List.replicate operations.length (.done true),
      ⟨ds.size + UInt64.ofNat (total operations)⟩) := by
  induction operations generalizing ds with
  | nil => simp [Machine.run, total]
  | cons operation rest restRun =>
      obtain ⟨here, behind⟩ := List.forall_mem_cons.mp forward
      have sum : ds.size + UInt64.ofNat (total (operation :: rest)) =
          ds.size + UInt64.ofNat (CursorArray.advance operation.access) +
            UInt64.ofNat (total rest) := by
        rw [total, UInt64.ofNat_add, UInt64.add_assoc]
      rw [sum]
      exact Machine.run_cons_eq_some.mpr
        ⟨_, _, _, count_forward here ds, restRun behind _, rfl⟩

/-- Calls that stay inside the buffer all pass. -/
theorem run_inside {buffer : Buffer} (object : buffer.size.toNat < 2 ^ 63) {original : Memory}
    {operations : List Operation} (forward : ∀ operation ∈ operations, operation.Forward)
    {output : Output} {array : CursorArray UInt8} (shows : Shows buffer original output array)
    (fits : array.cursor + total operations ≤ array.cells.length) :
    ∃ output' array', machine.run output operations =
        some (List.replicate operations.length (.done true), output') ∧
      Shows buffer original output' array' ∧ array'.refused = array.refused ∧
      array'.cursor = array.cursor + total operations := by
  induction operations generalizing output array with
  | nil => exact ⟨output, array, rfl, shows, rfl, rfl⟩
  | cons operation rest restRun =>
      obtain ⟨here, behind⟩ := List.forall_mem_cons.mp forward
      simp only [total] at fits ⊢
      have inside : output.stream.pos ≤ output.stream.end_ := shows.inside_iff.mpr (by omega)
      have bufferFits := buffer.fits
      have length := shows.length
      have meant : Meant output operation := by
        cases operation with
        | write bytes => exact ⟨inside, here⟩
        | put c => exact trivial
        | skip size =>
            simp only [Operation.access, CursorArray.advance] at fits
            simp only [Meant, shows.pos]
            omega
        | read | get | seekp | tellp | remaining | valid => exact here.elim
      obtain ⟨same, next⟩ := shows.perform object meant
      obtain ⟨passed, cursor, refused⟩ := CursorArray.perform_forward (access_forward here)
        (show array.cursor + CursorArray.advance operation.access ≤ array.cells.length by omega)
      obtain ⟨output', array', ran, showsThen, refusedThen, cursorThen⟩ := restRun behind next
        (by rw [CursorArray.length_perform, cursor]; omega)
      refine ⟨output', array', ?_, showsThen, refusedThen.trans refused, ?_⟩
      · have here : machine.step output operation =
            some (.done true, (BufferAccess.perform output operation).2) :=
          congrArg some (Prod.ext (same.trans passed) rfl)
        exact Machine.run_cons_eq_some.mpr ⟨_, _, _, here, ran, rfl⟩
      · rw [cursorThen, cursor]
        omega

/-- Writes, puts and skips that a `DataStream<size_t>` went through fit every buffer of the
size it ends with: each of them passes, and the stream ends at the end of the buffer. -/
theorem measured_fits (operations : List Operation)
    (forward : ∀ operation ∈ operations, operation.Forward)
    (object : total operations < 2 ^ 63) :
    ∃ answers ds, counter.run ⟨0⟩ operations = some (answers, ds) ∧
      (∀ answer ∈ answers, answer = .done true) ∧
      ∀ (buffer : Buffer) (memory : Memory), buffer.size = ds.tellp →
        ∃ output, machine.run ⟨memory, .new buffer⟩ operations = some (answers, output) ∧
          output.stream.tellp = ds.tellp ∧ output.stream.remaining = 0 ∧
          output.stream.errno = .success := by
  refine ⟨_, _, counter_run forward ⟨0⟩, fun answer inside => List.eq_of_mem_replicate inside, ?_⟩
  intro buffer memory sized
  have size : buffer.size.toNat = total operations := by
    rw [sized, Counting.tellp, UInt64.toNat_add, UInt64.toNat_ofNat']
    simp only [UInt64.toNat_zero]
    omega
  have new := shows_new buffer memory
  obtain ⟨output, array, ran, shows, refused, cursor⟩ := run_inside (by omega) forward new
    (by rw [new.length, size]; exact Nat.le_of_eq (Nat.zero_add _))
  have atEnd : array.cursor = buffer.size.toNat := by
    rw [cursor, size]
    exact Nat.zero_add _
  have inside := shows.inside_iff.mpr (by rw [atEnd, shows.length])
  refine ⟨output, ran, ?_, ?_, ?_⟩
  · rw [← sized]
    exact UInt64.toNat_inj.mp (shows.toNat_tellp.trans atEnd)
  · apply UInt64.toNat_inj.mp
    rw [shows.toNat_remaining inside, atEnd, shows.length, Nat.sub_self, UInt64.toNat_zero]
  · rw [shows.errno, refused]
    rfl

/-- Two bytes, a gap of three and another byte are measured as six. -/
theorem measured_fits_six :
    ∃ answers ds, counter.run ⟨0⟩ [.write [1, 2], .skip 3, .put 4] = some (answers, ds) ∧
      (∀ answer ∈ answers, answer = .done true) ∧
      ∀ (buffer : Buffer) (memory : Memory), buffer.size = ds.tellp →
        ∃ output, machine.run ⟨memory, .new buffer⟩ [.write [1, 2], .skip 3, .put 4] =
            some (answers, output) ∧
          output.stream.tellp = ds.tellp ∧ output.stream.remaining = 0 ∧
          output.stream.errno = .success :=
  measured_fits _ (by
    intro operation inside
    rcases List.mem_cons.mp inside with rfl | inside
    · exact (by decide : [1, 2].length < 2 ^ 31)
    · rcases List.mem_cons.mp inside with rfl | inside
      · trivial
      · cases List.mem_singleton.mp inside
        trivial) (by decide)

end BufferAccess
end XProject.Base
