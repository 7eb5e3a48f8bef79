import XProject.Stream.GrowableMemory

/-!
# Using a memory stream again

`Clear` empties the buffer, or makes a new one after `ReleaseOutputBuffer` has
handed the old one out; neither moves the offset of the base class. Writes after
a `Clear` leave a gap of zeros as long as that offset, and a write after a
release goes through a null pointer. `reused_iff` says when neither happens.
That no more is written than a vector holds is part of being reused.
-/

namespace XProject.Base.MemoryStream

open XProject.Std

variable {Log : Type}

/-- `ReleaseOutputBuffer`: the buffer handed out and the stream afterwards. -/
def releaseOutputBuffer (stream : Stream MemoryStream Log) :
    Option (List UInt8) × Stream MemoryStream Log :=
  (stream.impl.buf, { stream with impl := ⟨none⟩ })

/-- `Clear`: the buffer is emptied, or an empty one made. -/
def clear (stream : Stream MemoryStream Log) : Stream MemoryStream Log :=
  match stream.impl.buf with
  | some _ => { stream with impl := ⟨some []⟩ }
  | none => { stream with impl := ⟨some []⟩ }

/-- The two ways of starting over. -/
inductive Reset where
  | clear
  | releaseOutputBuffer

/-- The stream after starting over. -/
def Reset.apply : Reset → Stream MemoryStream Log → Stream MemoryStream Log
  | .clear, stream => MemoryStream.clear stream
  | .releaseOutputBuffer, stream => (MemoryStream.releaseOutputBuffer stream).2

/-- A call on a memory stream, or starting over. -/
inductive Use where
  | call (call : Call)
  | reset (reset : Reset)

/-- A memory stream that takes calls and starts over in any order, observed after each. -/
@[reducible] def lifetime [LogWriter Log] : Machine Use (Option (List UInt8) × Address) where
  State := Stream MemoryStream Log
  step stream use :=
    match use with
    | .call call => (Stream.machine observe).step stream call
    | .reset reset => some (observe (reset.apply stream), reset.apply stream)

/-- What a buffer that was empty at offset `gap` holds after `data` was written. -/
def gapped (gap : Nat) (data : List UInt8) : List UInt8 :=
  if data = [] then [] else List.replicate gap 0 ++ data

theorem gapped_eq_self_iff (gap : Nat) (data : List UInt8) :
    gapped gap data = data ↔ data = [] ∨ gap = 0 := by
  rcases eq_or_ne data [] with rfl | some_
  · simp [gapped]
  · simp [gapped, some_]

/-- A live stream that was emptied at offset `gap` and has written `data` since. -/
structure Padded (stream : Stream MemoryStream Log) (gap : Nat) (data : List UInt8) : Prop where
  memory : ∃ memory : Growable UInt8, stream.impl.buf = some memory.contents ∧
    memory.contents = gapped gap data
  offset : stream.offset.toNat = gap + data.length
  result : stream.result = .ok

/-- Emptying a live stream. -/
theorem clear_padded {stream : Stream MemoryStream Log} (live : stream.result = .ok) :
    Padded (clear stream) stream.offset.toNat [] := by
  unfold clear
  split <;> exact ⟨⟨.empty, rfl, rfl⟩, rfl, live⟩

/-- A write where the data end goes on after them, or after the gap. -/
theorem gapped_write {memory : Growable UInt8} {gap : Nat} {data src : List UInt8}
    (contents : memory.contents = gapped gap data) :
    (memory.write (gap + data.length) src).contents = gapped gap (data ++ src) := by
  have length := memory.length_contents
  rw [contents] at length
  rcases eq_or_ne src [] with rfl | some_
  · simpa [Growable.write] using contents
  · rcases eq_or_ne data [] with rfl | before
    · simp only [gapped, if_pos, List.length_nil, Nat.add_zero, List.nil_append, if_neg some_]
        at length contents ⊢
      rw [Growable.contents_write_beyond some_ (by omega), contents, ← length, Nat.sub_zero,
        List.nil_append]
    · simp only [gapped, if_neg before, List.length_append, List.length_replicate] at length
      rw [Growable.contents_append length, contents]
      simp [gapped, before]

/-- Beyond `SIZE_MAX` the end wraps, the vector is not grown and the copy leaves it. -/
theorem writeDataImpl_eq_none {dstOffset : Address} {src : List UInt8} {memory : Growable UInt8}
    (some_ : src ≠ []) (held : memory.length < 2 ^ 64)
    (beyond : 2 ^ 64 ≤ dstOffset.toNat + src.length) :
    writeDataImpl dstOffset src ⟨some memory.contents⟩ = none := by
  have positive : src.length ≠ 0 := by simpa using some_
  have end_ := (dstOffset + UInt64.ofNat src.length).toNat_lt
  have short : ¬ dstOffset.toNat + src.length ≤
      (memory.reserve (dstOffset + UInt64.ofNat src.length).toNat).length := by
    simp only [Growable.reserve]
    omega
  have outside : overwrite (memory.reserve (dstOffset + UInt64.ofNat src.length).toNat).contents
      dstOffset.toNat src = none := by
    rw [overwrite, Growable.length_contents, if_neg short]
  simp only [writeDataImpl, if_neg positive, grown_contents, outside]

/-- `WriteDataImpl` never fails, and leaves a null buffer null. -/
theorem writeDataImpl_eq_some {dstOffset : Address} {src : List UInt8}
    {memory next : MemoryStream} {result : Result}
    (given : writeDataImpl dstOffset src memory = some (result, next)) :
    result = .ok ∧ (memory.buf = none → next.buf = none) := by
  unfold writeDataImpl at given
  split at given
  · cases given
    exact ⟨rfl, id⟩
  · split at given
    · cases given
    · rename_i data held
      dsimp only at given
      split at given <;> cases given
      refine ⟨rfl, fun released => ?_⟩
      cases held.symm.trans released

/-- `MoveDataImpl` never fails. -/
theorem moveDataImpl_eq_some {dstOffset srcOffset size : Address} {memory next : MemoryStream}
    {result : Result}
    (given : moveDataImpl dstOffset srcOffset size memory = some (result, next)) :
    result = .ok := by
  unfold moveDataImpl at given
  split at given
  · cases given
    rfl
  · split at given
    · cases given
    · dsimp only at given
      split at given <;> cases given
      rfl

variable [LogWriter Log]

/-- A write after the gap that is empty or ends within `SIZE_MAX` appends. -/
theorem Padded.writeData {stream : Stream MemoryStream Log} {gap : Nat} {data : List UInt8}
    (padded : Padded stream gap data) {chunk : Chunk}
    (fits : chunk.src = [] ∨ gap + data.length + chunk.src.length < 2 ^ 64) :
    ∃ next, stream.perform (.writeData chunk) = some next ∧ Padded next gap (data ++ chunk.src) := by
  obtain ⟨memory, buf, contents⟩ := padded.memory
  have impl : stream.impl = ⟨some memory.contents⟩ := congrArg MemoryStream.mk buf
  have within : stream.offset.toNat + chunk.src.length < 2 ^ 64 := by
    have below := stream.offset.toNat_lt
    rw [padded.offset] at below ⊢
    rcases fits with empty | fits
    · simpa [empty] using below
    · exact fits
  have written : StreamImpl.writeDataImpl stream.offset chunk.src stream.impl =
      some (Result.ok, (⟨some (memory.write stream.offset.toNat chunk.src).contents⟩ :
        MemoryStream)) := by
    rw [impl]
    exact writeDataImpl_contents within
  refine ⟨_, Stream.writeData_of_ok padded.result written, ⟨_, rfl, ?_⟩, ?_, rfl⟩
  · rw [padded.offset]
    exact gapped_write contents
  · rw [UInt64.toNat_add, UInt64.toNat_ofNat', List.length_append, ← Nat.add_assoc,
      ← padded.offset]
    omega

/-- A write after the gap that has a result is one of these. -/
theorem Padded.fits {stream next : Stream MemoryStream Log} {gap : Nat} {data : List UInt8}
    (padded : Padded stream gap data) {chunk : Chunk}
    (performed : stream.perform (.writeData chunk) = some next) :
    chunk.src = [] ∨ gap + data.length + chunk.src.length < 2 ^ 64 := by
  by_contra misfit
  obtain ⟨some_, beyond⟩ := not_or.mp misfit
  obtain ⟨memory, buf, contents⟩ := padded.memory
  have impl : stream.impl = ⟨some memory.contents⟩ := congrArg MemoryStream.mk buf
  have held : memory.length < 2 ^ 64 := by
    have below := stream.offset.toNat_lt
    have length := memory.length_contents
    rw [padded.offset] at below
    rw [contents, gapped] at length
    split at length
    · rw [← length]
      exact Nat.two_pow_pos 64
    · rw [List.length_append, List.length_replicate] at length
      omega
  have refused : StreamImpl.writeDataImpl stream.offset chunk.src stream.impl = none := by
    rw [impl]
    exact writeDataImpl_eq_none some_ held (by rw [padded.offset]; omega)
  simp [Stream.perform, Stream.writeData, Stream.writeDataAt, padded.result, refused] at performed

/-- A run of writes after the gap appends them all. -/
theorem Padded.of_run {stream final : Stream MemoryStream Log} {gap : Nat} {data : List UInt8}
    (padded : Padded stream gap data) {chunks : List Chunk}
    {outputs : List (Option (List UInt8) × Address)}
    (ran : (Stream.writer observe).run stream chunks = some (outputs, final)) :
    Padded final gap (data ++ Chunk.bytes chunks) := by
  induction chunks generalizing stream data outputs with
  | nil =>
      cases ran
      simpa [Chunk.bytes] using padded
  | cons chunk rest ih =>
      obtain ⟨output, next, later, taken, ranRest, _⟩ := Machine.run_cons_eq_some.mp ran
      have performed := (Stream.machine_step_eq_some.mp taken).1
      obtain ⟨next', performed', paddedNext⟩ := padded.writeData (padded.fits performed)
      cases performed.symm.trans performed'
      have paddedFinal := ih paddedNext ranRest
      have bytes : Chunk.bytes (chunk :: rest) = chunk.src ++ Chunk.bytes rest := rfl
      rw [List.append_assoc] at paddedFinal
      exact bytes ▸ paddedFinal

/-- Writes after the gap that end within `SIZE_MAX` are all performed. -/
theorem Padded.run {stream : Stream MemoryStream Log} {gap : Nat} {data : List UInt8}
    (padded : Padded stream gap data) {chunks : List Chunk}
    (fits : Chunk.bytes chunks = [] ∨
      gap + data.length + (Chunk.bytes chunks).length < 2 ^ 64) :
    ∃ outputs final, (Stream.writer observe).run stream chunks = some (outputs, final) := by
  induction chunks generalizing stream data with
  | nil => exact ⟨[], stream, rfl⟩
  | cons chunk rest ih =>
      have bytes : Chunk.bytes (chunk :: rest) = chunk.src ++ Chunk.bytes rest := rfl
      rw [bytes, List.append_eq_nil_iff, List.length_append] at fits
      have fitsHere : chunk.src = [] ∨ gap + data.length + chunk.src.length < 2 ^ 64 :=
        fits.imp And.left (by omega)
      obtain ⟨next, performed, paddedNext⟩ := padded.writeData fitsHere
      have fitsRest : Chunk.bytes rest = [] ∨
          gap + (data ++ chunk.src).length + (Chunk.bytes rest).length < 2 ^ 64 := by
        rw [List.length_append]
        exact fits.imp And.right (by omega)
      obtain ⟨later, final, ran⟩ := ih paddedNext fitsRest
      exact ⟨_, final, Machine.run_cons_eq_some.mpr
        ⟨_, next, later, Stream.machine_step_eq_some.mpr ⟨performed, rfl⟩, ran, rfl⟩⟩

/-- A live memory stream stays live. -/
theorem perform_live {stream next : Stream MemoryStream Log} {call : Call}
    (live : stream.result = .ok) (performed : stream.perform call = some next) :
    next.result = .ok := by
  cases call with
  | writeData chunk =>
      obtain ⟨attempted, made, rfl⟩ := Stream.writeData_eq_some performed
      rcases Stream.attempt_eq_some made with ⟨_, rfl⟩ | ⟨_, result, impl, given, rfl⟩
      · exact live
      · exact (writeDataImpl_eq_some given).1
  | writeDataAt at_ chunk =>
      rcases Stream.attempt_eq_some performed with ⟨_, rfl⟩ | ⟨_, result, impl, given, rfl⟩
      · exact live
      · exact (writeDataImpl_eq_some given).1
  | moveData dstOffset srcOffset size =>
      rcases Stream.attempt_eq_some performed with ⟨_, rfl⟩ | ⟨_, result, impl, given, rfl⟩
      · exact live
      · exact moveDataImpl_eq_some given
  | addOffset delta =>
      cases performed
      exact live
  | clearOffset =>
      cases performed
      exact live

/-- Writing through a null buffer never makes one. -/
theorem perform_released {stream next : Stream MemoryStream Log} {chunk : Chunk}
    (released : stream.impl.buf = none) (performed : stream.perform (.writeData chunk) = some next) :
    next.impl.buf = none := by
  obtain ⟨attempted, made, rfl⟩ := Stream.writeData_eq_some performed
  rcases Stream.attempt_eq_some made with ⟨_, rfl⟩ | ⟨_, result, impl, given, rfl⟩
  · exact released
  · exact (writeDataImpl_eq_some given).2 released

/-- All of the writes are performed, and the buffer ends up with exactly their bytes, which
are as many as a vector holds. -/
def Reused (stream : Stream MemoryStream Log) (chunks : List Chunk) : Prop :=
  ∃ outputs final, (Stream.writer observe).run stream chunks = some (outputs, final) ∧
    final.impl.buf = some (Chunk.bytes chunks) ∧ (Chunk.bytes chunks).length ≤ maxSize

omit [LogWriter Log] in
theorem reset_live {stream : Stream MemoryStream Log} (live : stream.result = .ok)
    (reset : Reset) : (reset.apply stream).result = .ok := by
  cases reset with
  | clear =>
      change (MemoryStream.clear stream).result = .ok
      unfold MemoryStream.clear
      split <;> exact live
  | releaseOutputBuffer => exact live

/-- Nothing that is done with a live memory stream makes it fail. -/
theorem run_live {start last : Stream MemoryStream Log} {uses : List Use}
    {outputs : List (Option (List UInt8) × Address)} (live : start.result = .ok)
    (performed : lifetime.run start uses = some (outputs, last)) : last.result = .ok := by
  refine @Machine.run_preserves _ _ lifetime
    (fun state : Stream MemoryStream Log => state.result = .ok) ?_ start _ _ _ live performed
  intro state use output next live taken
  cases use with
  | call call => exact perform_live live (Stream.machine_step_eq_some.mp taken).1
  | reset reset =>
      cases taken
      exact reset_live live reset

/-- A released stream never has a buffer again. -/
theorem not_reused_of_release (stream : Stream MemoryStream Log) (chunks : List Chunk) :
    ¬Reused (Reset.releaseOutputBuffer.apply stream) chunks := by
  rintro ⟨_, final, ran, buf, _⟩
  have released : final.impl.buf = none := by
    refine @Machine.run_preserves _ _ (Stream.writer observe)
      (fun state : Stream MemoryStream Log => state.impl.buf = none) ?_
      (Reset.releaseOutputBuffer.apply stream) _ _ _ rfl ran
    intro state chunk output next released taken
    exact perform_released released (Stream.machine_step_eq_some.mp taken).1
  cases released.symm.trans buf

/-- A cleared stream starts over exactly if nothing is written or its offset was zero. -/
theorem reused_of_clear_iff {stream : Stream MemoryStream Log} (live : stream.result = .ok)
    (chunks : List Chunk) :
    Reused (Reset.clear.apply stream) chunks ↔
      Chunk.bytes chunks = [] ∨ stream.offset = 0 ∧ (Chunk.bytes chunks).length ≤ maxSize := by
  have padded : Padded (Reset.clear.apply stream) stream.offset.toNat [] := clear_padded live
  have start : stream.offset = 0 ↔ stream.offset.toNat = 0 := UInt64.toNat_inj.symm
  rw [start]
  constructor
  · rintro ⟨_, final, ran, buf, most⟩
    obtain ⟨memory, held, contents⟩ := (padded.of_run ran).memory
    have exact_ : gapped stream.offset.toNat (Chunk.bytes chunks) = Chunk.bytes chunks := by
      rw [List.nil_append] at contents
      rw [← contents]
      exact Option.some.inj (held.symm.trans buf)
    exact ((gapped_eq_self_iff _ _).mp exact_).imp_right fun zero => ⟨zero, most⟩
  · intro reusable
    have exact_ : gapped stream.offset.toNat (Chunk.bytes chunks) = Chunk.bytes chunks :=
      (gapped_eq_self_iff _ _).mpr (reusable.imp_right And.left)
    have fits : Chunk.bytes chunks = [] ∨ stream.offset.toNat + ([] : List UInt8).length +
        (Chunk.bytes chunks).length < 2 ^ 64 := by
      refine reusable.imp_right ?_
      rintro ⟨zero, most⟩
      rw [zero, List.length_nil]
      unfold maxSize at most
      omega
    obtain ⟨outputs, final, ran⟩ := padded.run fits
    obtain ⟨memory, held, contents⟩ := (padded.of_run ran).memory
    refine ⟨outputs, final, ran, by rw [held, contents, List.nil_append, exact_], ?_⟩
    rcases reusable with nothing | ⟨_, most⟩
    · rw [nothing]
      exact Nat.zero_le _
    · exact most

/-- After any calls on a fresh stream, among which it may have started over, and either way of
starting over: the stream can be reused for some writes exactly when it was cleared and
not just released, and they write nothing, or the offset was zero and they fit in a vector. -/
theorem reused_iff (logStream : Option Log) (history : List Use)
    {outputs : List (Option (List UInt8) × Address)} {stream : Stream MemoryStream Log}
    (performed : lifetime.run (new logStream) history = some (outputs, stream))
    (reset : Reset) (chunks : List Chunk) :
    Reused (reset.apply stream) chunks ↔
      reset = .clear ∧ (Chunk.bytes chunks = [] ∨
        stream.offset = 0 ∧ (Chunk.bytes chunks).length ≤ maxSize) := by
  have live : stream.result = .ok := run_live rfl performed
  cases reset with
  | releaseOutputBuffer =>
      exact iff_of_false (not_reused_of_release stream chunks) fun cleared => nomatch cleared.1
  | clear => exact (reused_of_clear_iff live chunks).trans (and_iff_right rfl).symm

/-- Writes again after `ClearOffset`, `ReleaseOutputBuffer` and the `Clear` that makes a new
buffer. -/
theorem reused_after_clear_offset :
    let history : List Use := [.call (.writeData ⟨[1], none, .no, by decide⟩),
      .call .clearOffset, .reset .releaseOutputBuffer]
    let chunks : List Chunk := [⟨[2], none, .no, by decide⟩]
    ∃ outputs stream,
      lifetime.run (new (none : Option Empty)) history = some (outputs, stream) ∧
      (Reused (Reset.clear.apply stream) chunks ↔
        Reset.clear = .clear ∧ (Chunk.bytes chunks = [] ∨
          stream.offset = 0 ∧ (Chunk.bytes chunks).length ≤ maxSize)) :=
  ⟨_, _, rfl, reused_iff none [.call (.writeData ⟨[1], none, .no, by decide⟩),
    .call .clearOffset, .reset .releaseOutputBuffer] rfl _ _⟩

/-- One byte written, a reset, one byte written: after `Clear` the second byte
lands behind a zero, and after a release it goes through a null pointer. -/
theorem reset_loses_start :
    let history : List Call := [.writeData ⟨[1], none, .no, by decide⟩]
    let chunks : List Chunk := [⟨[2], none, .no, by decide⟩]
    ∃ outputs stream later final,
      (Stream.machine observe).run (new (none : Option Empty)) history =
        some (outputs, stream) ∧
      (Stream.writer observe).run (Reset.clear.apply stream) chunks = some (later, final) ∧
      final.impl.buf = some [0, 2] ∧ some [0, 2] ≠ some (Chunk.bytes chunks) ∧
      (Stream.writer observe).run (Reset.releaseOutputBuffer.apply stream) chunks = none :=
  ⟨_, _, _, _, rfl, rfl, rfl, by decide, rfl⟩

end XProject.Base.MemoryStream
