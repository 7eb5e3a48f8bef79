import XProject.Stream.FileStream

/-!
# Streams after an error

After an error a stream leaves its implementation and its log alone, whatever is
called. Its offset is another matter: `WriteData` advances it whether or not the
write took place. `offset_exact_iff` characterizes the runs along which the
offset counts the bytes written.
-/

namespace XProject.Base.Stream

open XProject.Std

variable {Impl Log : Type} [MovableImpl Impl] [LogWriter Log]

/-- A call of `WriteData`, `WriteDataAt` or `MoveData`. -/
abbrev Access := { call : Call // call.Accesses }

/-- A stream with the total size of the `WriteData` calls whose write succeeded. -/
structure Metered (Impl Log : Type) where
  stream : Stream Impl Log
  written : Nat

/-- What a call that led from one stream to another adds to the total. -/
def credit (before after : Stream Impl Log) : Call → Nat
  | .writeData chunk =>
      if before.result = .ok ∧ after.result = .ok then chunk.src.length else 0
  | .writeDataAt _ _ | .moveData _ _ _ | .addOffset _ | .clearOffset => 0

/-- A stream with its total, taking one access at a time. -/
@[reducible] def meteredMachine (Impl Log : Type) [MovableImpl Impl] [LogWriter Log] :
    Machine Access Unit where
  State := Metered Impl Log
  step state access :=
    match perform access.1 state.stream with
    | none => none
    | some next =>
        some ((), { stream := next, written := state.written + credit state.stream next access.1 })

/-- A stream with the given implementation, as its constructor leaves it. -/
def Metered.new (logStream : Option Log) (impl : Impl) : Metered Impl Log where
  stream := { offset := 0, result := .ok, logStream := logStream, impl := impl }
  written := 0

/-- Once failed, the later stream is failed too, with the implementation and the
log of the earlier one. -/
def FrozenFrom (earlier later : Stream Impl Log) : Prop :=
  earlier.result = .error →
    later.result = .error ∧ later.impl = earlier.impl ∧ later.logStream = earlier.logStream

/-- The offset is the total size of the successful writes. -/
def OffsetExact (state : Metered Impl Log) : Prop :=
  state.stream.offset = UInt64.ofNat state.written

/-- `WriteData` is called with no bytes, or on a live stream whose implementation
does not refuse the write. -/
def Succeeds (stream : Stream Impl Log) : Call → Prop
  | .writeData chunk =>
      chunk.src = [] ∨ stream.result = .ok ∧ ∀ result impl,
        StreamImpl.writeDataImpl stream.offset chunk.src stream.impl = some (result, impl) →
          result = .ok
  | .writeDataAt _ _ | .moveData _ _ _ | .addOffset _ | .clearOffset => True

omit [MovableImpl Impl] [LogWriter Log] in
theorem FrozenFrom.trans {first second third : Stream Impl Log}
    (later : FrozenFrom first second) (latest : FrozenFrom second third) :
    FrozenFrom first third := by
  intro failed
  obtain ⟨stillFailed, impl, logStream⟩ := later failed
  obtain ⟨result, implThird, logThird⟩ := latest stillFailed
  exact ⟨result, implThird.trans impl, logThird.trans logStream⟩

omit [MovableImpl Impl] [LogWriter Log] in
/-- An attempt freezes a failed stream and never moves the offset. -/
theorem attempt_frozen {line : Log → Log} {effect : Impl → Option (Result × Impl)}
    {stream next : Stream Impl Log} (made : attempt line effect stream = some next) :
    FrozenFrom stream next ∧ next.offset = stream.offset := by
  rcases attempt_eq_some made with ⟨_, rfl⟩ | ⟨live, result, impl, _, rfl⟩
  · exact ⟨fun failed => ⟨failed, rfl, rfl⟩, rfl⟩
  · refine ⟨fun failed => ?_, rfl⟩
    cases live.symm.trans failed

/-- Every access freezes a failed stream. -/
theorem perform_frozen {access : Access} {stream next : Stream Impl Log}
    (performed : perform access.1 stream = some next) : FrozenFrom stream next := by
  obtain ⟨call, accesses⟩ := access
  cases call with
  | writeData chunk =>
      obtain ⟨attempted, made, rfl⟩ := writeData_eq_some performed
      exact (attempt_frozen made).1
  | writeDataAt at_ chunk => exact (attempt_frozen performed).1
  | moveData dstOffset srcOffset size => exact (attempt_frozen performed).1
  | addOffset _ => exact accesses.elim
  | clearOffset => exact accesses.elim

/-- Only a live stream's `WriteData` can have no result, and then the implementation
has not refused it. -/
theorem succeeds_of_undefined {stream : Stream Impl Log} {call : Call}
    (undefined : perform call stream = none) : Succeeds stream call := by
  cases call with
  | writeData chunk =>
      simp only [perform, writeData, writeDataAt_eq_attempt] at undefined
      split at undefined
      · rename_i stuck
        obtain ⟨live, given⟩ := attempt_eq_none stuck
        refine .inr ⟨live, fun result impl answered => ?_⟩
        cases given.symm.trans answered
      · cases undefined
  | writeDataAt _ _ => exact trivial
  | moveData _ _ _ => exact trivial
  | addOffset _ => exact trivial
  | clearOffset => exact trivial

/-- A step of the machine is an access that has a result. -/
theorem meteredMachine_step {state next : Metered Impl Log} {access : Access} {output : Unit}
    (taken : (meteredMachine Impl Log).step state access = some (output, next)) :
    perform access.1 state.stream = some next.stream ∧
      next.written = state.written + credit state.stream next.stream access.1 := by
  simp only [meteredMachine] at taken
  split at taken
  · cases taken
  · rename_i performed
    cases taken
    exact ⟨performed, rfl⟩

/-- Adding a size to an offset is adding nothing only for size zero. -/
theorem ofNat_chunk_eq_zero_iff (chunk : Chunk) :
    UInt64.ofNat chunk.src.length = 0 ↔ chunk.src = [] := by
  have fits := chunk.fits
  constructor
  · intro zero
    have length := congrArg UInt64.toNat zero
    rw [UInt64.toNat_ofNat', Nat.mod_eq_of_lt fits] at length
    exact List.length_eq_zero_iff.mp length
  · intro empty
    rw [empty]
    rfl

omit [LogWriter Log] in
/-- A write that adds nothing to the total keeps the offset exact only when it is empty. -/
theorem advance_without_credit_iff {chunk : Chunk} {stream : Stream Impl Log}
    (refused : ¬ (stream.result = .ok ∧ ∀ result impl,
      StreamImpl.writeDataImpl stream.offset chunk.src stream.impl = some (result, impl) →
        result = .ok)) :
    stream.offset + UInt64.ofNat chunk.src.length = stream.offset ↔
      Succeeds stream (.writeData chunk) := by
  rw [UInt64.add_eq_left, ofNat_chunk_eq_zero_iff]
  simp only [Succeeds, refused, or_false]

/-- While the offset is exact, exactly the accesses that succeed keep it so. -/
theorem exact_step_iff {state next : Metered Impl Log} {access : Access}
    (holds : OffsetExact state) (performed : perform access.1 state.stream = some next.stream)
    (written : next.written = state.written + credit state.stream next.stream access.1) :
    OffsetExact next ↔ Succeeds state.stream access.1 := by
  obtain ⟨call, accesses⟩ := access
  rw [OffsetExact, written, UInt64.ofNat_add, ← holds]
  cases call with
  | writeData chunk =>
      obtain ⟨attempted, made, moved⟩ := writeData_eq_some performed
      have nothing : UInt64.ofNat 0 = 0 := rfl
      rcases attempt_eq_some made with ⟨failed, rfl⟩ | ⟨live, result, impl, given, rfl⟩
      · have refused : ¬ state.stream.result = .ok := by simp [failed]
        simp only [moved, credit, refused, false_and, if_false, nothing, UInt64.add_zero]
        exact advance_without_credit_iff fun succeeds => refused succeeds.1
      · cases result with
        | ok =>
            have succeeds : Succeeds state.stream (.writeData chunk) := by
              refine .inr ⟨live, fun result impl' given' => ?_⟩
              cases given.symm.trans given'
              rfl
            simp [moved, credit, live, succeeds]
        | error =>
            have refused : ¬ ((.error : Result) = .ok) := by decide
            simp only [moved, credit, refused, and_false, if_false, nothing, UInt64.add_zero]
            exact advance_without_credit_iff fun succeeds => refused (succeeds.2 _ _ given)
  | writeDataAt at_ chunk => simp [(attempt_frozen performed).2, credit, Succeeds]
  | moveData dstOffset srcOffset size => simp [(attempt_frozen performed).2, credit, Succeeds]
  | addOffset _ => exact accesses.elim
  | clearOffset => exact accesses.elim

/-- Whatever the implementation refuses and whatever is called on a fresh stream:
once failed it stays failed and leaves its implementation and its log alone, and
its offset is the total size of the successful `WriteData` calls in every state
visited exactly when every `WriteData` of the run is empty or succeeds. A log stream is
taken to be given only what it can log. -/
theorem freezes_and_offset_exact_iff (logStream : Option Log) (impl : Impl)
    (accesses : List Access) :
    ((meteredMachine Impl Log).states (.new logStream impl) accesses).Pairwise
        (fun earlier later => FrozenFrom earlier.stream later.stream) ∧
      ((∀ state ∈ (meteredMachine Impl Log).states (.new logStream impl) accesses,
          OffsetExact state) ↔
        ∀ step ∈ (meteredMachine Impl Log).steps (.new logStream impl) accesses,
          Succeeds step.1.stream step.2.1) := by
  constructor
  · refine @Machine.states_pairwise _ _ (meteredMachine Impl Log)
      (fun earlier later => FrozenFrom earlier.stream later.stream)
      (fun _ _ _ => FrozenFrom.trans) ?_ _ accesses
    intro state access output next taken
    exact perform_frozen (meteredMachine_step taken).1
  · refine @Machine.states_forall_iff_steps _ _ (meteredMachine Impl Log) (fun _ => True)
      OffsetExact (fun state access => Succeeds state.stream access.1) (fun _ _ _ _ _ _ => trivial)
      ?_ ?_ (.new logStream impl) trivial rfl accesses
    · intro state access _ undefined
      apply succeeds_of_undefined
      cases performed : perform access.1 state.stream with
      | none => rfl
      | some next => simp [meteredMachine, performed] at undefined
    · intro state access output next _ holds taken
      obtain ⟨performed, written⟩ := meteredMachine_step taken
      exact exact_step_iff holds performed written

/-- A write to a file stream without a file fails, and moves the offset past the
byte that was not written. -/
theorem failed_write_moves_offset :
    let closed : FileStream .inMemory := { file := none, offset := 0, shouldClose := false }
    let access : Access := ⟨.writeData ⟨[7], none, .no, by decide⟩, trivial⟩
    ∃ outputs final,
      (meteredMachine (FileStream .inMemory) Empty).run (.new none closed) [access] =
        some (outputs, final) ∧
      final.stream.result = .error ∧ final.written = 0 ∧ final.stream.offset = 1 ∧
      ¬ OffsetExact final :=
  ⟨_, _, rfl, rfl, rfl, rfl, by unfold OffsetExact; decide⟩

end XProject.Base.Stream
