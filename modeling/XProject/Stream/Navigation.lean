import XProject.Std.Machine
import XProject.Stream.DataStream

/-!
# Reading after arbitrary navigation

`skip` and `seekp` can leave the position past the end of the buffer. `get`
compares pointers and refuses there. `read` compares the wrapped difference, so
past the end it accepts almost every request. `reads_inside_iff` says along
which runs every read stays inside the buffer.
-/

namespace XProject.Base

open XProject.Std

/-- A call that moves the position or reads at it. -/
inductive Navigation where
  | skip (size : Address)
  | seekp (offset : Address)
  | read (size : Address)
  | get

namespace Navigation

/-- What a navigation call returns. -/
inductive Reply where
  | moved
  | sought (inRange : Bool)
  | copied (bytes : Option (List UInt8))
deriving DecidableEq

/-- One call on a stream over fixed memory. -/
def call (memory : Memory) (stream : DataStream) : Navigation → Reply × DataStream
  | .skip size => (.moved, stream.skip size)
  | .seekp offset => (.sought (stream.seekp offset).1, (stream.seekp offset).2)
  | .read size => (.copied (stream.read memory size).1, (stream.read memory size).2)
  | .get => (.copied ((stream.get memory).1.map fun byte => [byte]), (stream.get memory).2)

def machine (memory : Memory) : Machine Navigation Reply where
  State := DataStream
  step stream navigation := some (call memory stream navigation)

/-- How many bytes a call asks for. -/
def requested : Navigation → Nat
  | .read size => size.toNat
  | .get => 1
  | .skip _ | .seekp _ => 0

/-- The call computes its position without wrapping around the address space. -/
def NoWrap (stream : DataStream) : Navigation → Prop
  | .skip size => stream.pos.toNat + size.toNat < 2 ^ 64
  | .seekp offset => stream.start.toNat + offset.toNat < 2 ^ 64
  | .read _ | .get => True

instance (stream : DataStream) : (navigation : Navigation) → Decidable (NoWrap stream navigation)
  | .skip _ | .seekp _ => inferInstanceAs (Decidable (_ < _))
  | .read _ | .get => inferInstanceAs (Decidable True)

/-- A call that returns bytes took every one of them from the buffer, and a call
asking for more bytes than are available returns none, sets the error number
and leaves the position alone. -/
def ReadsInside (memory : Memory) (stream : DataStream) (navigation : Navigation) : Prop :=
  (∀ bytes, (call memory stream navigation).1 = .copied (some bytes) →
    bytes = load memory stream.pos navigation.requested ∧
    ∀ index < navigation.requested, stream.start ≤ stream.pos + UInt64.ofNat index ∧
      stream.pos + UInt64.ofNat index < stream.end_) ∧
  (stream.available < navigation.requested →
    (call memory stream navigation).1 = .copied none ∧
      (call memory stream navigation).2.errno = .trapOutOfStream ∧
      (call memory stream navigation).2.pos = stream.pos)

/-- The `read` calls whose check is right: at a position inside the buffer, of no
bytes, or of so many that the request passes the end of the address space by
more than the position passes the end of the buffer. -/
def CheckHolds (stream : DataStream) : Navigation → Prop
  | .read size => stream.pos.toNat ≤ stream.end_.toNat ∨ size = 0 ∨
      2 ^ 64 < size.toNat + (stream.pos.toNat - stream.end_.toNat)
  | .skip _ | .seekp _ | .get => True

/-- The addresses of an available range lie in the buffer. -/
theorem address_inside {stream : DataStream} (started : stream.start ≤ stream.pos)
    {count index : Nat} (within : count ≤ stream.available) (below : index < count) :
    stream.start ≤ stream.pos + UInt64.ofNat index ∧
      stream.pos + UInt64.ofNat index < stream.end_ := by
  have bound := stream.end_.toNat_lt
  rw [DataStream.available] at within
  rw [UInt64.le_iff_toNat_le] at started
  have address : (stream.pos + UInt64.ofNat index).toNat = stream.pos.toNat + index := by
    rw [UInt64.toNat_add, UInt64.toNat_ofNat']
    omega
  rw [UInt64.le_iff_toNat_le, UInt64.lt_iff_toNat_lt, address]
  omega

/-- From a position at or after the start, `read` is safe exactly when its check holds. -/
theorem read_inside_iff (memory : Memory) {stream : DataStream}
    (started : stream.start ≤ stream.pos) (size : Address) :
    ReadsInside memory stream (.read size) ↔ CheckHolds stream (.read size) := by
  by_cases inside : stream.pos.toNat ≤ stream.end_.toNat
  · refine iff_of_true ?_ (.inl inside)
    simp only [ReadsInside, call, requested, DataStream.read, DataStream.read_check_iff size inside]
    split
    · rename_i within
      refine ⟨?_, fun short => absurd within (Nat.not_le.mpr short)⟩
      rintro bytes ⟨rfl⟩
      exact ⟨rfl, fun index below => address_inside started within below⟩
    · exact ⟨fun bytes copied => by simp at copied, fun _ => ⟨rfl, rfl, rfl⟩⟩
  · -- past the end the difference wraps to a number no buffer justifies
    have none : stream.available = 0 := by
      rw [DataStream.available]
      omega
    have wraps : stream.end_ - stream.pos ≥ size ↔
        size.toNat + (stream.pos.toNat - stream.end_.toNat) ≤ 2 ^ 64 := by
      rw [ge_iff_le, UInt64.le_iff_toNat_le, UInt64.toNat_sub]
      have bound := stream.pos.toNat_lt
      omega
    have zero : size = 0 ↔ size.toNat = 0 := by
      rw [← UInt64.toNat_inj, UInt64.toNat_zero]
    simp only [ReadsInside, call, requested, DataStream.read, CheckHolds, wraps, none, zero]
    split
    · rename_i accepted
      constructor
      · rintro ⟨copied, _⟩
        by_contra unchecked
        have first := ((copied _ rfl).2 0 (by omega)).2
        rw [UInt64.lt_iff_toNat_lt, UInt64.toNat_add] at first
        simp at first
        omega
      · intro checked
        have empty : size.toNat = 0 := by omega
        refine ⟨?_, by omega⟩
        rintro bytes ⟨rfl⟩
        exact ⟨rfl, by omega⟩
    · rename_i refused
      exact iff_of_true ⟨fun bytes copied => by simp at copied, fun _ => ⟨rfl, rfl, rfl⟩⟩
        (by omega)

/-- `get` is safe from every position at or after the start. -/
theorem get_inside (memory : Memory) {stream : DataStream} (started : stream.start ≤ stream.pos) :
    ReadsInside memory stream .get := by
  simp only [ReadsInside, call, requested, DataStream.get]
  have check : stream.pos < stream.end_ ↔ 1 ≤ stream.available := by
    rw [UInt64.lt_iff_toNat_lt, DataStream.available]
    omega
  simp only [check]
  split
  · rename_i within
    refine ⟨?_, by omega⟩
    rintro bytes ⟨rfl⟩
    exact ⟨by simp [load], fun index below => address_inside started within below⟩
  · exact ⟨fun bytes copied => by simp at copied, fun _ => ⟨rfl, rfl, rfl⟩⟩

/-- One call is safe exactly when the check it makes is the right one. -/
theorem inside_iff (memory : Memory) {stream : DataStream} (started : stream.start ≤ stream.pos)
    (navigation : Navigation) :
    ReadsInside memory stream navigation ↔ CheckHolds stream navigation := by
  cases navigation with
  | read size => exact read_inside_iff memory started size
  | get => exact iff_of_true (get_inside memory started) trivial
  | skip size => exact iff_of_true ⟨by simp [call], by simp [requested]⟩ trivial
  | seekp offset => exact iff_of_true ⟨by simp [call], by simp [requested]⟩ trivial

/-- Calls with a right check, and moves that do not wrap, keep the position at or
after the start. -/
theorem call_started (memory : Memory) {stream : DataStream} (started : stream.start ≤ stream.pos)
    (navigation : Navigation) (noWrap : NoWrap stream navigation)
    (checked : CheckHolds stream navigation) :
    (call memory stream navigation).2.start ≤ (call memory stream navigation).2.pos := by
  rw [UInt64.le_iff_toNat_le] at started
  cases navigation with
  | skip size =>
      simp only [call, DataStream.skip, NoWrap] at noWrap ⊢
      rw [UInt64.le_iff_toNat_le, UInt64.toNat_add]
      omega
  | seekp offset =>
      simp only [call, DataStream.seekp, NoWrap] at noWrap ⊢
      rw [UInt64.le_iff_toNat_le, UInt64.toNat_add]
      omega
  | read size =>
      simp only [call, DataStream.read, CheckHolds] at checked ⊢
      split
      · rename_i accepted
        rw [ge_iff_le, UInt64.le_iff_toNat_le, UInt64.toNat_sub] at accepted
        rw [← UInt64.toNat_inj, UInt64.toNat_zero] at checked
        have bound := stream.end_.toNat_lt
        have posBound := stream.pos.toNat_lt
        simp only [UInt64.le_iff_toNat_le, UInt64.toNat_add]
        omega
      · exact UInt64.le_iff_toNat_le.mpr started
  | get =>
      simp only [call, DataStream.get]
      split
      · rename_i within
        rw [UInt64.lt_iff_toNat_lt] at within
        have bound := stream.end_.toNat_lt
        simp only [UInt64.le_iff_toNat_le, UInt64.toNat_add, UInt64.toNat_one]
        omega
      · exact UInt64.le_iff_toNat_le.mpr started

/-- Over every run on a fresh stream whose moves do not wrap: all reads stay
inside the buffer, and all requests for too many bytes are refused, exactly when
every `read` of the run finds a position its check is right for. -/
theorem reads_inside_iff (memory : Memory) (buffer : Buffer) (navigations : List Navigation)
    (noWrap : ∀ step ∈ (machine memory).steps (DataStream.new buffer) navigations,
      NoWrap step.1 step.2) :
    (∀ step ∈ (machine memory).steps (DataStream.new buffer) navigations,
        ReadsInside memory step.1 step.2) ↔
      ∀ step ∈ (machine memory).steps (DataStream.new buffer) navigations,
        CheckHolds step.1 step.2 := by
  have both := @Machine.steps_forall_iff _ _ (machine memory)
    (fun stream => stream.start ≤ stream.pos)
    (fun stream navigation => NoWrap stream navigation ∧ ReadsInside memory stream navigation)
    (fun stream navigation => NoWrap stream navigation ∧ CheckHolds stream navigation)
    (fun stream navigation started => and_congr_right fun _ => inside_iff memory started navigation)
    (by
      intro stream navigation reply next started allowed taken
      have same : (call memory stream navigation).2 = next := by
        rw [Option.some.inj taken]
      rw [← same]
      exact call_started memory started navigation allowed.1 allowed.2)
    (DataStream.new buffer) (UInt64.le_refl _) navigations
  constructor
  · intro inside step taken
    exact (both.mp (fun step taken => ⟨noWrap step taken, inside step taken⟩) step taken).2
  · intro checked step taken
    exact (both.mpr (fun step taken => ⟨noWrap step taken, checked step taken⟩) step taken).2

/-- A run that skips to the end and asks for one more byte meets the hypothesis. -/
theorem reads_inside_at_end :
    (∀ step ∈ (machine fun _ => 0).steps (DataStream.new ⟨4096, 4, by decide⟩)
      [.skip 4, .read 1], ReadsInside (fun _ => 0) step.1 step.2) ↔
    ∀ step ∈ (machine fun _ => 0).steps (DataStream.new ⟨4096, 4, by decide⟩)
      [.skip 4, .read 1], CheckHolds step.1 step.2 :=
  reads_inside_iff (fun _ => 0) ⟨4096, 4, by decide⟩ [.skip 4, .read 1] (by
    intro step taken
    rcases List.mem_cons.mp taken with rfl | later
    · decide
    · rcases List.mem_cons.mp later with rfl | later
      · decide
      · exact absurd later List.not_mem_nil)

/-- One byte past the end, `read` answers a request for one byte with the byte
behind the buffer, although neither call of the run wraps. -/
theorem read_past_end :
    let memory : Memory := fun address => if address = 4101 then 42 else 0
    let stream := DataStream.new ⟨4096, 4, by decide⟩
    (∀ step ∈ (machine memory).steps stream [.skip 5, .read 1], NoWrap step.1 step.2) ∧
      (stream.skip 5).available = 0 ∧
      ((stream.skip 5).read memory 1).1 = some [42] ∧
      ¬ ∀ step ∈ (machine memory).steps stream [.skip 5, .read 1],
        ReadsInside memory step.1 step.2 := by
  intro memory stream
  refine ⟨?_, by decide, by decide, ?_⟩
  · intro step taken
    rcases List.mem_cons.mp taken with rfl | later
    · decide
    · rcases List.mem_cons.mp later with rfl | later
      · decide
      · exact absurd later List.not_mem_nil
  · intro inside
    have atRead := inside _ (List.mem_cons_of_mem _ List.mem_cons_self)
    have refused := (atRead.2 (by decide)).1
    exact absurd refused (by decide)

end Navigation
end XProject.Base
