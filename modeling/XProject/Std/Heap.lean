import Mathlib.Data.List.Basic
import Mathlib.Data.Vector.Basic
import Mathlib.Logic.Function.Basic

/-!
# A heap of byte blocks and the owners of its blocks

Blocks are numbered in the order of their allocation and a number is never used
again, so a pointer to a freed block stays invalid. An access without a result
is one whose behavior is undefined: outside a block, to a freed block, or a copy
inside one block. `Step` says what a function that owns at most one block does
to the rest of the heap, and `Holds.step` carries a family of owners, each with
the bytes it holds, over the step of one of them.
-/

namespace XProject.Std

universe u

/-- The blocks ever allocated; a freed block has no bytes. -/
structure Heap where
  blocks : List (Option (List UInt8))

/-- The number of a block, or null. -/
abbrev Pointer := Option Nat

namespace Heap

/-- What the allocator says to a request. A granted block holds whatever bytes it
held before; a refused request for no bytes at all may release the old block. -/
inductive Answer where
  | fails (releases : Bool)
  | grants (garbage : Nat → UInt8)

/-- The bytes of a live block. -/
def lookup (heap : Heap) (block : Nat) : Option (List UInt8) := heap.blocks[block]?.join

/-- Change a block that exists. -/
def set (heap : Heap) (block : Nat) (bytes : Option (List UInt8)) : Heap :=
  ⟨heap.blocks.set block bytes⟩

/-- A new block with the given bytes. -/
def push (heap : Heap) (bytes : List UInt8) : Pointer × Heap :=
  (some heap.blocks.length, ⟨heap.blocks ++ [some bytes]⟩)

/-! ## The functions of the library -/

/-- The bytes of a granted block of the given size. -/
def granted (garbage : Nat → UInt8) (size : Nat) : List UInt8 := (List.range size).map garbage

def malloc (heap : Heap) (size : UInt64) : Answer → Pointer × Heap
  | .fails _ => (none, heap)
  | .grants garbage => heap.push (granted garbage size.toNat)

/-- Zeroed memory for `count` objects; a total size that does not fit is refused. -/
def calloc (heap : Heap) (count size : UInt64) : Answer → Pointer × Heap
  | .fails _ => (none, heap)
  | .grants _ =>
      if count.toNat * size.toNat < 2 ^ 64 then
        heap.push (List.replicate (count.toNat * size.toNat) 0)
      else (none, heap)

def free (heap : Heap) (block : Nat) : Option Heap :=
  (heap.lookup block).map fun _ => heap.set block none

/-- The bytes that survive keep their places; a refusal leaves the old block alone,
unless it was asked for no bytes and released the block. -/
def realloc (heap : Heap) (pointer : Pointer) (size : UInt64) (answer : Answer) :
    Option (Pointer × Heap) :=
  match pointer with
  | none => some (heap.malloc size answer)
  | some block => do
      let bytes ← heap.lookup block
      match answer with
      | .fails releases =>
          some (none, if size = 0 ∧ releases = true then heap.set block none else heap)
      | .grants garbage =>
          some ((heap.set block none).push
            (bytes.take size.toNat ++ (granted garbage size.toNat).drop bytes.length))

/-- Read a range of a block. -/
def load (heap : Heap) (block offset size : Nat) : Option (List.Vector UInt8 size) := do
  let bytes ← heap.lookup block
  if inside : offset + size ≤ bytes.length then
    some ⟨(bytes.drop offset).take size, by rw [List.length_take, List.length_drop]; omega⟩
  else none

/-- Overwrite a range of a block. -/
def store (heap : Heap) (block offset : Nat) (values : List UInt8) : Option Heap := do
  let bytes ← heap.lookup block
  if offset + values.length ≤ bytes.length then
    some (heap.set block
      (some (bytes.take offset ++ values ++ bytes.drop (offset + values.length))))
  else none

/-- Set a range to the low byte of an `int`. -/
def memset (heap : Heap) (block offset : Nat) (ch : Int32) (size : UInt64) : Option Heap :=
  heap.store block offset (List.replicate size.toNat ch.toInt8.toUInt8)

/-- Copy from the start of one block to the start of another. -/
def memcpy (heap : Heap) (target source : Nat) (size : UInt64) : Option Heap := do
  let values ← heap.load source 0 size.toNat
  if target = source then none else heap.store target 0 values.val

variable {heap heap' heap'' : Heap}

/-! ## Reading one block after a change of another -/

theorem lookup_push_self (heap : Heap) (bytes : List UInt8) :
    (heap.push bytes).2.lookup heap.blocks.length = some bytes := by
  simp [push, lookup]

/-- The number of a new block was not in use. -/
theorem lookup_length (heap : Heap) : heap.lookup heap.blocks.length = none := by
  simp [lookup]

theorem lt_length_of_lookup {block : Nat} {bytes : List UInt8}
    (live : heap.lookup block = some bytes) : block < heap.blocks.length := by
  by_contra beyond
  have absent : heap.blocks[block]? = none := List.getElem?_eq_none (by omega)
  simp [lookup, absent] at live

theorem lookup_push_of_live {block : Nat} {bytes : List UInt8}
    (live : heap.lookup block = some bytes) (values : List UInt8) :
    (heap.push values).2.lookup block = some bytes := by
  have known := lt_length_of_lookup live
  rw [lookup] at live
  rw [push, lookup, List.getElem?_append_left known, live]

theorem lookup_set_self {block : Nat} {bytes : List UInt8}
    (live : heap.lookup block = some bytes) (next : Option (List UInt8)) :
    (heap.set block next).lookup block = next := by
  have known := lt_length_of_lookup live
  simp [set, lookup, known]

theorem lookup_set_ne {block other : Nat} (distinct : other ≠ block)
    (next : Option (List UInt8)) : (heap.set block next).lookup other = heap.lookup other := by
  rw [set, lookup, lookup, List.getElem?_set_ne (Ne.symm distinct)]

/-! ## One owner -/

/-- The owner of the pointer holds the bytes: its block has exactly these bytes, or
the pointer is null and there are none. -/
def Owns (heap : Heap) (bytes : List UInt8) : Pointer → Prop
  | none => bytes = []
  | some block => heap.lookup block = some bytes

/-- A step of the owner of one pointer: no block of another owner changes, and the
block it owns afterwards is the one it had or a new one. -/
structure Step (own : Pointer) (heap heap' : Heap) (own' : Pointer) : Prop where
  frame : ∀ block bytes, own ≠ some block → heap.lookup block = some bytes →
    heap'.lookup block = some bytes
  fresh : ∀ block, own' = some block → own = some block ∨ heap.lookup block = none

namespace Step

variable {own own' own'' : Pointer}

theorem refl (own : Pointer) (heap : Heap) : Step own heap heap own :=
  ⟨fun _ _ _ live => live, fun _ owned => Or.inl owned⟩

theorem trans (first : Step own heap heap' own') (second : Step own' heap' heap'' own'') :
    Step own heap heap'' own'' := by
  constructor
  · intro block bytes other live
    have kept := first.frame block bytes other live
    refine second.frame block bytes ?_ kept
    intro owned
    rcases first.fresh block owned with same | absent
    · exact other same
    · simp [absent] at live
  · intro block owned
    rcases second.fresh block owned with owned' | absent'
    · exact first.fresh block owned'
    · by_cases same : own = some block
      · exact Or.inl same
      · refine Or.inr ?_
        cases live : heap.lookup block with
        | none => rfl
        | some bytes =>
            have kept := first.frame block bytes same live
            simp [absent'] at kept

/-- Giving up a pointer is a step. -/
theorem drop (own : Pointer) (heap : Heap) : Step own heap heap none :=
  ⟨fun _ _ _ live => live, nofun⟩

/-- A new block is a step of any owner. -/
theorem push (own : Pointer) (heap : Heap) (bytes : List UInt8) :
    Step own heap (heap.push bytes).2 (heap.push bytes).1 := by
  constructor
  · intro block values _ live
    exact lookup_push_of_live live bytes
  · intro block owned
    cases owned
    exact Or.inr (lookup_length heap)

/-- A change of its own block is a step of its owner. -/
theorem set (block : Nat) (heap : Heap) (next : Option (List UInt8)) :
    Step (some block) heap (heap.set block next) (some block) := by
  constructor
  · intro other bytes distinct live
    have apart : other ≠ block := fun same => distinct (congrArg some same.symm)
    rwa [lookup_set_ne apart]
  · intro other owned
    exact Or.inl owned

/-- What another owner holds it holds after the step too. -/
theorem owns (step : Step own heap heap' own') {other : Pointer} {bytes : List UInt8}
    (apart : ∀ block, other = some block → own ≠ some block) (owns : heap.Owns bytes other) :
    heap'.Owns bytes other := by
  cases other with
  | none => exact owns
  | some block => exact step.frame block bytes (apart block rfl) owns

end Step

/-! ## What the functions do for the owner of a pointer -/

/-- Whether the allocator grants the request. -/
def Answer.succeeds : Answer → Bool
  | .fails _ => false
  | .grants _ => true

theorem owns_push (heap : Heap) (bytes : List UInt8) :
    (heap.push bytes).2.Owns bytes (heap.push bytes).1 :=
  lookup_push_self heap bytes

/-- A grant for a total size that fits is a new block of zeros. -/
theorem calloc_grants {count size : UInt64} (fits : count.toNat * size.toNat < 2 ^ 64)
    (heap : Heap) (garbage : Nat → UInt8) :
    heap.calloc count size (.grants garbage) =
      heap.push (List.replicate (count.toNat * size.toNat) 0) :=
  if_pos fits

/-- A live block can be freed. -/
theorem free_owned {block : Nat} {bytes : List UInt8} (owns : heap.Owns bytes (some block)) :
    ∃ heap', heap.free block = some heap' ∧ Step (some block) heap heap' none := by
  have live : heap.lookup block = some bytes := owns
  refine ⟨heap.set block none, by simp [free, live], ?_⟩
  exact (Step.set block heap none).trans (Step.drop _ _)

/-- A grant moves the bytes that fit to a block of the new size. -/
theorem realloc_grants {pointer : Pointer} {bytes : List UInt8} (owns : heap.Owns bytes pointer)
    (size : UInt64) (garbage : Nat → UInt8) :
    ∃ block heap', heap.realloc pointer size (.grants garbage) = some (some block, heap') ∧
      heap'.Owns (bytes.take size.toNat ++ (granted garbage size.toNat).drop bytes.length)
        (some block) ∧
      Step pointer heap heap' (some block) := by
  cases pointer with
  | none =>
      obtain rfl : bytes = [] := owns
      refine ⟨heap.blocks.length, _, rfl, ?_, Step.push none heap _⟩
      rw [List.take_nil, List.nil_append, List.length_nil, List.drop_zero]
      exact owns_push heap (granted garbage size.toNat)
  | some block =>
      have live : heap.lookup block = some bytes := owns
      let moved := bytes.take size.toNat ++ (granted garbage size.toNat).drop bytes.length
      have ran : heap.realloc (some block) size (.grants garbage) =
          some ((heap.set block none).push moved) := by
        simp [realloc, live, moved]
      exact ⟨(heap.set block none).blocks.length, _, ran, owns_push _ _,
        (Step.set block heap none).trans (Step.push _ _ _)⟩

/-- A refusal of some bytes changes nothing. -/
theorem realloc_fails {pointer : Pointer} {bytes : List UInt8} (owns : heap.Owns bytes pointer)
    {size : UInt64} (positive : size ≠ 0) (releases : Bool) :
    heap.realloc pointer size (.fails releases) = some (none, heap) := by
  cases pointer with
  | none => rfl
  | some block =>
      have live : heap.lookup block = some bytes := owns
      simp [realloc, live, positive]

/-- A range inside the bytes can be read. -/
theorem load_owned {block : Nat} {bytes : List UInt8} (owns : heap.Owns bytes (some block))
    {offset size : Nat} (inside : offset + size ≤ bytes.length) :
    ∃ values, heap.load block offset size = some values ∧
      values.val = (bytes.drop offset).take size := by
  have live : heap.lookup block = some bytes := owns
  have size_eq : ((bytes.drop offset).take size).length = size := by
    rw [List.length_take, List.length_drop]
    omega
  exact ⟨⟨_, size_eq⟩, by simp [load, live, inside], rfl⟩

/-- A range inside the bytes can be overwritten. -/
theorem store_owned {block : Nat} {bytes : List UInt8} (owns : heap.Owns bytes (some block))
    {offset : Nat} {values : List UInt8} (inside : offset + values.length ≤ bytes.length) :
    ∃ heap', heap.store block offset values = some heap' ∧
      heap'.Owns (bytes.take offset ++ values ++ bytes.drop (offset + values.length))
        (some block) ∧
      Step (some block) heap heap' (some block) := by
  have live : heap.lookup block = some bytes := owns
  let written := bytes.take offset ++ values ++ bytes.drop (offset + values.length)
  have ran : heap.store block offset values = some (heap.set block (some written)) := by
    simp [store, live, inside, written]
  exact ⟨_, ran, lookup_set_self live _, Step.set _ _ _⟩

/-- The bytes from an offset to the end can be set to one byte. -/
theorem memset_tail {block : Nat} {front tail : List UInt8}
    (owns : heap.Owns (front ++ tail) (some block)) {size : UInt64}
    (whole : tail.length = size.toNat) (ch : Int32) :
    ∃ heap', heap.memset block front.length ch size = some heap' ∧
      heap'.Owns (front ++ List.replicate size.toNat ch.toInt8.toUInt8) (some block) ∧
      Step (some block) heap heap' (some block) := by
  have inside : front.length + (List.replicate size.toNat ch.toInt8.toUInt8).length ≤
      (front ++ tail).length := by
    rw [List.length_replicate, List.length_append, whole]
  obtain ⟨heap', stored, owned, step⟩ := store_owned owns inside
  refine ⟨heap', stored, ?_, step⟩
  have rest : (front ++ tail).drop (front.length +
      (List.replicate size.toNat ch.toInt8.toUInt8).length) = [] := by
    apply List.drop_of_length_le
    rw [List.length_replicate, List.length_append, whole]
  rwa [List.take_left, rest, List.append_nil] at owned

/-- All of one block can be copied over all of another. -/
theorem memcpy_owned {target source : Nat} {old values : List UInt8} {size : UInt64}
    (owns : heap.Owns old (some target)) (other : heap.Owns values (some source))
    (apart : target ≠ source) (oldSize : old.length = size.toNat)
    (newSize : values.length = size.toNat) :
    ∃ heap', heap.memcpy target source size = some heap' ∧
      heap'.Owns values (some target) ∧ Step (some target) heap heap' (some target) := by
  have whole : 0 + size.toNat ≤ values.length := by omega
  have room : 0 + values.length ≤ old.length := by omega
  obtain ⟨loaded, read, valuesRead⟩ := load_owned other whole
  have same : loaded.val = values := by
    rw [valuesRead, List.drop_zero, ← newSize, List.take_length]
  obtain ⟨heap', stored, owned, step⟩ := store_owned owns room
  refine ⟨heap', by simp [memcpy, read, apart, same, stored], ?_, step⟩
  rwa [List.take_zero, List.nil_append, List.drop_of_length_le (by omega), List.append_nil] at owned

/-! ## A family of owners -/

/-- Every owner of a family holds its bytes, in a block of its own. -/
structure Holds {ι : Type u} (heap : Heap) (pointer : ι → Pointer) (bytes : ι → List UInt8) :
    Prop where
  owns : ∀ owner, heap.Owns (bytes owner) (pointer owner)
  apart : ∀ first second block, pointer first = some block → pointer second = some block →
    first = second

/-- The step of one owner leaves every other owner what it holds. -/
theorem Holds.step {ι : Type u} [DecidableEq ι] {pointer : ι → Pointer} {bytes : ι → List UInt8}
    (holds : heap.Holds pointer bytes) {owner : ι} {own' : Pointer} {bytes' : List UInt8}
    (step : Step (pointer owner) heap heap' own') (owned : heap'.Owns bytes' own') :
    heap'.Holds (Function.update pointer owner own') (Function.update bytes owner bytes') := by
  have clash : ∀ other block, other ≠ owner → pointer other = some block → own' ≠ some block := by
    intro other block distinct points owns'
    have live := holds.owns other
    rw [points] at live
    rcases step.fresh block owns' with same | absent
    · exact distinct (holds.apart other owner block points same)
    · simp [Owns, absent] at live
  constructor
  · intro other
    by_cases same : other = owner
    · subst same
      simpa using owned
    · simp only [Function.update_of_ne same]
      refine step.owns ?_ (holds.owns other)
      intro block points points'
      exact same (holds.apart other owner block points points')
  · intro first second block
    by_cases isFirst : first = owner <;> by_cases isSecond : second = owner
    · exact fun _ _ => isFirst.trans isSecond.symm
    · subst isFirst
      simp only [Function.update_self, Function.update_of_ne isSecond]
      intro points other
      exact absurd points (clash second block isSecond other)
    · subst isSecond
      simp only [Function.update_self, Function.update_of_ne isFirst]
      intro other points
      exact absurd points (clash first block isFirst other)
    · simp only [Function.update_of_ne isFirst, Function.update_of_ne isSecond]
      exact holds.apart first second block

end Heap
end XProject.Std
