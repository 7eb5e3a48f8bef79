import XProject.Types.FlatArrayReference

/-!
# The storage behind a `FlatArray`

The element count is stored as it was asked for, while the block has the byte
count that `size * sizeof(T)` leaves in a `size_t`. `calloc` refuses a product
that does not fit, so only `malloc` and `realloc` can grant less than the count
says, and a `realloc` for no bytes may release the old block besides.
-/

namespace XProject.Base.FlatArray

open XProject.Std
open XProject.Std.Records

variable {width : UInt64}

/-- The block of an array holds its elements, so that each accepted index refers to
bytes inside; an array without a block has no elements. -/
structure Stored (heap : Heap) (array : FlatArray width) : Prop where
  null : array.contents = none → array.size = 0
  holds : ∀ block, array.contents = some block → ∃ bytes, heap.lookup block = some bytes ∧
    array.size.toNat * width.toNat ≤ bytes.length
  inside : ∀ index, index < array.size → ∃ block bytes, array.contents = some block ∧
    heap.lookup block = some bytes ∧ index.toNat * width.toNat + width.toNat ≤ bytes.length

/-- Every array that exists is stored. -/
def World.Sound {Name : Type} (world : World Name width) : Prop :=
  ∀ name array, world.arrays name = some array → Stored world.heap array

/-- A represented array is stored. -/
theorem Represents.stored (sized : 0 < width.toNat) {heap : Heap} {array : FlatArray width}
    {list : Listing width} (represents : Represents heap array list) : Stored heap array := by
  have length := length_layout list.elements
  rw [← represents.size] at length
  constructor
  · intro null
    apply UInt64.toNat.inj
    rw [represents.size, elements_eq_nil sized represents null]
    rfl
  · intro block owned
    have live := represents.owns
    rw [owned] at live
    exact ⟨_, live, Nat.le_of_eq length.symm⟩
  · intro index accepted
    have below : index.toNat < array.size.toNat := accepted
    cases owned : array.contents with
    | none =>
        rw [represents.size, elements_eq_nil sized represents owned] at below
        simp at below
    | some block =>
        have live := represents.owns
        rw [owned] at live
        refine ⟨block, _, rfl, live, ?_⟩
        rw [length, ← Nat.succ_mul]
        exact Nat.mul_le_mul_right _ below

variable {Name : Type}

/-- What a `realloc` that is refused leaves of the old block: it is released when no
bytes are asked for and the allocator releases it then. -/
def Releases (contents : Pointer) (bytes : UInt64) (answer : Heap.Answer) : Prop :=
  contents ≠ none ∧ bytes = 0 ∧ ∃ releases, answer = .fails releases ∧ releases = true

/-- The statement asks for a byte count that fits, or the allocator refuses, without
releasing anything; only `FlatArray(n)` and `resize(n)` for `n` above 0 have to. -/
def Operation.Stores (world : World Name width) : Operation Name width → Prop
  | .new name count answer _ =>
      world.arrays name = none → count.toNat * width.toNat < 2 ^ 64 ∨ answer.succeeds = false
  | .resize name count answer =>
      ∀ array, world.arrays name = some array → count = 0 ∨
        count.toNat * width.toNat < 2 ^ 64 ∨
          (answer.succeeds = false ∧ ¬ Releases array.contents (count * width) answer)
  | _ => True

/-! ## Statements that ask for what they store -/

variable [DecidableEq Name] {world : World Name width} {lists : Name → Option (Listing width)}

/-- The statement has a result, and the arrays are lists after it too. -/
def Kept (world : World Name width) (operation : Operation Name width) : Prop :=
  ∃ reply next, world.execute operation = some (reply, next) ∧ ∃ lists, Related next lists

theorem kept_of_fits (sized : 0 < width.toNat) (related : Related world lists)
    {operation : Operation Name width} (fits : operation.Fits) : Kept world operation := by
  obtain ⟨reply, next, nextLists, ran, _, after⟩ :=
    (simulation sized).step world lists operation related fits
  exact ⟨reply, next, ran, nextLists, after⟩

/-- The result of a refused construction takes the place of no array. -/
theorem kept_refused (related : Related world lists) {operation : Operation Name width}
    {name : Name} {end_ : Element width} (absent : world.arrays name = none)
    (ran : world.execute operation = world.settle name (some (⟨none, 0, end_⟩, world.heap))) :
    Kept world operation := by
  have owner : Heap.Step (pointer (world.arrays name)) world.heap world.heap none := by
    rw [absent]
    exact Heap.Step.refl none world.heap
  exact ⟨.done, _, ran, _, related.update name
    (Option.Rel.some (represents_refused world.heap end_)) owner⟩

/-- `calloc` refuses a product that does not fit, whatever the allocator says. -/
theorem fill_refused {count : UInt64} (wraps : ¬ count.toNat * width.toNat < 2 ^ 64) (ch : Int32)
    (answer : Heap.Answer) (end_ : Element width) (heap : Heap) :
    fill count ch answer end_ heap = some (⟨none, 0, end_⟩, heap) := by
  have refused : heap.calloc count width answer = (none, heap) := by
    cases answer with
    | fails releases => rfl
    | grants garbage => exact if_neg wraps
  simp [fill, refused]

/-- A `realloc` that is refused without a release changes nothing. -/
theorem resize_refused {heap : Heap} {array : FlatArray width} {list : Listing width}
    (represents : Represents heap array list) {count : UInt64} (some_ : count ≠ 0)
    {answer : Heap.Answer} (refused : answer.succeeds = false)
    (kept : ¬ Releases array.contents (count * width) answer) :
    array.resize count answer heap = some (array, heap) := by
  obtain ⟨releases, rfl⟩ : ∃ releases, answer = .fails releases := by
    cases answer with
    | fails releases => exact ⟨releases, rfl⟩
    | grants garbage => cases refused
  have ran : heap.realloc array.contents (count * width) (.fails releases) = some (none, heap) := by
    cases owned : array.contents with
    | none => rfl
    | some block =>
        have live := represents.owns
        rw [owned] at live kept
        have untouched : ¬ (count * width = 0 ∧ releases = true) :=
          fun released => kept ⟨by simp, released.1, releases, rfl, released.2⟩
        simp only [Heap.realloc, show heap.lookup block = _ from live, Option.bind_eq_bind,
          Option.bind_some, if_neg untouched]
  simp [-UInt64.toNat_mul, resize, some_, ran]

/-- So does a resize that is refused, or whose byte count fits. -/
theorem kept_resize (sized : 0 < width.toNat) (related : Related world lists) {name : Name}
    {count : UInt64} {answer : Heap.Answer}
    (stores : (Operation.resize name count answer : Operation Name width).Stores world) :
    Kept world (.resize name count answer) := by
  obtain ⟨absent, _⟩ | ⟨array, list, present, _, represents⟩ := related.cases name
  · exact ⟨.skipped, world, by simp [World.execute, absent], lists, related⟩
  · by_cases zero : count = 0
    · subst zero
      exact kept_of_fits sized related (by simp [Operation.Fits])
    · rcases stores array present with zero' | fits | ⟨refused, kept⟩
      · exact absurd zero' zero
      · exact kept_of_fits sized related fits
      · have ran := resize_refused represents zero refused kept
        have owner : Heap.Step (pointer (world.arrays name)) world.heap world.heap
            array.contents := by
          rw [present]
          exact Heap.Step.refl _ world.heap
        exact ⟨.done, _, by simp [World.execute, present, ran, World.settle], _,
          related.update name (Option.Rel.some represents) owner⟩

/-- Every statement that stores what it asks for has a result, and keeps the arrays lists. -/
theorem kept_of_stores (sized : 0 < width.toNat) (related : Related world lists)
    (operation : Operation Name width) (stores : operation.Stores world) :
    Kept world operation := by
  cases operation with
  | new name count answer end_ =>
      cases present : world.arrays name with
      | some array => exact ⟨.skipped, world, by simp [World.execute, present], lists, related⟩
      | none =>
          rcases stores present with fits | refused
          · exact kept_of_fits sized related fits
          · cases answer with
            | fails releases =>
                exact kept_refused related present (by simp [World.execute, present]; rfl)
            | grants garbage => cases refused
  | fill name count ch answer end_ =>
      by_cases fits : count.toNat * width.toNat < 2 ^ 64
      · exact kept_of_fits sized related fits
      · cases present : world.arrays name with
        | some array => exact ⟨.skipped, world, by simp [World.execute, present], lists, related⟩
        | none =>
            have ran : world.execute (.fill name count ch answer end_) =
                world.settle name (some (⟨none, 0, end_⟩, world.heap)) := by
              simp only [World.execute, present, fill_refused fits]
            exact kept_refused related present ran
  | resize name count answer => exact kept_resize sized related stores
  | copy name source answer end_ => exact kept_of_fits sized related trivial
  | assign name source answer => exact kept_of_fits sized related trivial
  | clear name => exact kept_of_fits sized related trivial
  | destroy name => exact kept_of_fits sized related trivial
  | read name accessor index => exact kept_of_fits sized related trivial
  | write name accessor index element => exact kept_of_fits sized related trivial
  | size name => exact kept_of_fits sized related trivial
  | empty name => exact kept_of_fits sized related trivial

/-! ## Statements that do not -/

/-- A product that does not fit leaves less than it. -/
theorem toNat_mul_lt {count : UInt64} (wraps : ¬ count.toNat * width.toNat < 2 ^ 64) :
    (count * width).toNat < count.toNat * width.toNat := by
  rw [UInt64.toNat_mul]
  omega

/-- A store keeps the length of its block. -/
theorem length_of_store {heap heap' : Heap} {block offset : Nat} {values bytes : List UInt8}
    (live : heap.lookup block = some bytes) (stored : heap.store block offset values = some heap') :
    ∃ written, heap'.lookup block = some written ∧ written.length = bytes.length := by
  by_cases inside : offset + values.length ≤ bytes.length
  · simp only [Heap.store, live, Option.bind_eq_bind, Option.bind_some, if_pos inside,
      Option.some.injEq] at stored
    subst stored
    refine ⟨_, Heap.lookup_set_self live _, ?_⟩
    simp only [List.length_append, List.length_take, List.length_drop]
    omega
  · simp [Heap.store, live, inside] at stored

/-- An array whose block is gone, or has fewer bytes than its elements, is not stored. -/
theorem not_stored {heap : Heap} {array : FlatArray width} {block : Nat}
    (owned : array.contents = some block)
    (short : ∀ bytes, heap.lookup block = some bytes →
      bytes.length < array.size.toNat * width.toNat) : ¬ Stored heap array := by
  intro stored
  obtain ⟨bytes, live, holds⟩ := stored.holds block owned
  have less := short bytes live
  omega

/-- The result of a function in the place of its object is unsound where it is not stored. -/
theorem not_sound_of_settle {name : Name} {array : FlatArray width} {heap : Heap}
    {result : Option (FlatArray width × Heap)} {reply : Reply width} {next : World Name width}
    (ran : world.settle name result = some (reply, next)) (given : result = some (array, heap))
    (unstored : ¬ Stored heap array) : ¬ next.Sound := by
  subst given
  simp only [World.settle, Option.map_some, Option.some.injEq, Prod.mk.injEq] at ran
  obtain ⟨rfl, rfl⟩ := ran
  intro sound
  exact unstored (sound name array (Function.update_self name (some array) world.arrays))

/-- A granted construction whose byte count wraps has too small a block. -/
theorem new_not_stored {count : UInt64} (wraps : ¬ count.toNat * width.toNat < 2 ^ 64)
    (garbage : Nat → UInt8) (end_ : Element width) (heap : Heap) :
    ∃ array heap', new count (.grants garbage) end_ heap = (array, heap') ∧
      ¬ Stored heap' array := by
  refine ⟨_, _, rfl, not_stored rfl fun bytes live => ?_⟩
  have granted := (Heap.owns_push heap (Heap.granted garbage (count * width).toNat)).symm.trans live
  rw [← Option.some.inj granted, length_granted]
  exact toNat_mul_lt wraps

/-- A resize to no bytes that the allocator takes for a release leaves no block. -/
theorem resize_released_not_stored {heap : Heap} {array : FlatArray width} {list : Listing width}
    (represents : Represents heap array list) {count : UInt64} (some_ : count ≠ 0)
    {releases : Bool} (released : Releases array.contents (count * width) (.fails releases))
    {resized : FlatArray width} {heap' : Heap}
    (ran : array.resize count (.fails releases) heap = some (resized, heap')) :
    ¬ Stored heap' resized := by
  obtain ⟨owns, none_, _, ⟨⟩, rfl⟩ := released
  obtain ⟨block, owned⟩ := Option.ne_none_iff_exists'.mp owns
  have live := represents.owns
  rw [owned] at live
  have gone : heap.realloc array.contents (count * width) (.fails true) =
      some (none, heap.set block none) := by
    rw [owned]
    simp only [Heap.realloc, show heap.lookup block = _ from live, Option.bind_eq_bind,
      Option.bind_some, none_, and_self, if_true]
  simp only [resize, if_neg some_, gone, Option.bind_eq_bind, Option.bind_some,
    Option.some.injEq, Prod.mk.injEq] at ran
  obtain ⟨rfl, rfl⟩ := ran
  refine not_stored owned fun bytes still => ?_
  simp [Heap.lookup_set_self live] at still

/-- A resize whose byte count wraps has too small a block, where it has a result. -/
theorem resize_granted_not_stored {heap : Heap} {array : FlatArray width} {list : Listing width}
    (represents : Represents heap array list) {count : UInt64} (some_ : count ≠ 0)
    (wraps : ¬ count.toNat * width.toNat < 2 ^ 64) {garbage : Nat → UInt8}
    {resized : FlatArray width} {heap' : Heap}
    (ran : array.resize count (.grants garbage) heap = some (resized, heap')) :
    ¬ Stored heap' resized := by
  obtain ⟨block, moved, reallocated, owned, _⟩ :=
    Heap.realloc_grants represents.owns (count * width) garbage
  have short : ((layout list.elements).take (count * width).toNat ++
      (Heap.granted garbage (count * width).toNat).drop (layout list.elements).length).length =
      (count * width).toNat := by
    rw [List.length_append, List.length_take, List.length_drop, length_granted]
    omega
  have less := toNat_mul_lt wraps
  simp only [resize, if_neg some_, reallocated, Option.bind_eq_bind, Option.bind_some] at ran
  by_cases grows : array.size < count
  · rw [if_pos grows] at ran
    obtain ⟨zeroed, filled, kept⟩ := Option.bind_eq_some_iff.mp ran
    obtain ⟨written, live, same⟩ := length_of_store owned filled
    simp only [Option.some.injEq, Prod.mk.injEq] at kept
    obtain ⟨rfl, rfl⟩ := kept
    refine not_stored rfl fun bytes found => ?_
    rw [← Option.some.inj (live.symm.trans found), same, short]
    exact less
  · rw [if_neg grows] at ran
    simp only [Option.some.injEq, Prod.mk.injEq] at ran
    obtain ⟨rfl, rfl⟩ := ran
    refine not_stored rfl fun bytes found => ?_
    rw [← Option.some.inj (owned.symm.trans found), short]
    exact less

/-- A resize whose byte count wraps either sets bytes outside the block, or has too
small a block afterwards, or none. -/
theorem resize_not_stored {heap : Heap} {array : FlatArray width} {list : Listing width}
    (represents : Represents heap array list) {count : UInt64} (some_ : count ≠ 0)
    (wraps : ¬ count.toNat * width.toNat < 2 ^ 64) {answer : Heap.Answer}
    (bad : ¬ (answer.succeeds = false ∧ ¬ Releases array.contents (count * width) answer))
    {resized : FlatArray width} {heap' : Heap}
    (ran : array.resize count answer heap = some (resized, heap')) : ¬ Stored heap' resized := by
  cases answer with
  | fails releases =>
      have released : Releases array.contents (count * width) (.fails releases) := by
        by_contra kept
        exact bad ⟨rfl, kept⟩
      exact resize_released_not_stored represents some_ released ran
  | grants garbage => exact resize_granted_not_stored represents some_ wraps ran

/-- A statement that does not store what it asks for leads to an unsound state, where
it has a result at all. -/
theorem not_sound_of_not_stores (related : Related world lists) (operation : Operation Name width)
    (reply : Reply width) (next : World Name width) (bad : ¬ operation.Stores world)
    (ran : world.execute operation = some (reply, next)) : ¬ next.Sound := by
  cases operation with
  | new name count answer end_ =>
      simp only [Operation.Stores, Classical.not_imp, not_or] at bad
      obtain ⟨absent, wraps, granted⟩ := bad
      cases answer with
      | fails releases => exact absurd rfl granted
      | grants garbage =>
          obtain ⟨array, heap', made, unstored⟩ := new_not_stored wraps garbage end_ world.heap
          simp only [World.execute, absent] at ran
          exact not_sound_of_settle ran (congrArg some made) unstored
  | resize name count answer =>
      simp only [Operation.Stores, not_forall, not_or] at bad
      obtain ⟨array, present, some_, wraps, bad⟩ := bad
      obtain ⟨absent, _⟩ | ⟨other, list, known, _, represents⟩ := related.cases name
      · simp [present] at absent
      · cases present.symm.trans known
        simp only [World.execute, present] at ran
        cases resized : array.resize count answer world.heap with
        | none => simp [World.settle, resized] at ran
        | some result =>
            exact not_sound_of_settle ran resized
              (resize_not_stored represents some_ wraps bad resized)
  | fill name count ch answer end_ => exact absurd trivial bad
  | copy name source answer end_ => exact absurd trivial bad
  | assign name source answer => exact absurd trivial bad
  | clear name => exact absurd trivial bad
  | destroy name => exact absurd trivial bad
  | read name accessor index => exact absurd trivial bad
  | write name accessor index element => exact absurd trivial bad
  | size name => exact absurd trivial bad
  | empty name => exact absurd trivial bad

/-! ## Whole programs -/

/-- A program, under every answer of the allocator, is defined and has every array stored
in every state exactly when each of its statements stores what it asks for. -/
theorem stored_iff (sized : 0 < width.toNat) (operations : List (Operation Name width)) :
    (((machine Name width).run World.initial operations).isSome = true ∧
      ∀ world ∈ (machine Name width).states World.initial operations, World.Sound world) ↔
    ∀ step ∈ (machine Name width).steps World.initial operations, step.2.Stores step.1 := by
  refine @Machine.run_safe_iff _ _ (machine Name width) (fun world => ∃ lists, Related world lists)
    World.Sound (fun world operation => operation.Stores world) ?_ ?_ ?_ _ ?_ operations
  · rintro world ⟨lists, related⟩ name array present
    obtain ⟨absent, _⟩ | ⟨other, list, known, _, represents⟩ := related.cases name
    · simp [present] at absent
    · cases present.symm.trans known
      exact represents.stored sized
  · rintro world operation ⟨lists, related⟩ stores
    exact kept_of_stores sized related operation stores
  · rintro world operation reply next ⟨lists, related⟩ bad ran
    exact not_sound_of_not_stores related operation reply next bad ran
  · exact ⟨fun _ => none, fun _ => Option.Rel.none, nofun⟩

/-- A construction and a resize that are refused for a count whose product wraps. -/
theorem stored_iff_refused :
    let operations : List (Operation Nat 4) :=
      [.fill 0 0x4000000000000000 1 (.grants fun _ => 9) ⟨[0, 0, 0, 0], rfl⟩,
        .resize 0 2 (.grants fun _ => 9), .resize 0 0x4000000000000000 (.fails false),
        .write 0 .at_ 1 ⟨[1, 2, 3, 4], rfl⟩]
    ((machine Nat 4).run World.initial operations).isSome = true ∧
      ∀ world ∈ (machine Nat 4).states World.initial operations, World.Sound world := by
  intro operations
  refine (stored_iff (by decide) operations).mpr ?_
  rintro ⟨world, operation⟩ taken
  have member : operation ∈ operations := Machine.input_mem_of_mem_steps taken
  simp only [operations, List.mem_cons, List.not_mem_nil, or_false] at member
  rcases member with rfl | rfl | rfl | rfl
  · trivial
  · exact fun array _ => .inr (.inl (by decide))
  · exact fun array _ => .inr (.inr ⟨rfl, by rintro ⟨_, _, _, ⟨⟩, ⟨⟩⟩⟩)
  · trivial

/-- `2 ^ 62` elements of four bytes get a block of no bytes: the array says it has them
all, and its first element is outside the block. -/
theorem wrapped_count_unstored :
    let construction : Operation Nat 4 :=
      .new 0 0x4000000000000000 (.grants fun _ => 0) ⟨[0, 0, 0, 0], rfl⟩
    (∃ world, (machine Nat 4).run World.initial [construction] = some ([.done], world) ∧
      ¬ World.Sound world) ∧
    (machine Nat 4).run World.initial [construction, .read 0 .subscript 0] = none := by
  refine ⟨⟨_, rfl, fun sound => ?_⟩, rfl⟩
  obtain ⟨bytes, live, holds⟩ := (sound 0 _ rfl).holds 0 rfl
  cases live
  exact absurd holds (by decide)

end XProject.Base.FlatArray
