import XProject.Std.Records
import XProject.Types.FlatArray

/-!
# `FlatArray` as a list of elements

`Listing` says what a flat array is for: a list of elements, and a dummy for the
indices outside. `Represents` ties an array and its block to a listing; each
function of the source takes a represented array to a represented one and leaves
every other block alone, so programs over named arrays behave as programs over
named lists.
-/

namespace XProject.Base

open XProject.Std

/-- The elements of an array, and the dummy that an index outside refers to. -/
structure Listing (width : UInt64) where
  elements : List (Element width)
  spare : Element width

namespace Listing

variable {width : UInt64}

/-- What a request yields that needs new memory: nothing when it is refused. -/
def made (answer : Heap.Answer) (elements : List (Element width)) (spare : Element width) :
    Listing width :=
  ⟨if answer.succeeds then elements else [], spare⟩

/-- Uninitialized elements are what the allocator found in their memory. -/
def new (size : UInt64) (answer : Heap.Answer) (spare : Element width) : Listing width :=
  match answer with
  | .grants garbage => ⟨Records.cut width.toNat size.toNat garbage, spare⟩
  | .fails _ => ⟨[], spare⟩

/-- Copies of the element all of whose bytes are the low byte of `ch`. -/
def fill (size : UInt64) (ch : Int32) (answer : Heap.Answer) (spare : Element width) :
    Listing width :=
  made answer (List.replicate size.toNat (List.Vector.replicate width.toNat ch.toInt8.toUInt8))
    spare

def copy (rhs : Listing width) (answer : Heap.Answer) (spare : Element width) : Listing width :=
  made answer rhs.elements spare

def assign (list rhs : Listing width) (answer : Heap.Answer) : Listing width :=
  made answer rhs.elements list.spare

def clear (list : Listing width) : Listing width := ⟨[], list.spare⟩

/-- Keep the elements that fit and append zero elements; a refusal changes nothing,
and no memory is needed for no elements. -/
def resize (list : Listing width) (size : UInt64) (answer : Heap.Answer) : Listing width :=
  if size = 0 ∨ answer.succeeds = true then
    ⟨list.elements.take size.toNat ++ List.replicate (size.toNat - list.elements.length)
      (List.Vector.replicate width.toNat 0), list.spare⟩
  else list

def read (list : Listing width) (index : UInt64) : Element width :=
  list.elements[index.toNat]?.getD list.spare

def write (list : Listing width) (index : UInt64) (element : Element width) : Listing width :=
  if index.toNat < list.elements.length then
    { list with elements := list.elements.set index.toNat element }
  else { list with spare := element }

variable {Name : Type} [DecidableEq Name]

/-- One statement on named lists. -/
def execute (lists : Name → Option (Listing width)) :
    FlatArray.Operation Name width → FlatArray.Reply width × (Name → Option (Listing width))
  | .new name size answer end_ =>
      match lists name with
      | none => (.done, Function.update lists name (some (new size answer end_)))
      | some _ => (.skipped, lists)
  | .fill name size ch answer end_ =>
      match lists name with
      | none => (.done, Function.update lists name (some (fill size ch answer end_)))
      | some _ => (.skipped, lists)
  | .copy name source answer end_ =>
      match lists name, lists source with
      | none, some rhs => (.done, Function.update lists name (some (rhs.copy answer end_)))
      | _, _ => (.skipped, lists)
  | .assign name source answer =>
      match lists name, lists source with
      | some list, some rhs =>
          (.done, Function.update lists name
            (some (if name = source then list else list.assign rhs answer)))
      | _, _ => (.skipped, lists)
  | .resize name size answer =>
      match lists name with
      | some list => (.done, Function.update lists name (some (list.resize size answer)))
      | none => (.skipped, lists)
  | .clear name =>
      match lists name with
      | some list => (.done, Function.update lists name (some list.clear))
      | none => (.skipped, lists)
  | .destroy name =>
      match lists name with
      | some _ => (.done, Function.update lists name none)
      | none => (.skipped, lists)
  | .read name _ index =>
      match lists name with
      | some list => (.element (list.read index), lists)
      | none => (.skipped, lists)
  | .write name _ index element =>
      match lists name with
      | some list => (.done, Function.update lists name (some (list.write index element)))
      | none => (.skipped, lists)
  | .size name =>
      match lists name with
      | some list => (.size (UInt64.ofNat list.elements.length), lists)
      | none => (.skipped, lists)
  | .empty name =>
      match lists name with
      | some list => (.empty list.elements.isEmpty, lists)
      | none => (.skipped, lists)

def machine (Name : Type) [DecidableEq Name] (width : UInt64) :
    Machine (FlatArray.Operation Name width) (FlatArray.Reply width) where
  State := Name → Option (Listing width)
  step lists operation := some (execute lists operation)

end Listing

namespace FlatArray

variable {width : UInt64} {heap : Heap} {array rhs : FlatArray width} {list other : Listing width}

open Std.Records

/-- The array is the listing: its block holds exactly the elements, and their bytes can
be counted in `size_t`. -/
structure Represents (heap : Heap) (array : FlatArray width) (list : Listing width) : Prop where
  owns : heap.Owns (layout list.elements) array.contents
  size : array.size.toNat = list.elements.length
  end_ : array.end_ = list.spare
  fits : list.elements.length * width.toNat < 2 ^ 64

/-- A function of the owner of a pointer returns an array that is the listing. -/
def Becomes (own : Pointer) (heap : Heap) (result : Option (FlatArray width × Heap))
    (list : Listing width) : Prop :=
  ∃ array heap', result = some (array, heap') ∧ Represents heap' array list ∧
    Heap.Step own heap heap' array.contents

/-- The byte count of a product that fits. -/
theorem toNat_bytes {size : UInt64} (fits : size.toNat * width.toNat < 2 ^ 64) :
    (size * width).toNat = size.toNat * width.toNat := by
  rw [UInt64.toNat_mul, Nat.mod_eq_of_lt fits]

/-- The byte count of the elements added to reach a product that fits. -/
theorem toNat_added {size old : UInt64} (fits : size.toNat * width.toNat < 2 ^ 64)
    (grows : old ≤ size) :
    ((size - old) * width).toNat = (size.toNat - old.toNat) * width.toNat := by
  have difference := UInt64.toNat_sub_of_le size old grows
  have smaller : (size.toNat - old.toNat) * width.toNat ≤ size.toNat * width.toNat :=
    Nat.mul_le_mul_right _ (Nat.sub_le _ _)
  rw [← difference] at smaller ⊢
  exact toNat_bytes (Nat.lt_of_le_of_lt smaller fits)

/-- An array whose request was refused is empty. -/
theorem represents_refused (heap : Heap) (end_ : Element width) :
    Represents heap ⟨none, 0, end_⟩ ⟨[], end_⟩ :=
  ⟨rfl, rfl, rfl, by simp⟩

theorem length_granted (garbage : Nat → UInt8) (size : Nat) :
    (Heap.granted garbage size).length = size := by
  simp [Heap.granted]

theorem new_becomes {size : UInt64} (fits : size.toNat * width.toNat < 2 ^ 64)
    (answer : Heap.Answer) (end_ : Element width) (heap : Heap) :
    Becomes none heap (some (new size answer end_ heap)) (Listing.new size answer end_) := by
  cases answer with
  | fails releases => exact ⟨_, heap, rfl, represents_refused heap end_, Heap.Step.refl none heap⟩
  | grants garbage =>
      refine ⟨_, _, rfl, ⟨?_, ?_, rfl, ?_⟩, Heap.Step.push none heap _⟩
      · have owned := Heap.owns_push heap (Heap.granted garbage (size * width).toNat)
        rw [Listing.new, layout_cut, ← toNat_bytes fits]
        exact owned
      · exact (length_cut size.toNat garbage).symm
      · rw [Listing.new, length_cut]
        exact fits

/-- A filled array of `size` elements. -/
theorem represents_filled {block : Nat} {size : UInt64} {byte : UInt8}
    (fits : size.toNat * width.toNat < 2 ^ 64)
    (owns : heap.Owns (List.replicate (size.toNat * width.toNat) byte) (some block))
    (end_ : Element width) :
    Represents heap ⟨some block, size, end_⟩
      ⟨List.replicate size.toNat (List.Vector.replicate width.toNat byte), end_⟩ := by
  refine ⟨?_, ?_, rfl, ?_⟩
  · rw [layout_replicate]
    exact owns
  · simp
  · simpa using fits

theorem fill_becomes {size : UInt64} (fits : size.toNat * width.toNat < 2 ^ 64) (ch : Int32)
    (answer : Heap.Answer) (end_ : Element width) (heap : Heap) :
    Becomes none heap (fill size ch answer end_ heap) (Listing.fill size ch answer end_) := by
  cases answer with
  | fails releases => exact ⟨_, heap, rfl, represents_refused heap end_, Heap.Step.refl none heap⟩
  | grants garbage =>
      have zeroed := Heap.owns_push heap (List.replicate (size.toNat * width.toNat) 0)
      have pushed := Heap.Step.push none heap (List.replicate (size.toNat * width.toNat) 0)
      by_cases zero : ch = 0
      · subst zero
        refine ⟨_, _, ?_, represents_filled fits zeroed end_, pushed⟩
        rw [fill, Heap.calloc_grants fits]
        rfl
      · have whole : (List.replicate (size.toNat * width.toNat) (0 : UInt8)).length =
            (size * width).toNat := by
          rw [toNat_bytes fits, List.length_replicate]
        have tail : (heap.push (List.replicate (size.toNat * width.toNat) 0)).2.Owns
            ([] ++ List.replicate (size.toNat * width.toNat) 0) (some heap.blocks.length) := zeroed
        obtain ⟨heap', ran, owned, step⟩ := Heap.memset_tail tail whole ch
        rw [List.nil_append, toNat_bytes fits] at owned
        rw [List.length_nil] at ran
        refine ⟨_, heap', ?_, represents_filled fits owned end_, pushed.trans step⟩
        rw [fill, Heap.calloc_grants fits]
        simp only [Heap.push] at ran ⊢
        simp [zero, ran]

/-- A source without a block has no bytes to copy. -/
theorem copy_becomes (represents : Represents heap rhs other) (answer : Heap.Answer)
    (end_ : Element width) :
    Becomes none heap (copy rhs answer end_ heap) (other.copy answer end_) := by
  have fits : rhs.size.toNat * width.toNat < 2 ^ 64 := represents.size ▸ represents.fits
  have bytes : (rhs.size * width).toNat = (layout other.elements).length := by
    rw [toNat_bytes fits, length_layout, represents.size]
  cases answer with
  | fails releases => exact ⟨_, heap, rfl, represents_refused heap end_, Heap.Step.refl none heap⟩
  | grants garbage =>
      let fresh := Heap.granted garbage (rhs.size * width).toNat
      have found := Heap.owns_push heap fresh
      have pushed := Heap.Step.push none heap fresh
      cases source : rhs.contents with
      | none =>
          have nothing : layout other.elements = [] := by simpa [Heap.Owns, source] using represents.owns
          have empty : fresh = layout other.elements := by
            rw [nothing, ← List.length_eq_zero_iff, length_granted, bytes, nothing, List.length_nil]
          refine ⟨⟨some heap.blocks.length, rhs.size, end_⟩, _, ?_,
            ⟨empty ▸ found, represents.size, rfl, represents.fits⟩, pushed⟩
          simp [copy, Heap.malloc, Heap.push, source, fresh]
      | some block =>
          have held : heap.Owns (layout other.elements) (some block) := source ▸ represents.owns
          have apart : heap.blocks.length ≠ block :=
            Nat.ne_of_gt (Heap.lt_length_of_lookup held)
          obtain ⟨heap', copied, owned, step⟩ :=
            Heap.memcpy_owned found (pushed.owns (by simp) held) apart
              (length_granted garbage _) bytes.symm
          refine ⟨⟨some heap.blocks.length, rhs.size, end_⟩, heap', ?_,
            ⟨owned, represents.size, rfl, represents.fits⟩, pushed.trans step⟩
          simp only [fresh, Heap.push] at copied
          simp [-UInt64.toNat_mul, copy, Heap.malloc, Heap.push, source, copied]

section Sized

variable (sized : 0 < width.toNat)

include sized

/-- An array without a block has no elements. -/
theorem elements_eq_nil (represents : Represents heap array list) (null : array.contents = none) :
    list.elements = [] := by
  have nothing : layout list.elements = [] := by simpa [Heap.Owns, null] using represents.owns
  have length := congrArg List.length nothing
  rw [length_layout, List.length_nil] at length
  rcases Nat.mul_eq_zero.mp length with empty | none
  · exact List.length_eq_zero_iff.mp empty
  · omega

/-- Some elements have some bytes. -/
theorem bytes_ne_zero {size : UInt64} (some_ : size ≠ 0)
    (fits : size.toNat * width.toNat < 2 ^ 64) : size * width ≠ 0 := by
  intro none_
  have product := congrArg UInt64.toNat none_
  rw [toNat_bytes fits, UInt64.toNat_zero] at product
  rcases Nat.mul_eq_zero.mp product with nothing | nothing
  · exact some_ (UInt64.toNat.inj nothing)
  · omega

/-- `clear` leaves an array without a block, whether it had one or not. -/
theorem clear_owned (represents : Represents heap array list) :
    ∃ heap', array.clear heap = some (⟨none, 0, array.end_⟩, heap') ∧
      Heap.Step array.contents heap heap' none := by
  cases owned : array.contents with
  | none =>
      have empty := elements_eq_nil sized represents owned
      have size : array.size = 0 := UInt64.toNat.inj (by rw [represents.size, empty]; rfl)
      have same : array = ⟨none, 0, array.end_⟩ := by rw [← size, ← owned]
      refine ⟨heap, ?_, Heap.Step.refl none heap⟩
      rw [← same]
      simp only [clear, owned]
  | some block =>
      have held : heap.Owns (layout list.elements) (some block) := owned ▸ represents.owns
      obtain ⟨heap', freed, step⟩ := Heap.free_owned held
      exact ⟨heap', by simp [clear, owned, freed], step⟩

theorem clear_becomes (represents : Represents heap array list) :
    Becomes array.contents heap (array.clear heap) list.clear := by
  obtain ⟨heap', ran, step⟩ := clear_owned sized represents
  refine ⟨_, heap', ran, ?_, step⟩
  rw [Listing.clear, ← represents.end_]
  exact represents_refused heap' array.end_

/-- Assignment from another object is `clear` followed by a copy that keeps the dummy. -/
theorem assign_becomes (represents : Represents heap array list)
    (source : Represents heap rhs other)
    (apart : ∀ block, rhs.contents = some block → array.contents ≠ some block)
    (answer : Heap.Answer) :
    Becomes array.contents heap (array.assign rhs false answer heap)
      (list.assign other answer) := by
  obtain ⟨cleared, ran, step⟩ := clear_owned sized represents
  have kept : Represents cleared rhs other :=
    ⟨step.owns apart source.owns, source.size, source.end_, source.fits⟩
  obtain ⟨result, heap', copied, becomes, stepCopy⟩ := copy_becomes kept answer array.end_
  refine ⟨result, heap', ?_, ?_, step.trans stepCopy⟩
  · rw [← copied, assign, if_neg Bool.false_ne_true, ran]
    rfl
  · rw [Listing.assign, ← represents.end_]
    exact becomes

omit sized in
/-- Setting the bytes behind the elements to zero appends zero elements. -/
theorem grown (represents : Represents heap array list) {size : UInt64} {block : Nat}
    {moved : Heap} {rest : List UInt8} (fits : size.toNat * width.toNat < 2 ^ 64)
    (grows : array.size < size) (owned : moved.Owns (layout list.elements ++ rest) (some block))
    (whole : rest.length = ((size - array.size) * width).toNat) :
    ∃ heap', moved.memset block (array.size.toNat * width.toNat) 0 ((size - array.size) * width) =
        some heap' ∧
      Represents heap' ⟨some block, size, array.end_⟩
        ⟨list.elements ++ List.replicate (size.toNat - list.elements.length)
          (List.Vector.replicate width.toNat 0), list.spare⟩ ∧
      Heap.Step (some block) moved heap' (some block) := by
  have more : list.elements.length < size.toNat := represents.size ▸ grows
  have added := toNat_added fits (Nat.le_of_lt grows)
  obtain ⟨heap', zeroed, full, step⟩ := Heap.memset_tail owned whole 0
  have length : list.elements.length + (size.toNat - list.elements.length) = size.toNat := by omega
  rw [length_layout, ← represents.size] at zeroed
  refine ⟨heap', zeroed, ⟨?_, ?_, represents.end_, ?_⟩, step⟩
  · rw [layout_append, layout_replicate, ← represents.size, ← added]
    exact full
  · rw [List.length_append, List.length_replicate, length]
  · rwa [List.length_append, List.length_replicate, length]

omit sized in
/-- A block with the bytes of the elements that fit. -/
theorem shrunk (represents : Represents heap array list) {size : UInt64} {block : Nat}
    {moved : Heap} (least : size.toNat ≤ list.elements.length)
    (owned : moved.Owns (layout (list.elements.take size.toNat)) (some block)) :
    Represents moved ⟨some block, size, array.end_⟩
      ⟨list.elements.take size.toNat, list.spare⟩ := by
  refine ⟨owned, ?_, represents.end_, ?_⟩
  · rw [List.length_take, Nat.min_eq_left least]
  · rw [List.length_take, Nat.min_eq_left least]
    exact Nat.lt_of_le_of_lt (Nat.mul_le_mul_right _ least) represents.fits

omit sized in
/-- A granted resize keeps the elements that fit, and appends zero elements. -/
theorem resize_granted_becomes (represents : Represents heap array list) {size : UInt64}
    (zero : size ≠ 0) (fits : size.toNat * width.toNat < 2 ^ 64) (garbage : Nat → UInt8) :
    Becomes array.contents heap (array.resize size (.grants garbage) heap)
      (list.resize size (.grants garbage)) := by
  have bytes := toNat_bytes fits
  have resized : list.resize size (.grants garbage) =
      ⟨list.elements.take size.toNat ++ List.replicate (size.toNat - list.elements.length)
        (List.Vector.replicate width.toNat 0), list.spare⟩ := if_pos (Or.inr rfl)
  obtain ⟨block, moved, ran, owned, step⟩ :=
    Heap.realloc_grants represents.owns (size * width) garbage
  rw [length_layout, bytes, take_layout] at owned
  rw [resized]
  by_cases grows : array.size < size
  · have more : list.elements.length < size.toNat := represents.size ▸ grows
    have whole : list.elements.take size.toNat = list.elements :=
      List.take_of_length_le (Nat.le_of_lt more)
    have rest : ((Heap.granted garbage (size.toNat * width.toNat)).drop
        (list.elements.length * width.toNat)).length = ((size - array.size) * width).toNat := by
      rw [List.length_drop, length_granted, toNat_added fits (Nat.le_of_lt grows),
        represents.size, Nat.sub_mul]
    rw [whole] at owned ⊢
    obtain ⟨heap', zeroed, full, stepZero⟩ := grown represents fits grows owned rest
    exact ⟨_, heap', by simp [resize, zero, ran, grows, zeroed], full, step.trans stepZero⟩
  · have least : size.toNat ≤ list.elements.length := by
      rw [← represents.size]
      exact Nat.le_of_not_lt grows
    have rest : (Heap.granted garbage (size.toNat * width.toNat)).drop
        (list.elements.length * width.toNat) = [] := by
      apply List.drop_of_length_le
      rw [length_granted]
      exact Nat.mul_le_mul_right _ least
    rw [rest, List.append_nil] at owned
    rw [Nat.sub_eq_zero_of_le least, List.replicate_zero, List.append_nil]
    exact ⟨_, moved, by simp [resize, zero, ran, grows], shrunk represents least owned, step⟩

/-- Growing keeps the elements and appends zero elements; shrinking keeps the elements
that fit. -/
theorem resize_becomes (represents : Represents heap array list) {size : UInt64}
    (fits : size.toNat * width.toNat < 2 ^ 64) (answer : Heap.Answer) :
    Becomes array.contents heap (array.resize size answer heap) (list.resize size answer) := by
  by_cases zero : size = 0
  · subst zero
    have same : list.resize 0 answer = list.clear := by simp [Listing.resize, Listing.clear]
    rw [same, resize, if_pos rfl]
    exact clear_becomes sized represents
  · cases answer with
    | fails releases =>
        have ran := Heap.realloc_fails represents.owns (bytes_ne_zero sized zero fits) releases
        refine ⟨array, heap, by simp [resize, zero, ran], ?_, Heap.Step.refl _ heap⟩
        simpa [Listing.resize, zero, Heap.Answer.succeeds] using represents
    | grants garbage => exact resize_granted_becomes represents zero fits garbage

/-- An accepted index refers to an element, any other index to the dummy. -/
theorem read_locate (represents : Represents heap array list) (index : UInt64) :
    array.read heap (array.locate index) = some (list.read index) := by
  by_cases inside : index < array.size
  · have held : index.toNat < list.elements.length := represents.size ▸ inside
    cases owned : array.contents with
    | none => simp [elements_eq_nil sized represents owned] at held
    | some block =>
        have whole : index.toNat * width.toNat + width.toNat ≤ (layout list.elements).length := by
          rw [length_layout, ← Nat.succ_mul]
          exact Nat.mul_le_mul_right _ held
        obtain ⟨element, loaded, value⟩ := Heap.load_owned (owned ▸ represents.owns) whole
        have same : element = list.elements[index.toNat] :=
          Subtype.ext (value.trans (slot_layout held))
        simp [locate, inside, read, owned, loaded, same, Listing.read, held]
  · have beyond : list.elements.length ≤ index.toNat := by
      rw [← represents.size]
      exact Nat.le_of_not_lt inside
    simp [locate, inside, read, represents.end_, Listing.read, beyond]

/-- A write through an accepted index replaces that element, any other the dummy. -/
theorem write_becomes (represents : Represents heap array list) (index : UInt64)
    (element : Element width) :
    Becomes array.contents heap (array.write heap element (array.locate index))
      (list.write index element) := by
  by_cases inside : index < array.size
  · have held : index.toNat < list.elements.length := represents.size ▸ inside
    cases owned : array.contents with
    | none => simp [elements_eq_nil sized represents owned] at held
    | some block =>
        have whole : index.toNat * width.toNat + element.val.length ≤
            (layout list.elements).length := by
          rw [length_layout, element.property, ← Nat.succ_mul]
          exact Nat.mul_le_mul_right _ held
        obtain ⟨heap', stored, written, step⟩ := Heap.store_owned (owned ▸ represents.owns) whole
        rw [element.property, set_layout held] at written
        refine ⟨array, heap', by simp [locate, inside, write, owned, stored], ?_, owned ▸ step⟩
        rw [Listing.write, if_pos held]
        refine ⟨owned ▸ written, ?_, represents.end_, ?_⟩
        · rw [List.length_set]
          exact represents.size
        · rw [List.length_set]
          exact represents.fits
  · have beyond : ¬ index.toNat < list.elements.length := by
      rw [← represents.size]
      exact inside
    refine ⟨{ array with end_ := element }, heap, by simp [locate, inside, write], ?_,
      Heap.Step.refl _ heap⟩
    rw [Listing.write, if_neg beyond]
    exact ⟨represents.owns, represents.size, rfl, represents.fits⟩

omit sized in
theorem empty_eq (represents : Represents heap array list) :
    list.elements.isEmpty = array.empty := by
  rw [Bool.eq_iff_iff, List.isEmpty_iff, ← List.length_eq_zero_iff, ← represents.size, empty,
    beq_iff_eq, ← UInt64.toNat_inj]
  rfl

end Sized

/-! ## Programs over named arrays and named lists -/

variable {Name : Type}

/-- Every byte count a statement asks for can be counted in `size_t`. -/
def Operation.Fits : Operation Name width → Prop
  | .new _ count _ _ => count.toNat * width.toNat < 2 ^ 64
  | .fill _ count _ _ _ => count.toNat * width.toNat < 2 ^ 64
  | .resize _ count _ => count.toNat * width.toNat < 2 ^ 64
  | _ => True

/-- The block of an array that exists. -/
def pointer (array : Option (FlatArray width)) : Pointer := array.bind fun array => array.contents

/-- The bytes of a list that exists. -/
def bytes : Option (Listing width) → List UInt8
  | none => []
  | some list => layout list.elements

/-- Each array that exists is the list of its name, in a block of its own. -/
structure Related (world : World Name width) (lists : Name → Option (Listing width)) : Prop where
  rel : ∀ name, Option.Rel (Represents world.heap) (world.arrays name) (lists name)
  apart : ∀ first second block, pointer (world.arrays first) = some block →
    pointer (world.arrays second) = some block → first = second

namespace Related

variable {world : World Name width} {lists : Name → Option (Listing width)}

theorem cases (related : Related world lists) (name : Name) :
    (world.arrays name = none ∧ lists name = none) ∨
      ∃ array list, world.arrays name = some array ∧ lists name = some list ∧
        Represents world.heap array list := by
  have rel := related.rel name
  cases array : world.arrays name <;> cases list : lists name <;> rw [array, list] at rel <;>
    cases rel
  · exact Or.inl ⟨rfl, rfl⟩
  · rename_i represents
    exact Or.inr ⟨_, _, rfl, rfl, represents⟩

/-- What an array owns, whether it exists or not. -/
theorem owns_of_rel {next : Option (FlatArray width)} {list : Option (Listing width)}
    (rel : Option.Rel (Represents heap) next list) : heap.Owns (bytes list) (pointer next) := by
  cases rel with
  | none => rfl
  | some represents => exact represents.owns

theorem holds (related : Related world lists) :
    world.heap.Holds (fun name => pointer (world.arrays name)) fun name => bytes (lists name) :=
  ⟨fun name => owns_of_rel (related.rel name), related.apart⟩

variable [DecidableEq Name]

/-- A step of one array keeps every other array the list it was. -/
theorem update (related : Related world lists) (name : Name)
    {next : Option (FlatArray width)} {list : Option (Listing width)}
    (rel : Option.Rel (Represents heap) next list)
    (step : Heap.Step (pointer (world.arrays name)) world.heap heap (pointer next)) :
    Related ⟨heap, Function.update world.arrays name next⟩ (Function.update lists name list) := by
  have held := related.holds.step step (owns_of_rel rel)
  have pointers : Function.update (fun name => pointer (world.arrays name)) name (pointer next) =
      fun other => pointer (Function.update world.arrays name next other) :=
    (Function.comp_update pointer world.arrays name next).symm
  rw [pointers] at held
  refine ⟨fun other => ?_, held.apart⟩
  by_cases same : other = name
  · subst same
    simpa using rel
  · have owned := held.owns other
    simp only [Function.update_of_ne same] at owned ⊢
    have before := related.rel other
    cases array : world.arrays other <;> cases old : lists other <;> rw [array, old] at before <;>
      cases before
    · exact Option.Rel.none
    · rename_i represents
      rw [array, old] at owned
      exact Option.Rel.some ⟨owned, represents.size, represents.end_, represents.fits⟩

/-- One statement takes related states to related states with one reply. -/
def Lockstep (world : World Name width) (lists : Name → Option (Listing width))
    (operation : Operation Name width) : Prop :=
  ∃ reply next nextLists, world.execute operation = some (reply, next) ∧
    Listing.execute lists operation = (reply, nextLists) ∧ Related next nextLists

/-- A statement that is skipped on both sides. -/
theorem skip (related : Related world lists) {operation : Operation Name width}
    (low : world.execute operation = some (.skipped, world))
    (high : Listing.execute lists operation = (.skipped, lists)) :
    Lockstep world lists operation :=
  ⟨.skipped, world, lists, low, high, related⟩

/-- A statement that changes the array of one name. -/
theorem settle (related : Related world lists) {operation : Operation Name width} {name : Name}
    {result : Option (FlatArray width × Heap)} {list : Listing width} {own : Pointer}
    (owner : pointer (world.arrays name) = own) (becomes : Becomes own world.heap result list)
    (low : world.execute operation = world.settle name result)
    (high : Listing.execute lists operation =
      (.done, Function.update lists name (some list))) :
    Lockstep world lists operation := by
  subst owner
  obtain ⟨array, heap', rfl, represents, step⟩ := becomes
  exact ⟨.done, _, _, low, high, related.update name (Option.Rel.some represents) step⟩

/-- A statement about an array is skipped where there is none. -/
theorem on_array (related : Related world lists) {operation : Operation Name width} (name : Name)
    (low : world.arrays name = none → world.execute operation = some (.skipped, world))
    (high : lists name = none → Listing.execute lists operation = (.skipped, lists))
    (present : ∀ array list, world.arrays name = some array → lists name = some list →
      Represents world.heap array list → Lockstep world lists operation) :
    Lockstep world lists operation := by
  obtain ⟨absent, absent'⟩ | ⟨array, list, known, known', represents⟩ := related.cases name
  · exact related.skip (low absent) (high absent')
  · exact present array list known known' represents

/-- A construction is skipped where there is an array already. -/
theorem on_new (related : Related world lists) {operation : Operation Name width} (name : Name)
    (low : ∀ array, world.arrays name = some array →
      world.execute operation = some (.skipped, world))
    (high : ∀ list, lists name = some list → Listing.execute lists operation = (.skipped, lists))
    (absent : world.arrays name = none → lists name = none → Lockstep world lists operation) :
    Lockstep world lists operation := by
  obtain ⟨missing, missing'⟩ | ⟨array, list, known, known', _⟩ := related.cases name
  · exact absent missing missing'
  · exact related.skip (low array known) (high list known')

/-! ### One statement -/

theorem lockstep_new (related : Related world lists) (name : Name) {size : UInt64}
    (fits : size.toNat * width.toNat < 2 ^ 64) (answer : Heap.Answer) (end_ : Element width) :
    Lockstep world lists (.new name size answer end_) := by
  refine related.on_new name (fun array present => by simp [World.execute, present])
    (fun list present => by simp [Listing.execute, present]) fun absent absent' => ?_
  exact related.settle (congrArg pointer absent) (new_becomes fits answer end_ world.heap)
    (by simp [World.execute, absent]) (by simp [Listing.execute, absent'])

theorem lockstep_fill (related : Related world lists) (name : Name) {size : UInt64}
    (fits : size.toNat * width.toNat < 2 ^ 64) (ch : Int32) (answer : Heap.Answer)
    (end_ : Element width) : Lockstep world lists (.fill name size ch answer end_) := by
  refine related.on_new name (fun array present => by simp [World.execute, present])
    (fun list present => by simp [Listing.execute, present]) fun absent absent' => ?_
  exact related.settle (congrArg pointer absent) (fill_becomes fits ch answer end_ world.heap)
    (by simp [World.execute, absent]) (by simp [Listing.execute, absent'])

theorem lockstep_copy (related : Related world lists) (name source : Name) (answer : Heap.Answer)
    (end_ : Element width) : Lockstep world lists (.copy name source answer end_) := by
  refine related.on_new name (fun array present => by simp [World.execute, present])
    (fun list present => by simp [Listing.execute, present]) fun absent absent' => ?_
  refine related.on_array source (fun missing => by simp [World.execute, absent, missing])
    (fun missing => by simp [Listing.execute, absent', missing])
    fun rhs other known known' represents => ?_
  exact related.settle (congrArg pointer absent) (copy_becomes represents answer end_)
    (by simp [World.execute, absent, known]) (by simp [Listing.execute, absent', known'])

/-- Two names that are not the same have different blocks. -/
theorem lockstep_assign (sized : 0 < width.toNat) (related : Related world lists)
    (name source : Name) (answer : Heap.Answer) :
    Lockstep world lists (.assign name source answer) := by
  refine related.on_array name (fun absent => by simp [World.execute, absent])
    (fun absent => by simp [Listing.execute, absent])
    fun array list present present' represents => ?_
  refine related.on_array source (fun missing => by simp [World.execute, present, missing])
    (fun missing => by simp [Listing.execute, present', missing])
    fun rhs other known known' representsSource => ?_
  have low : world.execute (.assign name source answer) =
      world.settle name (array.assign rhs (name = source) answer world.heap) := by
    simp [World.execute, present, known]
  have high : Listing.execute lists (.assign name source answer) =
      (.done, Function.update lists name
        (some (if name = source then list else list.assign other answer))) := by
    simp [Listing.execute, present', known']
  refine related.settle (congrArg pointer present) ?_ low high
  by_cases same : name = source
  · simp only [same, decide_true, assign, if_true]
    exact ⟨array, world.heap, rfl, represents, Heap.Step.refl _ _⟩
  · simp only [same, decide_false, if_false]
    refine assign_becomes sized represents representsSource ?_ answer
    intro block owned owned'
    have first : pointer (world.arrays name) = some block := (congrArg pointer present).trans owned'
    have second : pointer (world.arrays source) = some block := (congrArg pointer known).trans owned
    exact same (related.apart name source block first second)

theorem lockstep_resize (sized : 0 < width.toNat) (related : Related world lists) (name : Name)
    {size : UInt64} (fits : size.toNat * width.toNat < 2 ^ 64) (answer : Heap.Answer) :
    Lockstep world lists (.resize name size answer) := by
  refine related.on_array name (fun absent => by simp [World.execute, absent])
    (fun absent => by simp [Listing.execute, absent])
    fun array list present present' represents => ?_
  exact related.settle (congrArg pointer present) (resize_becomes sized represents fits answer)
    (by simp [World.execute, present]) (by simp [Listing.execute, present'])

theorem lockstep_clear (sized : 0 < width.toNat) (related : Related world lists) (name : Name) :
    Lockstep world lists (.clear name) := by
  refine related.on_array name (fun absent => by simp [World.execute, absent])
    (fun absent => by simp [Listing.execute, absent])
    fun array list present present' represents => ?_
  exact related.settle (congrArg pointer present) (clear_becomes sized represents)
    (by simp [World.execute, present]) (by simp [Listing.execute, present'])

/-- Nothing is owned under the name of an array that is destroyed. -/
theorem lockstep_destroy (sized : 0 < width.toNat) (related : Related world lists) (name : Name) :
    Lockstep world lists (.destroy name) := by
  refine related.on_array name (fun absent => by simp [World.execute, absent])
    (fun absent => by simp [Listing.execute, absent])
    fun array list present present' represents => ?_
  obtain ⟨heap', freed, step⟩ := clear_owned sized represents
  have after := related.update name Option.Rel.none (by rw [present]; exact step)
  exact ⟨.done, _, _, by simp [World.execute, present, freed],
    by simp [Listing.execute, present'], after⟩

/-- Both accessors refer to the same place. -/
theorem refer_eq (array : FlatArray width) (index : UInt64) (accessor : Accessor) :
    array.refer index accessor = array.locate index := by
  cases accessor <;> rfl

theorem lockstep_read (sized : 0 < width.toNat) (related : Related world lists) (name : Name)
    (accessor : Accessor) (index : UInt64) :
    Lockstep world lists (.read name accessor index) := by
  refine related.on_array name (fun absent => by simp [World.execute, absent])
    (fun absent => by simp [Listing.execute, absent])
    fun array list present present' represents => ?_
  have read := read_locate sized represents index
  exact ⟨.element (list.read index), world, lists,
    by simp [World.execute, present, refer_eq, read], by simp [Listing.execute, present'], related⟩

theorem lockstep_write (sized : 0 < width.toNat) (related : Related world lists) (name : Name)
    (accessor : Accessor) (index : UInt64) (element : Element width) :
    Lockstep world lists (.write name accessor index element) := by
  refine related.on_array name (fun absent => by simp [World.execute, absent])
    (fun absent => by simp [Listing.execute, absent])
    fun array list present present' represents => ?_
  exact related.settle (congrArg pointer present) (write_becomes sized represents index element)
    (by simp [World.execute, present, refer_eq]) (by simp [Listing.execute, present'])

theorem lockstep_size (related : Related world lists) (name : Name) :
    Lockstep world lists (.size name) := by
  refine related.on_array name (fun absent => by simp [World.execute, absent])
    (fun absent => by simp [Listing.execute, absent])
    fun array list present present' represents => ?_
  exact ⟨.size array.size, world, lists, by simp [World.execute, present],
    by simp [Listing.execute, present', ← represents.size], related⟩

theorem lockstep_empty (related : Related world lists) (name : Name) :
    Lockstep world lists (.empty name) := by
  refine related.on_array name (fun absent => by simp [World.execute, absent])
    (fun absent => by simp [Listing.execute, absent])
    fun array list present present' represents => ?_
  exact ⟨.empty array.empty, world, lists, by simp [World.execute, present],
    by simp [Listing.execute, present', empty_eq represents], related⟩

end Related

variable [DecidableEq Name]

/-- Lockstep between the arrays of the source and the lists, one case a statement. -/
def simulation (sized : 0 < width.toNat) :
    Machine.GuardedSimulation (machine Name width) (Listing.machine Name width)
      (fun _ operation => operation.Fits) where
  Related := Related
  step := by
    intro world lists operation related fits
    suffices lockstep : Related.Lockstep world lists operation by
      obtain ⟨reply, next, nextLists, low, high, after⟩ := lockstep
      exact ⟨reply, next, nextLists, low, congrArg some high, after⟩
    cases operation with
    | new name size answer end_ => exact related.lockstep_new name fits answer end_
    | fill name size ch answer end_ => exact related.lockstep_fill name fits ch answer end_
    | copy name source answer end_ => exact related.lockstep_copy name source answer end_
    | assign name source answer => exact related.lockstep_assign sized name source answer
    | resize name size answer => exact related.lockstep_resize sized name fits answer
    | clear name => exact related.lockstep_clear sized name
    | destroy name => exact related.lockstep_destroy sized name
    | read name accessor index => exact related.lockstep_read sized name accessor index
    | write name accessor index element =>
        exact related.lockstep_write sized name accessor index element
    | size name => exact related.lockstep_size name
    | empty name => exact related.lockstep_empty name

/-- The array has the size of the list, and each index in range reads the element there. -/
def Shows (heap : Heap) (array : FlatArray width) (list : Listing width) : Prop :=
  array.size.toNat = list.elements.length ∧
    ∀ (index : UInt64) (inside : index.toNat < list.elements.length),
      array.read heap (array.subscript index) = some list.elements[index.toNat] ∧
        array.read heap (array.at_ index) = some list.elements[index.toNat]

theorem Represents.shows (sized : 0 < width.toNat) (represents : Represents heap array list) :
    Shows heap array list := by
  refine ⟨represents.size, fun index inside => ?_⟩
  have read := read_locate sized represents index
  rw [Listing.read, List.getElem?_eq_getElem inside, Option.getD_some] at read
  exact ⟨read, read⟩

/-- Every program whose byte counts can be counted in `size_t`, under every answer of the
allocator, is defined, replies as the program over lists, and ends in arrays that show
these lists. -/
theorem flat_array_is_list (sized : 0 < width.toNat) (operations : List (Operation Name width))
    (fits : ∀ operation ∈ operations, operation.Fits) :
    ∃ replies world lists,
      (machine Name width).run World.initial operations = some (replies, world) ∧
      (Listing.machine Name width).run (fun _ => none) operations = some (replies, lists) ∧
      ∀ name, Option.Rel (Shows world.heap) (world.arrays name) (lists name) := by
  have related : (@simulation _ Name _ sized).Related World.initial fun _ => none :=
    ⟨fun _ => Option.Rel.none, nofun⟩
  have allowed : ∀ step ∈ (machine Name width).steps World.initial operations, step.2.Fits :=
    fun step taken => fits step.2 (Machine.input_mem_of_mem_steps taken)
  obtain ⟨replies, world, lists, ran, ranLists, after, _⟩ :=
    (simulation sized).run_eq related allowed
  refine ⟨replies, world, lists, ran, ranLists, fun name => ?_⟩
  rcases after.cases name with ⟨absent, absent'⟩ | ⟨array, list, present, present', represents⟩
  · rw [absent, absent']
    exact Option.Rel.none
  · rw [present, present']
    exact Option.Rel.some (represents.shows sized)

/-- A write outside, a refused and a granted growth, a copy and a self-assignment. -/
def growth : List (Operation Nat 2) :=
  [.fill 0 2 257 (.grants fun _ => 9) ⟨[7, 7], rfl⟩, .write 0 .subscript 5 ⟨[3, 4], rfl⟩,
    .copy 1 0 (.grants fun _ => 9) ⟨[8, 8], rfl⟩, .resize 0 3 (.fails false), .size 0,
    .resize 0 3 (.grants fun _ => 9), .read 0 .subscript 2, .write 0 .at_ 0 ⟨[5, 6], rfl⟩,
    .read 1 .subscript 0, .assign 1 1 (.fails false), .size 1]

theorem flat_array_is_list_growth :
    (∃ replies world lists,
      (machine Nat 2).run World.initial growth = some (replies, world) ∧
      (Listing.machine Nat 2).run (fun _ => none) growth = some (replies, lists) ∧
      ∀ name, Option.Rel (Shows world.heap) (world.arrays name) (lists name)) ∧
    ((machine Nat 2).run World.initial growth).map Prod.fst =
      some [.done, .done, .done, .done, .size 2, .done, .element ⟨[0, 0], rfl⟩, .done,
        .element ⟨[1, 1], rfl⟩, .done, .size 2] :=
  ⟨flat_array_is_list (by decide) growth (by simp [growth, Operation.Fits]), rfl⟩

end FlatArray
end XProject.Base
