import Mathlib.Data.List.Basic

/-!
# Growable memories that read as zero where nothing was written

A memory is a total map of cells with a length; every cell from the length on
is zero. Writing and moving set a range and raise the length to cover it. The
lemmas compare each operation with the list operations that implement it:
padding with zeros, and replacing a range of a list that is long enough.
-/

namespace XProject.Std

universe u

/-- A total map of cells that is zero from its length on. -/
structure Growable (α : Type u) [Zero α] where
  cell : Nat → α
  length : Nat
  blank : ∀ index, length ≤ index → cell index = 0

namespace Growable

variable {α : Type u} [Zero α]

@[ext] theorem ext {left right : Growable α} (cell : ∀ index, left.cell index = right.cell index)
    (length : left.length = right.length) : left = right := by
  cases left
  cases right
  cases length
  cases funext cell
  rfl

/-- Zero everywhere, of length zero. -/
def empty : Growable α := ⟨fun _ => 0, 0, fun _ _ => rfl⟩

/-- The cells below the length. -/
def contents (memory : Growable α) : List α := (List.range memory.length).map memory.cell

/-- The cells of a range, within the length or not. -/
def slice (memory : Growable α) (start size : Nat) : List α :=
  (List.range size).map fun index => memory.cell (start + index)

/-- Raise the length to at least `bound`. -/
def reserve (bound : Nat) (memory : Growable α) : Growable α where
  cell := memory.cell
  length := max memory.length bound
  blank index beyond := memory.blank index (by omega)

/-- Set the range that starts at `start` to `values`; no values leave everything as it is. -/
def write (start : Nat) (values : List α) (memory : Growable α) : Growable α :=
  if values = [] then memory
  else {
    cell := fun index =>
      if start ≤ index ∧ index < start + values.length then (values[index - start]?).getD 0
      else memory.cell index
    length := max memory.length (start + values.length)
    blank := fun index beyond => by
      rw [if_neg (by omega)]
      exact memory.blank index (by omega) }

/-- Copy the old cells of the source range to the target range, which may overlap it. -/
def move (target source size : Nat) (memory : Growable α) : Growable α :=
  if size = 0 then memory
  else {
    cell := fun index =>
      if target ≤ index ∧ index < target + size then memory.cell (source + (index - target))
      else memory.cell index
    length := max memory.length (max (source + size) (target + size))
    blank := fun index beyond => by
      rw [if_neg (by omega)]
      exact memory.blank index (by omega) }

@[simp] theorem length_contents (memory : Growable α) :
    memory.contents.length = memory.length := by
  simp [contents]

theorem getElem?_contents (memory : Growable α) (index : Nat) :
    memory.contents[index]? = if index < memory.length then some (memory.cell index) else none := by
  by_cases inside : index < memory.length <;> simp [contents, inside]

@[simp] theorem length_slice (memory : Growable α) (start size : Nat) :
    (memory.slice start size).length = size := by
  simp [slice]

@[simp] theorem slice_reserve (bound start size : Nat) (memory : Growable α) :
    (memory.reserve bound).slice start size = memory.slice start size := rfl

/-- Raising the length pads with zeros. -/
theorem contents_reserve (bound : Nat) (memory : Growable α) :
    (memory.reserve bound).contents =
      memory.contents ++ List.replicate (bound - memory.length) 0 := by
  have length : (memory.reserve bound).length = memory.length + (bound - memory.length) := by
    simp only [reserve]
    omega
  rw [contents, length, List.range_add, List.map_append, contents, List.map_map]
  congr 1
  apply List.ext_getElem
  · simp
  · intro index _ _
    simp [reserve, memory.blank]

/-- A range within the length is a part of the contents. -/
theorem slice_eq {start size : Nat} {memory : Growable α} (fits : start + size ≤ memory.length) :
    memory.slice start size = (memory.contents.drop start).take size := by
  apply List.ext_getElem
  · simp
    omega
  · intro index _ _
    simp [slice, contents]

/-- A write within the length replaces a range of the contents. -/
theorem contents_write {start : Nat} {values : List α} {memory : Growable α}
    (fits : start + values.length ≤ memory.length) :
    (memory.write start values).contents =
      memory.contents.take start ++ values ++ memory.contents.drop (start + values.length) := by
  by_cases nothing : values = []
  · simp [write, nothing]
  · have length : (memory.write start values).length = memory.length := by
      simp only [write, if_neg nothing]
      omega
    have front : (memory.contents.take start ++ values).length = start + values.length := by
      simp only [List.length_append, List.length_take, length_contents]
      omega
    apply List.ext_getElem?
    intro index
    rw [getElem?_contents, length]
    simp only [write, if_neg nothing]
    rcases Nat.lt_or_ge index (start + values.length) with covered | after
    · rw [List.getElem?_append_left (by omega), if_pos (by omega)]
      rcases Nat.lt_or_ge index start with before | inside
      · rw [if_neg (by omega), List.getElem?_append_left (by simp; omega),
          List.getElem?_take_of_lt before, getElem?_contents, if_pos (by omega)]
      · rw [if_pos ⟨inside, covered⟩, List.getElem?_append_right (by simp; omega)]
        simp [Nat.min_eq_left (show start ≤ memory.length by omega),
          show index - start < values.length by omega]
    · have outside : ¬(start ≤ index ∧ index < start + values.length) := by omega
      rw [List.getElem?_append_right (by omega), if_neg outside, front, List.getElem?_drop,
        getElem?_contents, Nat.add_sub_cancel' after]

/-- A write may raise the length first. -/
theorem write_reserve {start bound : Nat} {values : List α} (some_ : values ≠ [])
    (covered : bound ≤ start + values.length) (memory : Growable α) :
    (memory.reserve bound).write start values = memory.write start values := by
  rw [write, write, if_neg some_, if_neg some_]
  apply ext
  · intro index
    rfl
  · simp only [reserve]
    omega

/-- A write at or beyond the length pads with zeros, then appends. -/
theorem contents_write_beyond {start : Nat} {values : List α} {memory : Growable α}
    (some_ : values ≠ []) (beyond : memory.length ≤ start) :
    (memory.write start values).contents =
      memory.contents ++ List.replicate (start - memory.length) 0 ++ values := by
  have padding : start + values.length - memory.length =
      (start - memory.length) + values.length := by omega
  have front : (memory.contents ++ List.replicate (start - memory.length) 0).length = start := by
    simp only [List.length_append, length_contents, List.length_replicate]
    omega
  have inside : start + values.length ≤ (memory.reserve (start + values.length)).length := by
    simp only [reserve]
    omega
  rw [← write_reserve some_ (Nat.le_refl _), contents_write inside, contents_reserve, padding,
    List.replicate_add, ← List.append_assoc, List.take_left' front,
    List.drop_of_length_le
      (Nat.le_of_eq (by rw [List.length_append, front, List.length_replicate])),
    List.append_nil]

/-- A write at the length appends. -/
theorem contents_append {start : Nat} {values : List α} {memory : Growable α}
    (atEnd : start = memory.length) :
    (memory.write start values).contents = memory.contents ++ values := by
  rcases eq_or_ne values [] with rfl | some_
  · simp [write]
  · rw [contents_write_beyond some_ (Nat.le_of_eq atEnd.symm), atEnd, Nat.sub_self,
      List.replicate_zero, List.append_nil]

/-- Two writes next to each other are one. -/
theorem write_append (start : Nat) (front back : List α) (memory : Growable α) :
    (memory.write start front).write (start + front.length) back =
      memory.write start (front ++ back) := by
  rcases eq_or_ne back [] with rfl | someBack
  · rw [List.append_nil, write, if_pos rfl]
  rcases eq_or_ne front [] with rfl | someFront
  · rw [List.nil_append, List.length_nil, Nat.add_zero]
    exact congrArg (write start back) (if_pos rfl)
  have both : front ++ back ≠ [] := by simp [someFront]
  apply ext
  · intro index
    simp only [write, if_neg someBack, if_neg someFront, if_neg both, List.length_append]
    rcases Nat.lt_or_ge index (start + front.length) with before | after
    · rw [if_neg (by omega)]
      by_cases inside : start ≤ index
      · rw [if_pos (by omega), if_pos (by omega), List.getElem?_append_left (by omega)]
      · rw [if_neg (by omega), if_neg (by omega)]
    · by_cases inside : index < start + front.length + back.length
      · have shifted : index - (start + front.length) = index - start - front.length := by omega
        rw [if_pos (by omega), if_pos (by omega), List.getElem?_append_right (by omega), shifted]
      · rw [if_neg (by omega), if_neg (by omega), if_neg (by omega)]
  · simp only [write, if_neg someBack, if_neg someFront, if_neg both, List.length_append]
    omega

/-- A move raises the length, then writes the old cells of its source. -/
theorem move_eq_write {target source size : Nat} (some_ : size ≠ 0) (memory : Growable α) :
    memory.move target source size =
      (memory.reserve (max (source + size) (target + size))).write target
        (memory.slice source size) := by
  have values : memory.slice source size ≠ [] := by
    intro nothing
    exact some_ (by simpa using congrArg List.length nothing)
  rw [move, write, if_neg some_, if_neg values]
  apply ext
  · intro index
    simp only [length_slice]
    by_cases inside : target ≤ index ∧ index < target + size
    · have below : index - target < size := by omega
      simp [if_pos inside, slice, below]
    · simp [if_neg inside, reserve]
  · simp only [length_slice, reserve]
    omega

end Growable
end XProject.Std
