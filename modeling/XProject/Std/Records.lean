import Mathlib.Data.List.Basic
import Mathlib.Data.Vector.Basic

/-!
# Records of one width, laid out one after another

An array in memory is the concatenation of its elements, all of the same width.
The lemmas say how taking, replacing, reading and appending whole records look
on the cells.
-/

namespace XProject.Std.Records

universe u

variable {α : Type u} {width : Nat}

/-- The cells of the records in order. -/
def layout (records : List (List.Vector α width)) : List α := records.flatMap fun record => record.val

/-- The record at an index of an infinite row of cells. -/
def piece (width : Nat) (cell : Nat → α) (index : Nat) : List.Vector α width :=
  ⟨(List.range width).map fun place => cell (index * width + place), by simp⟩

/-- The first records of an infinite row of cells. -/
def cut (width count : Nat) (cell : Nat → α) : List (List.Vector α width) :=
  (List.range count).map (piece width cell)

@[simp] theorem layout_nil : layout ([] : List (List.Vector α width)) = [] := rfl

@[simp] theorem layout_cons (record : List.Vector α width) (records : List (List.Vector α width)) :
    layout (record :: records) = record.val ++ layout records := rfl

theorem layout_append (front back : List (List.Vector α width)) :
    layout (front ++ back) = layout front ++ layout back := List.flatMap_append

@[simp] theorem length_layout (records : List (List.Vector α width)) :
    (layout records).length = records.length * width := by
  induction records with
  | nil => simp
  | cons record records ih =>
      rw [layout_cons, List.length_append, ih, record.property, List.length_cons, Nat.add_mul]
      omega

/-- The cells before a record are those of the records before it. -/
theorem take_layout (records : List (List.Vector α width)) (count : Nat) :
    (layout records).take (count * width) = layout (records.take count) := by
  induction records generalizing count with
  | nil => simp
  | cons record records ih =>
      cases count with
      | zero => simp
      | succ count =>
          have length : (count + 1) * width = record.val.length + count * width := by
            rw [record.property, Nat.add_mul]
            omega
          rw [layout_cons, length, List.take_length_add_append, ih, List.take_succ_cons, layout_cons]

/-- The cells from a record on are those of the records from it on. -/
theorem drop_layout (records : List (List.Vector α width)) (count : Nat) :
    (layout records).drop (count * width) = layout (records.drop count) := by
  induction records generalizing count with
  | nil => simp
  | cons record records ih =>
      cases count with
      | zero => simp
      | succ count =>
          have length : (count + 1) * width = record.val.length + count * width := by
            rw [record.property, Nat.add_mul]
            omega
          rw [layout_cons, length, List.drop_length_add_append, ih, List.drop_succ_cons]

/-- The cells of one record. -/
theorem slot_layout {records : List (List.Vector α width)} {index : Nat}
    (inside : index < records.length) :
    ((layout records).drop (index * width)).take width = records[index].val := by
  rw [drop_layout, List.drop_eq_getElem_cons inside, layout_cons,
    List.take_left' records[index].property]

/-- Replacing the cells of one record replaces that record. -/
theorem set_layout {records : List (List.Vector α width)} {index : Nat}
    (inside : index < records.length) (record : List.Vector α width) :
    (layout records).take (index * width) ++ record.val ++
      (layout records).drop (index * width + width) = layout (records.set index record) := by
  have next : index * width + width = (index + 1) * width := by
    rw [Nat.add_mul]
    omega
  rw [next, take_layout, drop_layout, List.set_eq_take_append_cons_drop, if_pos inside,
    layout_append, layout_cons, List.append_assoc]

/-- Records of one repeated cell. -/
theorem layout_replicate (count : Nat) (cell : α) :
    layout (List.replicate count (List.Vector.replicate width cell)) =
      List.replicate (count * width) cell := by
  induction count with
  | zero => simp
  | succ count ih =>
      rw [List.replicate_succ, layout_cons, ih, Nat.add_mul, Nat.one_mul, Nat.add_comm,
        List.replicate_add]
      rfl

@[simp] theorem length_cut (count : Nat) (cell : Nat → α) :
    (cut width count cell).length = count := by
  simp [cut]

theorem layout_cut (count : Nat) (cell : Nat → α) :
    layout (cut width count cell) = (List.range (count * width)).map cell := by
  induction count with
  | zero => simp [cut, layout]
  | succ count ih =>
      have last : cut width (count + 1) cell = cut width count cell ++ [piece width cell count] := by
        simp [cut, List.range_succ]
      rw [last, layout_append, ih, Nat.add_mul, Nat.one_mul, List.range_add, List.map_append,
        List.map_map, layout_cons, layout_nil, List.append_nil]
      rfl

/-! ## Records of any widths -/

section Spelled

variable {β : Type*} {spell : β → List α} {records : List β} {index : Nat} {old : β}

/-- The cells of one record stand between those of the records around it. -/
theorem flatMap_split (found : records[index]? = some old) :
    records.flatMap spell = (records.take index).flatMap spell ++
      (spell old ++ (records.drop (index + 1)).flatMap spell) := by
  obtain ⟨inside, here⟩ := List.getElem?_eq_some_iff.mp found
  have rest := List.drop_eq_getElem_cons inside
  rw [here] at rest
  rw [← List.flatMap_cons, ← rest, ← List.flatMap_append, List.take_append_drop]

/-- Cells of the same number in the place of a record's replace that record. -/
theorem flatMap_set (found : records[index]? = some old) {record : β}
    (same : (spell record).length = (spell old).length) :
    let start := ((records.take index).flatMap spell).length
    start + (spell record).length ≤ (records.flatMap spell).length ∧
      (records.flatMap spell).take start ++ spell record ++
          (records.flatMap spell).drop (start + (spell record).length) =
        (records.set index record).flatMap spell := by
  intro start
  obtain ⟨inside, _⟩ := List.getElem?_eq_some_iff.mp found
  have split := @flatMap_split _ _ spell _ _ _ found
  have length := congrArg List.length split
  simp only [List.length_append] at length
  refine ⟨by omega, ?_⟩
  have finish : start + (spell record).length =
      ((records.take index).flatMap spell ++ spell old).length := by
    rw [List.length_append, same]
  rw [finish, split, List.take_left' rfl, ← List.append_assoc _ (spell old), List.drop_left' rfl,
    List.set_eq_take_append_cons_drop, if_pos inside, List.flatMap_append, List.flatMap_cons,
    List.append_assoc]

/-- Replacing a record by one of its width moves no record. -/
theorem length_flatMap_set (found : records[index]? = some old) {record : β}
    (same : (spell record).length = (spell old).length) (count : Nat) :
    (((records.set index record).take count).flatMap spell).length =
      ((records.take count).flatMap spell).length := by
  induction records generalizing index count with
  | nil => cases found
  | cons first rest ih =>
      cases count with
      | zero => rfl
      | succ count =>
          cases index with
          | zero =>
              cases found
              simp [same]
          | succ index =>
              have tail := ih found count
              simp only [List.set_cons_succ, List.take_succ_cons, List.flatMap_cons,
                List.length_append, tail]

end Spelled

end XProject.Std.Records
