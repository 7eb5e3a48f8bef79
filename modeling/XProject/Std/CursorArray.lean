import XProject.Std.Machine

/-!
# An array with a cursor

Accesses take place at the cursor and move it behind what they touched; one that
does not fit is refused and changes nothing but the note that it was. The cursor
may be put anywhere, beyond the end too.
-/

namespace XProject.Std

/-- An array of fixed length, where the next access takes place, and whether one was refused. -/
structure CursorArray (α : Type) where
  cells : List α
  cursor : Nat
  refused : Bool

namespace CursorArray

/-- A use of the array. -/
inductive Access (α : Type) where
  | read (count : Nat)
  | write (items : List α)
  | skip (count : Nat)
  | seek (position : Nat)
  | tell
  | remaining
  | valid

/-- What a use answers. -/
inductive Answer (α : Type) where
  | done (passed : Bool)
  | items (found : Option (List α))
  | number (value : Nat)
  deriving DecidableEq

variable {α : Type}

def perform (array : CursorArray α) : Access α → Answer α × CursorArray α
  | .read count =>
      if array.cursor + count ≤ array.cells.length then
        (.items (some ((array.cells.drop array.cursor).take count)),
          { array with cursor := array.cursor + count })
      else (.items none, { array with refused := true })
  | .write items =>
      if array.cursor + items.length ≤ array.cells.length then
        (.done true, { array with
          cells := array.cells.take array.cursor ++ items ++
            array.cells.drop (array.cursor + items.length)
          cursor := array.cursor + items.length })
      else (.done false, { array with refused := true })
  | .skip count => (.done true, { array with cursor := array.cursor + count })
  | .seek position =>
      (.done (decide (position ≤ array.cells.length)), { array with cursor := position })
  | .tell => (.number array.cursor, array)
  | .remaining => (.number (array.cells.length - array.cursor), array)
  | .valid => (.done (decide (array.cursor ≤ array.cells.length)), array)

/-- The array taking one access at a time. -/
def machine (α : Type) : Machine (Access α) (Answer α) where
  State := CursorArray α
  step array access := some (array.perform access)

/-- No access changes the length. -/
theorem length_perform (array : CursorArray α) (access : Access α) :
    (array.perform access).2.cells.length = array.cells.length := by
  cases access with
  | read count =>
      simp only [perform]
      split <;> rfl
  | write items =>
      simp only [perform]
      split
      · simp only [List.length_append, List.length_take, List.length_drop]
        omega
      · rfl
  | skip | seek | tell | remaining | valid => rfl

/-- How far an access that goes forward moves the cursor. -/
def advance : Access α → Nat
  | .write items => items.length
  | .skip count => count
  | .read _ | .seek _ | .tell | .remaining | .valid => 0

/-- A write or a skip that stays inside passes. -/
theorem perform_forward {array : CursorArray α} {access : Access α}
    (forward : (∃ items, access = .write items) ∨ ∃ count, access = .skip count)
    (fits : array.cursor + advance access ≤ array.cells.length) :
    (array.perform access).1 = .done true ∧
      (array.perform access).2.cursor = array.cursor + advance access ∧
      (array.perform access).2.refused = array.refused := by
  rcases forward with ⟨items, rfl⟩ | ⟨count, rfl⟩
  · simp only [advance] at fits ⊢
    simp only [perform, if_pos fits]
    exact ⟨trivial, trivial, trivial⟩
  · exact ⟨rfl, rfl, rfl⟩

end CursorArray
end XProject.Std
