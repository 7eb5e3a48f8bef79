import Mathlib.Data.List.Lex
import Mathlib.Order.Lattice

/-!
# Ordered containers as strictly ascending lists

A set or a map ordered by a key is the list of its entries in key order, each
key once. `emplace` leaves an entry alone whose key is there already. Putting
the entries of such a container one by one into the empty one rebuilds it.
-/

namespace XProject.Std

universe u v

/-- Entries whose keys strictly ascend. -/
structure Ascending {α : Type u} {κ : Type v} [LinearOrder κ] (key : α → κ) where
  toList : List α
  ascending : (toList.map key).Pairwise (· < ·)

namespace Ascending

variable {α : Type u} {κ : Type v} [LinearOrder κ] {key : α → κ}

/-- Containers are equal when they list the same entries. -/
@[ext] theorem ext {left right : Ascending key} (entries : left.toList = right.toList) :
    left = right := by
  cases left
  cases right
  cases entries
  rfl

/-- Containers compare as the sequences of their entries. -/
instance [LinearOrder α] : LinearOrder (Ascending key) :=
  LinearOrder.lift' toList fun _ _ => ext

/-- The container without entries. -/
def empty : Ascending key := ⟨[], .nil⟩

/-- Insert an entry in key order unless its key is there. -/
def emplaceEntry (key : α → κ) (entry : α) : List α → List α
  | [] => [entry]
  | first :: rest =>
      if key entry < key first then entry :: first :: rest
      else if key first < key entry then first :: emplaceEntry key entry rest
      else first :: rest

/-- Insertion adds at most the key of the entry. -/
theorem key_mem_emplaceEntry {entry : α} {entries : List α} {other : κ}
    (member : other ∈ (emplaceEntry key entry entries).map key) :
    other = key entry ∨ other ∈ entries.map key := by
  induction entries with
  | nil => simpa [emplaceEntry] using member
  | cons first rest ih =>
      rw [emplaceEntry] at member
      by_cases before : key entry < key first
      · rw [if_pos before] at member
        simpa using member
      · rw [if_neg before] at member
        by_cases after : key first < key entry
        · rw [if_pos after, List.map_cons, List.mem_cons] at member
          rcases member with rfl | member
          · exact .inr (by simp)
          · rcases ih member with here | there
            · exact .inl here
            · exact .inr (List.mem_cons_of_mem _ there)
        · rw [if_neg after] at member
          exact .inr member

theorem emplaceEntry_ascending (entry : α) {entries : List α}
    (ascending : (entries.map key).Pairwise (· < ·)) :
    ((emplaceEntry key entry entries).map key).Pairwise (· < ·) := by
  induction entries with
  | nil => simp [emplaceEntry]
  | cons first rest ih =>
      rw [List.map_cons, List.pairwise_cons] at ascending
      obtain ⟨below, tail⟩ := ascending
      rw [emplaceEntry]
      by_cases before : key entry < key first
      · rw [if_pos before]
        simp only [List.map_cons, List.pairwise_cons]
        refine ⟨?_, below, tail⟩
        intro other member
        rcases List.mem_cons.mp member with rfl | member
        · exact before
        · exact lt_trans before (below other member)
      · rw [if_neg before]
        by_cases after : key first < key entry
        · rw [if_pos after]
          simp only [List.map_cons, List.pairwise_cons]
          refine ⟨?_, ih tail⟩
          intro other member
          rcases key_mem_emplaceEntry member with rfl | member
          · exact after
          · exact below other member
        · rw [if_neg after]
          simp only [List.map_cons, List.pairwise_cons]
          exact ⟨below, tail⟩

/-- Insert an entry unless its key is there. -/
def emplace (entry : α) (container : Ascending key) : Ascending key where
  toList := emplaceEntry key entry container.toList
  ascending := emplaceEntry_ascending entry container.ascending

/-- Insertion adds the entry or nothing. -/
theorem emplaceEntry_perm (entry : α) (entries : List α) :
    emplaceEntry key entry entries = entries ∨
      (emplaceEntry key entry entries).Perm (entry :: entries) := by
  induction entries with
  | nil => exact .inr (.refl _)
  | cons first rest ih =>
      rw [emplaceEntry]
      split
      · exact .inr (.refl _)
      · split
        · rcases ih with same | inserted
          · exact .inl (by rw [same])
          · exact .inr ((inserted.cons first).trans (.swap entry first rest))
        · exact .inl rfl

/-- An entry above all others goes to the end. -/
theorem emplaceEntry_last {entry : α} {entries : List α}
    (above : ∀ other ∈ entries, key other < key entry) :
    emplaceEntry key entry entries = entries ++ [entry] := by
  induction entries with
  | nil => rfl
  | cons first rest ih =>
      have first_lt := above first (by simp)
      rw [emplaceEntry, if_neg (lt_asymm first_lt), if_pos first_lt,
        ih fun other member => above other (List.mem_cons_of_mem _ member), List.cons_append]

/-- Emplacing ascending entries after smaller ones appends them in order. -/
theorem foldl_emplace {container : Ascending key} {entries : List α}
    (ascending : ((container.toList ++ entries).map key).Pairwise (· < ·)) :
    (entries.foldl (fun sofar entry => sofar.emplace entry) container).toList =
      container.toList ++ entries := by
  induction entries generalizing container with
  | nil => simp
  | cons entry rest ih =>
      have above : ∀ other ∈ container.toList, key other < key entry := by
        intro other member
        rw [List.map_append, List.pairwise_append] at ascending
        exact ascending.2.2 (key other) (List.mem_map_of_mem member) (key entry) (by simp)
      have appended : (container.emplace entry).toList = container.toList ++ [entry] :=
        emplaceEntry_last above
      have split : container.toList ++ entry :: rest =
          (container.emplace entry).toList ++ rest := by
        rw [appended, List.append_assoc, List.singleton_append]
      rw [split] at ascending ⊢
      exact ih ascending

/-- A container is rebuilt from its entries in order. -/
theorem rebuild (container : Ascending key) :
    container.toList.foldl (fun sofar entry => sofar.emplace entry) empty = container := by
  apply ext
  rw [foldl_emplace]
  · rfl
  · simpa [empty] using container.ascending

end Ascending
end XProject.Std
