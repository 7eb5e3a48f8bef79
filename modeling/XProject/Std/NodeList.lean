import Mathlib.Data.List.Nodup

/-!
# Linked lists with stable node identities

`NodeList` is a linked list whose nodes keep their identity while other nodes
come and go, so an identity can be stored elsewhere as an iterator. Distinct
identities are a field of the list: no operation can build a list in which one
iterator denotes two nodes.
-/

namespace XProject.Std

/-- Distinct keys make lookup by key exact. -/
theorem find?_key_eq_some_iff {α κ : Type} [DecidableEq κ] (key : α → κ) {entries : List α}
    (distinct : (entries.map key).Nodup) (wanted : κ) (entry : α) :
    (entries.find? fun other => key other = wanted) = some entry ↔
      entry ∈ entries ∧ key entry = wanted := by
  constructor
  · intro found
    exact ⟨List.mem_of_find?_eq_some found, by simpa using List.find?_some found⟩
  · rintro ⟨member, rfl⟩
    obtain ⟨other, found⟩ := Option.isSome_iff_exists.mp
      (List.find?_isSome.mpr ⟨entry, member, by simp⟩ :
        (entries.find? fun other => key other = key entry).isSome)
    have same : key other = key entry := by simpa using List.find?_some found
    rw [found, List.inj_on_of_nodup_map distinct (List.mem_of_find?_eq_some found) member same]

/-- Distinct keys: bringing one entry to the front permutes the entries. -/
theorem perm_cons_filter_key {α κ : Type} [DecidableEq κ] (key : α → κ) {entries : List α}
    (distinct : (entries.map key).Nodup) {entry : α} (member : entry ∈ entries) :
    (entry :: entries.filter fun other => key other ≠ key entry).Perm entries := by
  have nodup : entries.Nodup := distinct.of_map
  rw [List.perm_ext_iff_of_nodup
    (List.nodup_cons.mpr ⟨by simp, nodup.sublist List.filter_sublist⟩) nodup]
  intro other
  constructor
  · intro listed
    rcases List.mem_cons.mp listed with rfl | listed
    · exact member
    · exact List.mem_of_mem_filter listed
  · intro listed
    by_cases same : key other = key entry
    · rw [List.inj_on_of_nodup_map distinct listed member same]
      exact List.mem_cons_self
    · exact List.mem_cons_of_mem _ (List.mem_filter.mpr ⟨listed, by simpa using same⟩)

/-- The identity of a node; an iterator is the identity it points at. -/
abbrev NodeId := Nat

/-- A linked list of identified nodes, front first. -/
structure NodeList (α : Type) where
  nodes : List (NodeId × α)
  nextId : NodeId
  fresh : ∀ node ∈ nodes, node.1 < nextId
  distinct : (nodes.map Prod.fst).Nodup

namespace NodeList

variable {α : Type}

/-- The stored elements without their identities. -/
def values (list : NodeList α) : List α := list.nodes.map Prod.snd

def empty : NodeList α := ⟨[], 0, by simp, by simp⟩

/-- Insert a new node before every other one. -/
def emplaceFront (list : NodeList α) (value : α) : NodeList α where
  nodes := (list.nextId, value) :: list.nodes
  nextId := list.nextId + 1
  fresh := by
    intro node member
    rcases List.mem_cons.mp member with rfl | member
    · exact Nat.lt_succ_self _
    · exact Nat.lt_succ_of_lt (list.fresh node member)
  distinct := by
    rw [List.map_cons, List.nodup_cons]
    refine ⟨?_, list.distinct⟩
    simp only [List.mem_map, not_exists, not_and]
    intro node member same
    exact absurd same (Nat.ne_of_lt (list.fresh node member))

/-- Keep a sublist of the nodes; their identities stay distinct. -/
def restrict (list : NodeList α) (kept : List (NodeId × α))
    (sublist : kept.Sublist list.nodes) : NodeList α where
  nodes := kept
  nextId := list.nextId
  fresh node member := list.fresh node (sublist.subset member)
  distinct := list.distinct.sublist (sublist.map Prod.fst)

/-- The element an iterator points at, when its node is still in the list. -/
def deref (list : NodeList α) (it : NodeId) : Option α :=
  (list.nodes.find? fun node => node.1 = it).map Prod.snd

/-- Unlink the node of an iterator. An iterator without a node has no defined result. -/
def erase (list : NodeList α) (it : NodeId) : Option (NodeList α) :=
  if (list.deref it).isSome then
    some (list.restrict (list.nodes.filter fun node => node.1 ≠ it) List.filter_sublist)
  else none

/-- Move the node of an iterator to the front, keeping its identity. -/
def spliceFront (list : NodeList α) (it : NodeId) : Option (NodeList α) :=
  match found : list.nodes.find? fun node => node.1 = it with
  | none => none
  | some node => some {
      nodes := node :: list.nodes.filter fun other => other.1 ≠ it
      nextId := list.nextId
      fresh := by
        intro other member
        rcases List.mem_cons.mp member with rfl | member
        · exact list.fresh other (List.mem_of_find?_eq_some found)
        · exact list.fresh other (List.mem_of_mem_filter member)
      distinct := by
        have same : node.1 = it := by simpa using List.find?_some found
        rw [List.map_cons, List.nodup_cons]
        refine ⟨?_, list.distinct.sublist (List.filter_sublist.map Prod.fst)⟩
        simp [same] }

/-- The iterator of the first node; an empty list has none. -/
def begin? (list : NodeList α) : Option NodeId := list.nodes.head?.map Prod.fst

/-- The last element, found by stepping one back from the end of the list. -/
def back? (list : NodeList α) : Option α := list.nodes.getLast?.map Prod.snd

/-- Unlink the last node. -/
def popBack (list : NodeList α) : NodeList α :=
  list.restrict list.nodes.dropLast list.nodes.dropLast_sublist

/-- Unlink every node; later nodes still get new identities. -/
def clear (list : NodeList α) : NodeList α := list.restrict [] (List.nil_sublist _)

@[simp] theorem nodes_popBack (list : NodeList α) :
    list.popBack.nodes = list.nodes.dropLast := rfl

/-- Distinct identities make lookup by identity exact. -/
theorem find?_eq_some_iff (list : NodeList α) (it : NodeId) (node : NodeId × α) :
    (list.nodes.find? fun other => other.1 = it) = some node ↔
      node ∈ list.nodes ∧ node.1 = it :=
  find?_key_eq_some_iff Prod.fst list.distinct it node

/-- An iterator dereferences to exactly the element of its node. -/
theorem deref_eq_some_iff (list : NodeList α) (it : NodeId) (value : α) :
    list.deref it = some value ↔ (it, value) ∈ list.nodes := by
  unfold deref
  constructor
  · intro found
    obtain ⟨node, lookup, rfl⟩ := Option.map_eq_some_iff.mp found
    obtain ⟨member, rfl⟩ := (list.find?_eq_some_iff it node).mp lookup
    exact member
  · intro member
    rw [(list.find?_eq_some_iff it (it, value)).mpr ⟨member, rfl⟩]
    rfl

/-- Erasing the node of a live iterator removes that node and no other. -/
theorem erase_of_mem (list : NodeList α) {it : NodeId} {value : α}
    (member : (it, value) ∈ list.nodes) :
    ∃ rest, list.erase it = some rest ∧
      rest.nodes = list.nodes.filter fun node => node.1 ≠ it := by
  have live : (list.deref it).isSome := by
    rw [(list.deref_eq_some_iff it value).mpr member]
    rfl
  exact ⟨_, by rw [erase, if_pos live], rfl⟩

/-- Splicing the node of a live iterator moves it before all others. -/
theorem spliceFront_of_mem (list : NodeList α) {it : NodeId} {value : α}
    (member : (it, value) ∈ list.nodes) :
    ∃ moved, list.spliceFront it = some moved ∧
      moved.nodes = (it, value) :: list.nodes.filter fun node => node.1 ≠ it := by
  have found := (list.find?_eq_some_iff it (it, value)).mpr ⟨member, rfl⟩
  unfold spliceFront
  split
  · rename_i missing
    rw [found] at missing
    cases missing
  · rename_i node lookup
    rw [found] at lookup
    cases lookup
    exact ⟨_, rfl, rfl⟩

/-- The front node of a live iterator already stands before all others. -/
theorem nodes_of_begin (list : NodeList α) {it : NodeId} {value : α}
    (member : (it, value) ∈ list.nodes) (front : list.begin? = some it) :
    list.nodes = (it, value) :: list.nodes.filter fun node => node.1 ≠ it := by
  have distinct := list.distinct
  unfold begin? at front
  cases shape : list.nodes with
  | nil => simp [shape] at front
  | cons head rest =>
      simp only [shape, List.head?_cons, Option.map_some, Option.some.injEq] at front
      rw [shape] at member distinct
      have isHead : head = (it, value) :=
        List.inj_on_of_nodup_map distinct List.mem_cons_self member front
      rw [List.map_cons, List.nodup_cons] at distinct
      have others : ∀ node ∈ rest, node.1 ≠ it := by
        intro node nodeIn same
        exact distinct.1 (List.mem_map.mpr ⟨node, nodeIn, by rw [same, front]⟩)
      rw [isHead, List.filter_cons_of_neg (by simp), List.filter_eq_self.mpr (by simpa using others)]

/-- Bringing the node of a live iterator to the front permutes the list. -/
theorem perm_of_front (list : NodeList α) {it : NodeId} {value : α}
    (member : (it, value) ∈ list.nodes) :
    ((it, value) :: list.nodes.filter fun node => node.1 ≠ it).Perm list.nodes :=
  perm_cons_filter_key Prod.fst list.distinct member

end NodeList
end XProject.Std
