import XProject.Types.LruCache

/-!
# Coherence of the item list and the index

`Indexes` relates the list nodes to the map of iterators: keys are distinct in
the list, and the map sends exactly the listed keys to the nodes that hold
them. Two edits generate every operation: removing a key from both sides and
pushing a fresh key on both sides. Coherence does not mention the counter, so it
survives `Clear` and `SetMaxSize` as well.
-/

namespace XProject.Base.LruCache

open XProject.Std

variable {Key Value : Type} [DecidableEq Key]

/-- The map of iterators is an exact index of the listed nodes. -/
structure Indexes (nodes : List (NodeId × Key × Value))
    (index : AList fun _ : Key => NodeId) : Prop where
  keysDistinct : (nodes.map fun node => node.2.1).Nodup
  lookup_iff : ∀ key it, index.lookup key = some it ↔ ∃ value, (it, key, value) ∈ nodes

namespace Indexes

variable {nodes : List (NodeId × Key × Value)} {index : AList fun _ : Key => NodeId}

theorem empty : Indexes ([] : List (NodeId × Key × Value)) ∅ :=
  ⟨List.nodup_nil, by simp⟩

/-- A listed key determines its node. -/
theorem node_unique (indexes : Indexes nodes index) {first second : NodeId × Key × Value}
    (firstIn : first ∈ nodes) (secondIn : second ∈ nodes) (same : first.2.1 = second.2.1) :
    first = second :=
  List.inj_on_of_nodup_map indexes.keysDistinct firstIn secondIn same

theorem lookup_eq_none_iff (indexes : Indexes nodes index) (key : Key) :
    index.lookup key = none ↔ ∀ node ∈ nodes, node.2.1 ≠ key := by
  constructor
  · rintro absent ⟨it, other, value⟩ member rfl
    have present := (indexes.lookup_iff other it).mpr ⟨value, member⟩
    rw [absent] at present
    cases present
  · intro missing
    cases found : index.lookup key with
    | none => rfl
    | some it =>
        obtain ⟨value, member⟩ := (indexes.lookup_iff key it).mp found
        exact absurd rfl (missing _ member)

/-- Removing a key from the list and from the map keeps them coherent. -/
theorem remove (indexes : Indexes nodes index) (key : Key) :
    Indexes (nodes.filter fun node => node.2.1 ≠ key) (index.erase key) where
  keysDistinct := indexes.keysDistinct.sublist (List.filter_sublist.map _)
  lookup_iff := by
    intro other it
    by_cases same : other = key
    · subst other
      simp [AList.lookup_erase]
    · rw [AList.lookup_erase_ne same, indexes.lookup_iff]
      simp [same]

/-- Pushing a key that is not listed keeps list and map coherent. -/
theorem push (indexes : Indexes nodes index) {key : Key} (it : NodeId) (value : Value)
    (absent : ∀ node ∈ nodes, node.2.1 ≠ key) :
    Indexes ((it, key, value) :: nodes) (index.insert key it) where
  keysDistinct := by
    rw [List.map_cons, List.nodup_cons]
    refine ⟨?_, indexes.keysDistinct⟩
    simp only [List.mem_map, not_exists, not_and]
    exact fun node member => absent node member
  lookup_iff := by
    intro other position
    by_cases same : other = key
    · subst other
      rw [AList.lookup_insert]
      constructor
      · rintro ⟨rfl⟩
        exact ⟨value, List.mem_cons_self⟩
      · rintro ⟨stored, member⟩
        rcases List.mem_cons.mp member with equal | member
        · rw [(Prod.mk.inj equal).1]
        · exact absurd rfl (absent _ member)
    · rw [AList.lookup_insert_ne same, indexes.lookup_iff]
      simp [same]

/-- Reordering the list keeps it coherent with the same map. -/
theorem reorder (indexes : Indexes nodes index) {moved : List (NodeId × Key × Value)}
    (perm : moved.Perm nodes) : Indexes moved index where
  keysDistinct := (perm.map _).nodup_iff.mpr indexes.keysDistinct
  lookup_iff key it := by simp only [indexes.lookup_iff, perm.mem_iff]

/-- The map holds as many keys as the list holds nodes. -/
theorem keys_length (indexes : Indexes nodes index) : index.keys.length = nodes.length := by
  have perm : index.keys.Perm (nodes.map fun node => node.2.1) := by
    rw [List.perm_ext_iff_of_nodup index.keys_nodup indexes.keysDistinct]
    intro key
    rw [← AList.mem_keys, ← AList.lookup_isSome, Option.isSome_iff_exists]
    simp only [indexes.lookup_iff, List.mem_map, Prod.exists]
    constructor
    · rintro ⟨it, value, member⟩
      exact ⟨it, key, value, member, rfl⟩
    · rintro ⟨it, _, value, member, rfl⟩
      exact ⟨it, value, member⟩
  simpa using perm.length_eq

/-- Under coherence the node of an iterator and the node of a key are removed
by the same filter. -/
theorem filter_it_eq (indexes : Indexes nodes index) (distinct : (nodes.map Prod.fst).Nodup)
    {it : NodeId} {key : Key} {value : Value} (member : (it, key, value) ∈ nodes) :
    (nodes.filter fun node => node.1 ≠ it) = nodes.filter fun node => node.2.1 ≠ key := by
  refine List.filter_congr fun node nodeIn => ?_
  have iff : node.1 = it ↔ node.2.1 = key := by
    constructor
    · intro same
      rw [List.inj_on_of_nodup_map distinct nodeIn member same]
    · intro same
      rw [indexes.node_unique nodeIn member same]
  simp [iff]

end Indexes

/-- A list with distinct keys loses exactly the key of its last node with that node. -/
theorem dropLast_eq_filter {nodes : List (NodeId × Key × Value)}
    (distinct : (nodes.map fun node => node.2.1).Nodup) {last : NodeId × Key × Value}
    (isLast : nodes.getLast? = some last) :
    nodes.dropLast = nodes.filter fun node => node.2.1 ≠ last.2.1 := by
  obtain ⟨front, rfl⟩ := List.getLast?_eq_some_iff.mp isLast
  have others : ∀ node ∈ front, node.2.1 ≠ last.2.1 := by
    intro node member same
    rw [List.map_append, List.nodup_append] at distinct
    exact distinct.2.2 _ (List.mem_map.mpr ⟨node, member, rfl⟩) last.2.1 (by simp) same
  rw [List.dropLast_concat, List.filter_append, List.filter_eq_self.mpr (by simpa using others)]
  simp

/-- The list and the map of a cache are coherent. -/
def Coherent (cache : LruCache Key Value) : Prop :=
  Indexes cache.itemsList.nodes cache.itemsIndexingMap

/-- The (key, value) pairs held, most recently used first. -/
def pairs (cache : LruCache Key Value) : List (Key × Value) := cache.itemsList.values

theorem pairs_eq (cache : LruCache Key Value) :
    cache.pairs = cache.itemsList.nodes.map Prod.snd := rfl

/-- The pairs with another key than `key`. -/
def without (key : Key) (held : List (Key × Value)) : List (Key × Value) :=
  held.filter fun pair => pair.1 ≠ key

theorem map_filter_key (key : Key) (nodes : List (NodeId × Key × Value)) :
    (nodes.filter fun node => node.2.1 ≠ key).map Prod.snd =
      without key (nodes.map Prod.snd) := by
  simp [without, List.filter_map, Function.comp_def]

namespace Coherent

variable {cache : LruCache Key Value}

theorem ofNew (maxSize : Nat) : Coherent (LruCache.new maxSize : LruCache Key Value) := Indexes.empty

/-- The map knows a key exactly when some pair holds it. -/
theorem contain_iff (coherent : Coherent cache) (key : Key) :
    cache.contain key = true ↔ ∃ pair ∈ cache.pairs, pair.1 = key := by
  rw [contain, Option.isSome_iff_exists]
  simp only [coherent.lookup_iff, pairs_eq, List.mem_map]
  constructor
  · rintro ⟨it, value, member⟩
    exact ⟨(key, value), ⟨(it, key, value), member, rfl⟩, rfl⟩
  · rintro ⟨_, ⟨⟨it, _, value⟩, member, rfl⟩, rfl⟩
    exact ⟨it, value, member⟩

theorem size_eq (coherent : Coherent cache) : cache.size = cache.pairs.length := by
  rw [size, coherent.keys_length, pairs_eq, List.length_map]

theorem ofClear (cache : LruCache Key Value) : Coherent cache.clear := Indexes.empty

theorem ofSetMaxSize (coherent : Coherent cache) (maxSize : Nat) :
    Coherent (cache.setMaxSize maxSize) := by
  unfold setMaxSize
  split
  · exact ofClear cache
  · exact coherent

/-- The keys of the pairs held are distinct. -/
theorem pairKeys (coherent : Coherent cache) : (cache.pairs.map Prod.fst).Nodup := by
  rw [pairs_eq, List.map_map]
  exact coherent.keysDistinct

end Coherent

/-- Without an indexed iterator `Erase` does nothing. -/
theorem erase_of_missing {cache : LruCache Key Value} {key : Key}
    (missing : cache.itemsIndexingMap.lookup key = none) : cache.erase key = some cache := by
  simp only [erase, missing]

/-- With a live indexed iterator `Erase` unlinks its node and its map entry. -/
theorem erase_of_found {cache : LruCache Key Value} {key : Key} {it : NodeId}
    {item : Key × Value} (found : cache.itemsIndexingMap.lookup key = some it)
    (live : (it, item) ∈ cache.itemsList.nodes) :
    ∃ next, cache.erase key = some next ∧
      next.itemsList.nodes = (cache.itemsList.nodes.filter fun node => node.1 ≠ it) ∧
      next.itemsIndexingMap = cache.itemsIndexingMap.erase key ∧
      next.curSize = cache.curSize - 1 ∧ next.maxSize = cache.maxSize := by
  obtain ⟨rest, erased, nodes⟩ := cache.itemsList.erase_of_mem live
  simp only [erase, found, erased]
  exact ⟨_, rfl, nodes, rfl, rfl, rfl⟩

/-- What `Erase` leaves: the pairs of the other keys, and a counter lowered
exactly when the key was known. -/
theorem erase_effect {cache : LruCache Key Value} (coherent : Coherent cache) (key : Key) :
    ∃ next, cache.erase key = some next ∧ Coherent next ∧
      next.pairs = without key cache.pairs ∧
      next.curSize = (if cache.contain key then cache.curSize - 1 else cache.curSize) ∧
      next.maxSize = cache.maxSize := by
  unfold contain
  cases found : cache.itemsIndexingMap.lookup key with
  | none =>
      refine ⟨cache, erase_of_missing found, coherent, ?_, by simp, rfl⟩
      have missing := (coherent.lookup_eq_none_iff key).mp found
      rw [pairs_eq, ← map_filter_key, List.filter_eq_self.mpr (by simpa using missing)]
  | some it =>
      obtain ⟨value, member⟩ := (coherent.lookup_iff key it).mp found
      obtain ⟨next, erased, nodes, index, count, bound⟩ := erase_of_found found member
      rw [coherent.filter_it_eq cache.itemsList.distinct member] at nodes
      refine ⟨next, erased, ?_, ?_, by simp [count], bound⟩
      · rw [Coherent, nodes, index]
        exact coherent.remove key
      · rw [pairs_eq, nodes, map_filter_key, pairs_eq]

/-- What the eviction branch leaves: once the counter is past the maximum, the
last pair goes and the counter drops with it. -/
theorem evict_effect {cache : LruCache Key Value} (coherent : Coherent cache)
    (nonempty : cache.pairs ≠ []) :
    ∃ next, cache.evict = some next ∧ Coherent next ∧
      next.pairs = (if cache.curSize > cache.maxSize then cache.pairs.dropLast else cache.pairs) ∧
      next.curSize = (if cache.curSize > cache.maxSize then cache.curSize - 1 else cache.curSize) ∧
      next.maxSize = cache.maxSize := by
  unfold evict
  by_cases excess : cache.curSize > cache.maxSize
  · have someLast : cache.itemsList.nodes ≠ [] := by
      intro none
      exact nonempty (by rw [pairs_eq, none]; rfl)
    have isLast := List.getLast?_eq_getLast_of_ne_nil someLast
    have dropped := dropLast_eq_filter coherent.keysDistinct isLast
    simp only [if_pos excess, NodeList.back?, isLast, Option.map_some]
    refine ⟨_, rfl, ?_, ?_, rfl, rfl⟩
    · simpa only [Coherent, NodeList.nodes_popBack, dropped] using coherent.remove _
    · simp only [pairs_eq, NodeList.nodes_popBack, List.map_dropLast]
  · simp only [if_neg excess]
    exact ⟨cache, rfl, coherent, rfl, rfl, rfl⟩

/-- `Put` up to its eviction branch. -/
def replace (key : Key) (value : Value) (cache : LruCache Key Value) :
    Option (LruCache Key Value) :=
  match erase key { cache with itemsList := cache.itemsList.emplaceFront (key, value) } with
  | none => none
  | some cache =>
      match cache.itemsList.begin? with
      | none => none
      | some front => some { cache with
          itemsIndexingMap := cache.itemsIndexingMap.insert key front
          curSize := cache.curSize + 1 }

/-- `Put` is the replacement followed by the eviction branch. -/
theorem put_of_replace {cache replaced : LruCache Key Value} {key : Key} {value : Value}
    (isReplaced : cache.replace key value = some replaced) :
    cache.put key value = replaced.evict := by
  cases unlinked : erase key
      { cache with itemsList := cache.itemsList.emplaceFront (key, value) } with
  | none => simp [replace, unlinked] at isReplaced
  | some erased =>
      cases isFront : erased.itemsList.begin? with
      | none => simp [replace, unlinked, isFront] at isReplaced
      | some front =>
          simp only [replace, unlinked, isFront, Option.some.injEq] at isReplaced
          simp only [put, unlinked, isFront, isReplaced]

/-- With a new node of the key in front, the block of `Put` that drops the old one leaves
it before the nodes of other keys, whether there was an old one or not. -/
theorem erase_emplaced {cache : LruCache Key Value} (coherent : Coherent cache)
    (key : Key) (value : Value) :
    ∃ next, erase key
        { cache with itemsList := cache.itemsList.emplaceFront (key, value) } = some next ∧
      next.itemsList.nodes = (cache.itemsList.nextId, key, value) ::
        cache.itemsList.nodes.filter (fun node => node.2.1 ≠ key) ∧
      Indexes (cache.itemsList.nodes.filter fun node => node.2.1 ≠ key) next.itemsIndexingMap ∧
      next.curSize = (if cache.contain key then cache.curSize - 1 else cache.curSize) ∧
      next.maxSize = cache.maxSize := by
  let doubled : LruCache Key Value :=
    { cache with itemsList := cache.itemsList.emplaceFront (key, value) }
  unfold contain
  cases found : cache.itemsIndexingMap.lookup key with
  | none =>
      have missing := (coherent.lookup_eq_none_iff key).mp found
      have same : cache.itemsList.nodes.filter (fun node => node.2.1 ≠ key) =
          cache.itemsList.nodes := List.filter_eq_self.mpr (by simpa using missing)
      rw [same]
      exact ⟨doubled, erase_of_missing found, rfl, coherent, by simp [doubled], rfl⟩
  | some it =>
      obtain ⟨old, member⟩ := (coherent.lookup_iff key it).mp found
      obtain ⟨next, erased, nodes, index, count, bound⟩ :=
        @erase_of_found Key Value _ doubled key it _ found (List.mem_cons_of_mem _ member)
      have older : it < cache.itemsList.nextId := cache.itemsList.fresh _ member
      refine ⟨next, erased, ?_, ?_, by simp [count, doubled], bound⟩
      · have same := coherent.filter_it_eq cache.itemsList.distinct member
        have newer : cache.itemsList.nextId ≠ it := Nat.ne_of_gt older
        rw [nodes, ← same]
        exact List.filter_cons_of_pos (by simpa using newer)
      · rw [index]
        exact coherent.remove key

/-- The state of `Put` before its eviction branch: the old item of the key is
gone, the new one is in front, indexed and counted. -/
theorem put_replaces {cache : LruCache Key Value} (coherent : Coherent cache)
    (key : Key) (value : Value) :
    ∃ replaced, cache.replace key value = some replaced ∧ Coherent replaced ∧
      replaced.pairs = (key, value) :: without key cache.pairs ∧
      replaced.curSize =
        (if cache.contain key then cache.curSize - 1 else cache.curSize) + 1 ∧
      replaced.maxSize = cache.maxSize := by
  obtain ⟨next, erased, nodes, indexes, count, bound⟩ := erase_emplaced coherent key value
  have front : next.itemsList.begin? = some cache.itemsList.nextId := by
    simp [NodeList.begin?, nodes]
  refine ⟨{ next with
      itemsIndexingMap := next.itemsIndexingMap.insert key cache.itemsList.nextId
      curSize := next.curSize + 1 }, ?_, ?_, ?_, by simp [count], bound⟩
  · simp only [replace, erased, front]
  · rw [Coherent, nodes]
    exact indexes.push _ value (by simp)
  · rw [pairs_eq, nodes, List.map_cons, map_filter_key, pairs_eq]

/-- What `Get` leaves: a known key's value is returned and its pair comes to the
front; an unknown key changes nothing. -/
theorem get_effect {cache : LruCache Key Value} (coherent : Coherent cache) (key : Key) :
    ∃ next, cache.get key = some ((cache.pairs.find? fun pair => pair.1 = key).map Prod.snd, next) ∧
      Coherent next ∧
      next.pairs = (match cache.pairs.find? fun pair => pair.1 = key with
        | none => cache.pairs
        | some pair => pair :: without key cache.pairs) ∧
      next.curSize = cache.curSize ∧ next.maxSize = cache.maxSize := by
  cases found : cache.itemsIndexingMap.lookup key with
  | none =>
      have missing := (coherent.lookup_eq_none_iff key).mp found
      have unheld : (cache.pairs.find? fun pair => pair.1 = key) = none := by
        rw [List.find?_eq_none, pairs_eq]
        intro pair held
        obtain ⟨node, member, rfl⟩ := List.mem_map.mp held
        simpa using missing node member
      refine ⟨cache, ?_, coherent, by rw [unheld], rfl, rfl⟩
      simp only [get, found, unheld, Option.map_none]
  | some it =>
      obtain ⟨value, member⟩ := (coherent.lookup_iff key it).mp found
      have held : (cache.pairs.find? fun pair => pair.1 = key) = some (key, value) := by
        rw [find?_key_eq_some_iff Prod.fst coherent.pairKeys]
        exact ⟨List.mem_map.mpr ⟨_, member, rfl⟩, rfl⟩
      -- in front already or spliced there, the node ends before all others
      have moved : ∃ list : NodeList (Key × Value),
          (if some it ≠ cache.itemsList.begin? then cache.itemsList.spliceFront it
            else some cache.itemsList) = some list ∧
          list.nodes = (it, key, value) ::
            cache.itemsList.nodes.filter fun node => node.1 ≠ it := by
        by_cases front : cache.itemsList.begin? = some it
        · exact ⟨cache.itemsList, by simp [front], cache.itemsList.nodes_of_begin member front⟩
        · obtain ⟨list, spliced, nodes⟩ := cache.itemsList.spliceFront_of_mem member
          exact ⟨list, by rw [if_pos (fun same => front same.symm), spliced], nodes⟩
      obtain ⟨list, spliced, nodes⟩ := moved
      have value_at : list.deref it = some (key, value) := by
        rw [NodeList.deref_eq_some_iff, nodes]
        exact List.mem_cons_self
      refine ⟨{ cache with itemsList := list }, ?_, ?_, ?_, rfl, rfl⟩
      · simp only [get, found, spliced, value_at, held, Option.map_some]
      · rw [Coherent, nodes]
        exact coherent.reorder (cache.itemsList.perm_of_front member)
      · rw [held, pairs_eq, nodes, List.map_cons,
          coherent.filter_it_eq cache.itemsList.distinct member, map_filter_key, pairs_eq]

end XProject.Base.LruCache
