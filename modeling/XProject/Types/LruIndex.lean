import XProject.Types.LruCounter

/-!
# The index of the cache in every reachable state

Coherence spelled out as a caller of the containers sees it: no key twice, the
same keys on both sides, and iterators that can be followed. No call is ever
undefined, so no iterator dangles, and the eviction branch always has an item to
step back to. None of it depends on the counter.
-/

namespace XProject.Base.LruCache

open XProject.Std

variable {Key Value : Type} [DecidableEq Key]

/-- The keys of the item list, front first. -/
def listedKeys (cache : LruCache Key Value) : List Key :=
  cache.itemsList.nodes.map fun node => node.2.1

/-- What every member function relies on when it follows an iterator or steps
back from the end of the list. -/
structure IndexSound (cache : LruCache Key Value) : Prop where
  keysDistinct : cache.listedKeys.Nodup
  sameKeys : ∀ key, key ∈ cache.itemsIndexingMap ↔ key ∈ cache.listedKeys
  iteratorsLive : ∀ key it, cache.itemsIndexingMap.lookup key = some it →
    ∃ value, cache.itemsList.deref it = some (key, value)
  evictsFromSome : ∀ key value, ∃ replaced, cache.replace key value = some replaced ∧
    replaced.itemsList.nodes ≠ []

/-- A coherent cache is sound in all four respects, whatever its counter says. -/
theorem Coherent.indexSound {cache : LruCache Key Value} (coherent : Coherent cache) :
    IndexSound cache where
  keysDistinct := coherent.keysDistinct
  sameKeys key := by
    rw [← AList.lookup_isSome, Option.isSome_iff_exists]
    simp only [coherent.lookup_iff, listedKeys, List.mem_map, Prod.exists]
    constructor
    · rintro ⟨it, value, member⟩
      exact ⟨it, key, value, member, rfl⟩
    · rintro ⟨it, _, value, member, rfl⟩
      exact ⟨it, value, member⟩
  iteratorsLive key it found := by
    obtain ⟨value, member⟩ := (coherent.lookup_iff key it).mp found
    exact ⟨value, (cache.itemsList.deref_eq_some_iff it _).mpr member⟩
  evictsFromSome key value := by
    obtain ⟨replaced, isReplaced, _, held, _⟩ := put_replaces coherent key value
    refine ⟨replaced, isReplaced, fun nothing => ?_⟩
    rw [pairs_eq, nothing] at held
    cases held

/-- Whatever is called in whatever order: every call has a result, and the index
is sound in every state that is reached. -/
theorem index_sound (maxSize : Nat) (calls : List (Call Key Value)) :
    (∃ replies final, (machine Key Value).run (new maxSize) calls = some (replies, final)) ∧
      ∀ cache ∈ (machine Key Value).states (new maxSize) calls, IndexSound cache := by
  constructor
  · exact @Machine.run_total _ _ (machine Key Value) Coherent call_progress (new maxSize)
      (Coherent.ofNew maxSize) calls
  · intro cache visited
    exact (states_coherent maxSize calls cache visited).indexSound

end XProject.Base.LruCache
