import XProject.Types.LruCoherence

/-!
# The item counter of the LRU cache

`Counted` says that the hand-maintained counter equals the number of listed
items. Every access keeps it. `Clear` empties both containers without touching
the counter, so it keeps `Counted` only on a cache that was empty already;
`SetMaxSize` inherits this when it grows the maximum. `counter_exact_iff`
characterizes the runs along which the counter can be trusted.
-/

namespace XProject.Base.LruCache

open XProject.Std

variable {Key Value : Type} [DecidableEq Key]

/-- The counter equals the number of nodes in the item list. -/
def Counted (cache : LruCache Key Value) : Prop :=
  cache.curSize = cache.itemsList.nodes.length

theorem counted_iff (cache : LruCache Key Value) :
    Counted cache ↔ cache.curSize = cache.pairs.length := by
  rw [Counted, pairs_eq, List.length_map]

/-- Distinct keys: dropping a held key drops one pair. -/
theorem length_without_of_mem {held : List (Key × Value)} (distinct : (held.map Prod.fst).Nodup)
    {pair : Key × Value} (member : pair ∈ held) :
    (without pair.1 held).length + 1 = held.length :=
  (perm_cons_filter_key Prod.fst distinct member).length_eq

/-- Dropping a key that is not held changes nothing. -/
theorem without_of_absent {held : List (Key × Value)} {key : Key}
    (absent : ¬ ∃ pair ∈ held, pair.1 = key) : without key held = held := by
  refine List.filter_eq_self.mpr fun pair member => ?_
  simpa using fun same => absent ⟨pair, member, same⟩

/-- An exact counter, lowered exactly for a known key, counts the other pairs. -/
theorem counted_without {cache : LruCache Key Value} (coherent : Coherent cache)
    (counted : Counted cache) (key : Key) :
    (if cache.contain key then cache.curSize - 1 else cache.curSize) =
      (without key cache.pairs).length := by
  rw [(counted_iff cache).mp counted]
  by_cases known : ∃ pair ∈ cache.pairs, pair.1 = key
  · rw [if_pos ((coherent.contain_iff key).mpr known)]
    obtain ⟨pair, member, rfl⟩ := known
    have length := length_without_of_mem coherent.pairKeys member
    omega
  · rw [if_neg (fun contained => known ((coherent.contain_iff key).mp contained)),
      without_of_absent known]

/-- `Erase` keeps the counter exact. -/
theorem erase_counted {cache : LruCache Key Value} (coherent : Coherent cache)
    (counted : Counted cache) (key : Key) :
    ∃ next, cache.erase key = some next ∧ Coherent next ∧ Counted next ∧
      next.pairs = without key cache.pairs ∧ next.maxSize = cache.maxSize := by
  obtain ⟨next, erased, coherentNext, held, count, bound⟩ := erase_effect coherent key
  refine ⟨next, erased, coherentNext, ?_, held, bound⟩
  rw [counted_iff, count, held, counted_without coherent counted]

/-- The pairs a `Put` would hold if it evicted nothing. -/
def putPairs (key : Key) (value : Value) (held : List (Key × Value)) : List (Key × Value) :=
  (key, value) :: without key held

/-- `Put` keeps the counter exact and drops the last pair exactly when one too
many would be held. -/
theorem put_counted {cache : LruCache Key Value} (coherent : Coherent cache)
    (counted : Counted cache) (key : Key) (value : Value) :
    ∃ next, cache.put key value = some next ∧ Coherent next ∧ Counted next ∧
      next.pairs = (if (putPairs key value cache.pairs).length > cache.maxSize
        then (putPairs key value cache.pairs).dropLast else putPairs key value cache.pairs) ∧
      next.maxSize = cache.maxSize := by
  obtain ⟨replaced, isReplaced, coherentReplaced, held, count, bound⟩ :=
    put_replaces coherent key value
  have isPut := put_of_replace isReplaced
  have exact_count : replaced.curSize = (putPairs key value cache.pairs).length := by
    rw [count, counted_without coherent counted, putPairs, List.length_cons]
  obtain ⟨next, evicted, coherentNext, heldNext, countNext, boundNext⟩ :=
    evict_effect coherentReplaced (by simp [held])
  rw [exact_count, bound] at heldNext countNext
  change replaced.pairs = putPairs key value cache.pairs at held
  rw [held] at heldNext
  refine ⟨next, isPut.trans evicted, coherentNext, ?_, heldNext, boundNext.trans bound⟩
  rw [counted_iff, countNext, heldNext]
  split
  · rw [List.length_dropLast]
  · rfl

/-- Every access keeps list, map and counter in step. -/
theorem access_counted {cache : LruCache Key Value} (coherent : Coherent cache)
    (counted : Counted cache) (item : Access Key Value) :
    ∃ reply next, cache.access item = some (reply, next) ∧ Coherent next ∧ Counted next := by
  cases item with
  | put key value =>
      obtain ⟨next, ran, coherentNext, countedNext, _⟩ := put_counted coherent counted key value
      exact ⟨.done, next, by simp [access, ran], coherentNext, countedNext⟩
  | get key =>
      obtain ⟨next, ran, coherentNext, held, count, _⟩ := get_effect coherent key
      refine ⟨_, next, by simp only [access, ran, Option.map_some]; rfl, coherentNext, ?_⟩
      rw [counted_iff, count, (counted_iff cache).mp counted, held]
      cases found : cache.pairs.find? fun pair => pair.1 = key with
      | none => rfl
      | some pair =>
          have member := List.mem_of_find?_eq_some found
          have same : pair.1 = key := by simpa using List.find?_some found
          subst same
          exact (length_without_of_mem coherent.pairKeys member).symm
  | erase key =>
      obtain ⟨next, ran, coherentNext, countedNext, _⟩ := erase_counted coherent counted key
      exact ⟨.done, next, by simp [access, ran], coherentNext, countedNext⟩
  | contain key => exact ⟨_, cache, rfl, coherent, counted⟩
  | size => exact ⟨_, cache, rfl, coherent, counted⟩

/-- A call that does not throw items away without counting them: `Clear` on an
empty list, a `SetMaxSize` that clears nothing, or any access. -/
def DropsNoCount (cache : LruCache Key Value) : Call Key Value → Prop
  | .access _ => True
  | .clear => cache.itemsList.nodes = []
  | .setMaxSize maxSize => cache.maxSize < maxSize → cache.itemsList.nodes = []

/-- `Clear` leaves an exact counter only when there was nothing to clear. -/
theorem clear_counted_iff {cache : LruCache Key Value} (counted : Counted cache) :
    Counted cache.clear ↔ cache.itemsList.nodes = [] := by
  change cache.curSize = 0 ↔ _
  rw [counted, List.length_eq_zero_iff]

/-- Every call is defined on a coherent cache and keeps it coherent. -/
theorem call_progress (cache : LruCache Key Value) (item : Call Key Value)
    (coherent : Coherent cache) :
    ∃ reply next, cache.call item = some (reply, next) ∧ Coherent next := by
  cases item with
  | access item =>
      cases item with
      | put key value =>
          obtain ⟨replaced, isReplaced, coherentReplaced, held, _⟩ :=
            put_replaces coherent key value
          have isPut := put_of_replace isReplaced
          obtain ⟨next, evicted, coherentNext, _⟩ :=
            evict_effect coherentReplaced (by simp [held])
          exact ⟨.done, next, by simp [call, access, isPut, evicted], coherentNext⟩
      | get key =>
          obtain ⟨next, ran, coherentNext, _⟩ := get_effect coherent key
          exact ⟨_, next, by simp only [call, access, ran, Option.map_some]; rfl, coherentNext⟩
      | erase key =>
          obtain ⟨next, ran, coherentNext, _⟩ := erase_effect coherent key
          exact ⟨.done, next, by simp [call, access, ran], coherentNext⟩
      | contain key => exact ⟨_, cache, rfl, coherent⟩
      | size => exact ⟨_, cache, rfl, coherent⟩
  | clear => exact ⟨_, cache.clear, rfl, .ofClear cache⟩
  | setMaxSize maxSize => exact ⟨_, cache.setMaxSize maxSize, rfl, coherent.ofSetMaxSize maxSize⟩

/-- From an exact counter, exactly the calls that drop no count keep it exact. -/
theorem call_counted_iff (cache : LruCache Key Value) (item : Call Key Value)
    (reply : Reply Value) (next : LruCache Key Value) (coherent : Coherent cache)
    (counted : Counted cache) (ran : cache.call item = some (reply, next)) :
    Counted next ↔ DropsNoCount cache item := by
  cases item with
  | access item =>
      obtain ⟨_, other, accessed, _, countedNext⟩ := access_counted coherent counted item
      rw [call, accessed] at ran
      cases ran
      exact iff_of_true countedNext trivial
  | clear =>
      cases ran
      exact clear_counted_iff counted
  | setMaxSize maxSize =>
      cases ran
      simp only [DropsNoCount, setMaxSize]
      by_cases grows : cache.maxSize < maxSize
      · simp only [if_pos grows]
        exact (clear_counted_iff counted).trans (by simp [grows])
      · simp only [if_neg grows]
        exact iff_of_true counted (by simp [grows])

/-- What callers of the cache rely on in one state: the counter is exact, `Put`
loses a pair only when one too many would be held, and a pair just put into a
cache of positive maximum can be read back. -/
structure CounterExact (cache : LruCache Key Value) : Prop where
  counted : cache.curSize = cache.itemsList.nodes.length
  evictsOnlyWhenFull : ∀ key value next, cache.put key value = some next →
    ∀ pair ∈ putPairs key value cache.pairs, pair ∉ next.pairs →
      (putPairs key value cache.pairs).length > cache.maxSize
  putThenGet : 1 ≤ cache.maxSize → ∀ key value, ∃ next after,
    cache.put key value = some next ∧ next.get key = some (some value, after)

/-- A pair just put into a cache of positive maximum stays in front. -/
theorem put_then_get {cache : LruCache Key Value} (coherent : Coherent cache)
    (counted : Counted cache) (positive : 1 ≤ cache.maxSize) (key : Key) (value : Value) :
    ∃ next after, cache.put key value = some next ∧ next.get key = some (some value, after) := by
  obtain ⟨next, ran, coherentNext, _, held, _⟩ := put_counted coherent counted key value
  obtain ⟨after, got, _⟩ := get_effect coherentNext key
  refine ⟨next, after, ran, ?_⟩
  have front : ∃ rest, next.pairs = (key, value) :: rest := by
    rw [held]
    split
    · -- more than one pair is held, so the dropped last pair is not the first
      rename_i excess
      cases others : without key cache.pairs with
      | nil =>
          simp only [putPairs, others, List.length_singleton] at excess
          omega
      | cons head rest => exact ⟨_, by rw [putPairs, others, List.dropLast_cons_cons]⟩
    · exact ⟨_, rfl⟩
  obtain ⟨rest, frontEq⟩ := front
  simpa [frontEq] using got

/-- On a coherent cache the counter alone decides all three guarantees. -/
theorem counterExact_iff {cache : LruCache Key Value} (coherent : Coherent cache) :
    CounterExact cache ↔ Counted cache := by
  refine ⟨fun exact_ => exact_.counted, fun counted => ⟨counted, ?_, ?_⟩⟩
  · intro key value next ran pair member lost
    obtain ⟨other, otherRan, _, _, held, _⟩ := put_counted coherent counted key value
    rw [ran] at otherRan
    cases otherRan
    by_contra fits
    rw [if_neg fits] at held
    exact lost (held ▸ member)
  · exact fun positive => put_then_get coherent counted positive

/-- Every state a run visits is coherent. -/
theorem states_coherent (maxSize : Nat) (calls : List (Call Key Value)) :
    ∀ cache ∈ (machine Key Value).states (new maxSize) calls, Coherent cache := by
  apply Machine.states_forall
  · intro cache item reply next coherent ran
    obtain ⟨_, other, otherRan, coherentNext⟩ := call_progress cache item coherent
    rw [show cache.call item = _ from ran] at otherRan
    cases otherRan
    exact coherentNext
  · exact Coherent.ofNew maxSize

/-- A run of the cache keeps its counter exact in every state, with what follows
from it for `Put` and `Get`, exactly when no call of the run drops uncounted items. -/
theorem counter_exact_iff (maxSize : Nat) (calls : List (Call Key Value)) :
    (∀ cache ∈ (machine Key Value).states (new maxSize) calls, CounterExact cache) ↔
      ∀ step ∈ (machine Key Value).steps (new maxSize) calls, DropsNoCount step.1 step.2 := by
  have guarantees : (∀ cache ∈ (machine Key Value).states (new maxSize) calls,
      CounterExact cache) ↔
        ∀ cache ∈ (machine Key Value).states (new maxSize) calls, Counted cache :=
    forall₂_congr fun cache visited =>
      counterExact_iff (states_coherent maxSize calls cache visited)
  rw [guarantees]
  exact @Machine.states_forall_iff_total_steps _ _ (machine Key Value) Coherent Counted DropsNoCount
    call_progress call_counted_iff _ (Coherent.ofNew maxSize) rfl calls

/-- After one `Put` and a `Clear` the counter still says one, so the next `Put`
into a cache of maximum one evicts the pair it has just inserted. -/
theorem clear_keeps_stale_counter :
    (¬ ∀ cache ∈ (machine Nat Nat).states (new 1) [.access (.put 1 10), .clear],
      CounterExact cache) ∧
    ∃ final, (machine Nat Nat).run (new 1)
      [.access (.put 1 10), .clear, .access (.put 2 20), .access (.get 2)] =
        some ([.done, .done, .done, .found none], final) := by
  constructor
  · intro all
    have cleared := all _ (List.mem_cons_of_mem _ (List.mem_cons_of_mem _ List.mem_cons_self))
    exact absurd cleared.counted (by decide)
  · exact ⟨_, rfl⟩

end XProject.Base.LruCache
