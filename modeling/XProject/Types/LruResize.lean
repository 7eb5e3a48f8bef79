import XProject.Types.LruCounter

/-!
# Changing the maximum of the LRU cache

`SetMaxSize` clears the cache when the maximum grows and keeps everything when it
shrinks, while `Put` evicts one pair at most. So a growing maximum loses pairs that
fit, and a shrinking one leaves more pairs than `Put` can bring back under it. The
counter may run ahead of the pairs held, after a clearing, but never behind them.
-/

namespace XProject.Base.LruCache

open XProject.Std

variable {Key Value : Type} [DecidableEq Key]

/-- The counter is not behind the number of listed items. -/
structure NotBehind (cache : LruCache Key Value) : Prop where
  coherent : Coherent cache
  counted : cache.size ≤ cache.curSize

/-- Dropping a key drops one pair exactly when the key is known. -/
theorem length_without {cache : LruCache Key Value} (coherent : Coherent cache) (key : Key) :
    (without key cache.pairs).length + (if cache.contain key then 1 else 0) = cache.size := by
  rw [coherent.size_eq]
  by_cases known : ∃ pair ∈ cache.pairs, pair.1 = key
  · rw [if_pos ((coherent.contain_iff key).mpr known)]
    obtain ⟨pair, member, rfl⟩ := known
    exact length_without_of_mem coherent.pairKeys member
  · rw [if_neg fun contained => known ((coherent.contain_iff key).mp contained),
      without_of_absent known]
    rfl

/-- The counter of `Put` when it comes to its eviction branch. -/
def putCounter (key : Key) (cache : LruCache Key Value) : Nat :=
  (if cache.contain key then cache.curSize - 1 else cache.curSize) + 1

/-- What `Put` does to the number of pairs and to the counter: both count the new
key, and both drop by one when the counter is past the maximum. -/
theorem put_counts {cache : LruCache Key Value} (coherent : Coherent cache) (key : Key)
    (value : Value) :
    ∃ next, cache.put key value = some next ∧ Coherent next ∧
      next.size = (without key cache.pairs).length + 1 -
        (if putCounter key cache > cache.maxSize then 1 else 0) ∧
      next.curSize = putCounter key cache -
        (if putCounter key cache > cache.maxSize then 1 else 0) := by
  obtain ⟨replaced, isReplaced, coherentReplaced, held, count, bound⟩ :=
    put_replaces coherent key value
  obtain ⟨next, evicted, coherentNext, heldNext, countNext, _⟩ :=
    evict_effect coherentReplaced (by simp [held])
  change replaced.curSize = putCounter key cache at count
  rw [count, bound, held] at heldNext
  rw [count, bound] at countNext
  refine ⟨next, (put_of_replace isReplaced).trans evicted, coherentNext, ?_, ?_⟩
  · rw [coherentNext.size_eq, heldNext]
    split
    · rw [List.length_dropLast, List.length_cons]
    · rw [List.length_cons, Nat.sub_zero]
  · rw [countNext]
    split <;> rfl

namespace NotBehind

variable {cache : LruCache Key Value}

theorem ofNew (maxSize : Nat) : NotBehind (LruCache.new maxSize : LruCache Key Value) :=
  ⟨.ofNew maxSize, Nat.le_refl 0⟩

theorem ofClear (cache : LruCache Key Value) : NotBehind cache.clear :=
  ⟨.ofClear cache, Nat.zero_le _⟩

theorem ofSetMaxSize (held : NotBehind cache) (maxSize : Nat) :
    NotBehind (cache.setMaxSize maxSize) := by
  unfold setMaxSize
  split
  · exact ⟨(ofClear cache).coherent, (ofClear cache).counted⟩
  · exact ⟨held.coherent, held.counted⟩

/-- A key that is put is counted, if it was not. -/
theorem put (held : NotBehind cache) (key : Key) (value : Value) :
    ∃ next, cache.put key value = some next ∧ NotBehind next := by
  have counted := held.counted
  obtain ⟨next, ran, coherentNext, size, count⟩ := put_counts held.coherent key value
  refine ⟨next, ran, coherentNext, ?_⟩
  have covers : (without key cache.pairs).length + 1 ≤ putCounter key cache := by
    have known := length_without held.coherent key
    unfold putCounter
    cases found : cache.contain key with
    | true =>
        simp only [found, if_true] at known ⊢
        omega
    | false =>
        simp only [found, Bool.false_eq_true, if_false] at known ⊢
        omega
  rw [size, count]
  exact Nat.sub_le_sub_right covers _

/-- A key that is got is at most moved. -/
theorem get (held : NotBehind cache) (key : Key) :
    ∃ found next, cache.get key = some (found, next) ∧ NotBehind next := by
  have counted := held.counted
  obtain ⟨next, ran, coherentNext, pairs, count, _⟩ := get_effect held.coherent key
  refine ⟨_, next, ran, coherentNext, ?_⟩
  rw [count, coherentNext.size_eq, pairs]
  cases found : cache.pairs.find? fun pair => pair.1 = key with
  | none => exact held.coherent.size_eq ▸ counted
  | some pair =>
      have member := List.mem_of_find?_eq_some found
      have same : pair.1 = key := by simpa using List.find?_some found
      subst same
      have length := length_without_of_mem held.coherent.pairKeys member
      rw [held.coherent.size_eq] at counted
      exact Nat.le_trans (Nat.le_of_eq length) counted

/-- A key that is erased is no longer counted, if it was. -/
theorem erase (held : NotBehind cache) (key : Key) :
    ∃ next, cache.erase key = some next ∧ NotBehind next := by
  have counted := held.counted
  obtain ⟨next, ran, coherentNext, pairs, count, _⟩ := erase_effect held.coherent key
  refine ⟨next, ran, coherentNext, ?_⟩
  have known := length_without held.coherent key
  rw [coherentNext.size_eq, pairs, count]
  cases found : cache.contain key with
  | true =>
      simp only [found, if_true] at known ⊢
      omega
  | false =>
      simp only [found, Bool.false_eq_true, if_false] at known ⊢
      omega

/-- No access lets the counter fall behind. -/
theorem access (held : NotBehind cache) (item : Access Key Value) :
    ∃ reply next, cache.access item = some (reply, next) ∧ NotBehind next := by
  cases item with
  | put key value =>
      obtain ⟨next, ran, heldNext⟩ := held.put key value
      exact ⟨.done, next, by simp [LruCache.access, ran], heldNext⟩
  | get key =>
      obtain ⟨found, next, ran, heldNext⟩ := held.get key
      exact ⟨.found found, next, by simp [LruCache.access, ran], heldNext⟩
  | erase key =>
      obtain ⟨next, ran, heldNext⟩ := held.erase key
      exact ⟨.done, next, by simp [LruCache.access, ran], heldNext⟩
  | contain key => exact ⟨_, cache, rfl, held⟩
  | size => exact ⟨_, cache, rfl, held⟩

end NotBehind

/-- No state a run visits has a counter behind the pairs held. -/
theorem states_notBehind (maxSize : Nat) (calls : List (Call Key Value)) :
    ∀ cache ∈ (machine Key Value).states (new maxSize) calls, NotBehind cache := by
  apply Machine.states_forall
  · intro cache item reply next held ran
    cases item with
    | access item =>
        obtain ⟨_, other, accessed, heldNext⟩ := held.access item
        rw [show cache.access item = _ from ran] at accessed
        cases accessed
        exact heldNext
    | clear =>
        cases ran
        exact .ofClear cache
    | setMaxSize maxSize =>
        cases ran
        exact held.ofSetMaxSize maxSize
  · exact .ofNew maxSize

/-- What a caller expects of a new maximum, and of the first `Put` under it. -/
structure KeepsWhatFits (cache : LruCache Key Value) (maxSize : Nat) (key : Key)
    (value : Value) : Prop where
  keeps : cache.size ≤ maxSize → (cache.setMaxSize maxSize).pairs = cache.pairs
  bounded : ∃ next, (cache.setMaxSize maxSize).put key value = some next ∧ next.size ≤ maxSize

/-- A larger maximum finds the cache empty or too full to fit even so; another one
leaves at most one pair too many, the new key counted. -/
def ResizesWell (cache : LruCache Key Value) (maxSize : Nat) (key : Key) : Prop :=
  if cache.maxSize < maxSize then cache.size = 0 ∨ maxSize < cache.size
  else cache.size + (if cache.contain key then 0 else 1) ≤ maxSize + 1

/-- A larger maximum clears. -/
theorem pairs_setMaxSize_of_grows {cache : LruCache Key Value} {maxSize : Nat}
    (grows : cache.maxSize < maxSize) :
    Coherent (cache.setMaxSize maxSize) ∧ (cache.setMaxSize maxSize).pairs = [] := by
  simp only [setMaxSize, if_pos grows]
  exact ⟨.ofClear cache, rfl⟩

/-- Another maximum touches nothing else. -/
theorem setMaxSize_of_not_grows {cache : LruCache Key Value} {maxSize : Nat}
    (stays : ¬ cache.maxSize < maxSize) :
    cache.setMaxSize maxSize = { cache with maxSize := maxSize } := by
  rw [setMaxSize, if_neg stays]

/-- After a clearing, one `Put` leaves at most one pair, and none where the counter
that was not cleared is past the maximum. -/
theorem put_of_cleared {cache : LruCache Key Value} {maxSize : Nat}
    (grows : cache.maxSize < maxSize) (key : Key) (value : Value) :
    ∃ next, (cache.setMaxSize maxSize).put key value = some next ∧ next.size ≤ maxSize := by
  obtain ⟨coherent, cleared⟩ := pairs_setMaxSize_of_grows grows
  obtain ⟨next, ran, _, size, _⟩ := put_counts coherent key value
  refine ⟨next, ran, ?_⟩
  rw [size, cleared]
  simp only [without, List.filter_nil, List.length_nil]
  omega

/-- A maximum that does not grow keeps every pair, and one `Put` brings the number of
pairs under it exactly when at most one was too many. -/
theorem put_of_kept {cache : LruCache Key Value} (held : NotBehind cache) {maxSize : Nat}
    (stays : ¬ cache.maxSize < maxSize) (key : Key) (value : Value) :
    (∃ next, (cache.setMaxSize maxSize).put key value = some next ∧ next.size ≤ maxSize) ↔
      cache.size + (if cache.contain key then 0 else 1) ≤ maxSize + 1 := by
  have coherent : Coherent { cache with maxSize := maxSize } := held.coherent
  have counted := held.counted
  have known := length_without held.coherent key
  obtain ⟨next, ran, _, size, _⟩ := put_counts coherent key value
  change next.size = (without key cache.pairs).length + 1 -
    (if putCounter key cache > maxSize then 1 else 0) at size
  have iff : next.size ≤ maxSize ↔
      cache.size + (if cache.contain key then 0 else 1) ≤ maxSize + 1 := by
    rw [size]
    unfold putCounter
    cases found : cache.contain key with
    | true =>
        simp only [found, if_true] at known ⊢
        split <;> omega
    | false =>
        simp only [found, Bool.false_eq_true, if_false] at known ⊢
        split <;> omega
  rw [setMaxSize_of_not_grows stays, ← iff]
  constructor
  · rintro ⟨other, otherRan, small⟩
    cases ran.symm.trans otherRan
    exact small
  · exact fun small => ⟨next, ran, small⟩

/-- A cache whose counter is not behind keeps what fits exactly when it resizes well. -/
theorem NotBehind.keepsWhatFits_iff {cache : LruCache Key Value} (held : NotBehind cache)
    (maxSize : Nat) (key : Key) (value : Value) :
    KeepsWhatFits cache maxSize key value ↔ ResizesWell cache maxSize key := by
  unfold ResizesWell
  have size := held.coherent.size_eq
  by_cases grows : cache.maxSize < maxSize
  · rw [if_pos grows]
    obtain ⟨_, cleared⟩ := pairs_setMaxSize_of_grows grows
    constructor
    · intro resized
      by_cases fits : cache.size ≤ maxSize
      · left
        rw [size, ← resized.keeps fits, cleared]
        rfl
      · exact .inr (Nat.lt_of_not_le fits)
    · intro well
      refine ⟨fun fits => ?_, put_of_cleared grows key value⟩
      have empty : cache.size = 0 := by omega
      rw [size, List.length_eq_zero_iff] at empty
      rw [cleared, empty]
  · rw [if_neg grows]
    constructor
    · intro resized
      exact (put_of_kept held grows key value).mp resized.bounded
    · intro well
      refine ⟨fun _ => ?_, (put_of_kept held grows key value).mpr well⟩
      rw [setMaxSize_of_not_grows grows]
      rfl

/-- In every state of every run, a new maximum keeps what fits and bounds what is held
after the next `Put` exactly when it resizes well. -/
theorem resize_exact (initial : Nat) (calls : List (Call Key Value)) :
    ∀ cache ∈ (machine Key Value).states (new initial) calls,
      ∀ (maxSize : Nat) (key : Key) (value : Value),
        KeepsWhatFits cache maxSize key value ↔ ResizesWell cache maxSize key := by
  intro cache visited maxSize key value
  exact (states_notBehind initial calls cache visited).keepsWhatFits_iff maxSize key value

/-- Keeping the maximum of a cache of one pair. -/
theorem resize_exact_one :
    ∃ cache ∈ (machine Nat Nat).states (new 1) [.access (.put 1 10)],
      KeepsWhatFits cache 1 2 20 ↔ ResizesWell cache 1 2 := by
  refine ⟨_, List.mem_cons_of_mem _ List.mem_cons_self, ?_⟩
  exact resize_exact 1 [.access (.put 1 10)] _ (List.mem_cons_of_mem _ List.mem_cons_self) 1 2 20

/-- Raising the maximum of a cache of one pair loses the pair; lowering that of a
cache of three pairs to one leaves three after a `Put`. -/
theorem resize_loses_and_overfills :
    (∃ cache ∈ (machine Nat Nat).states (new 1) [.access (.put 1 10)],
      cache.size ≤ 2 ∧ (cache.setMaxSize 2).pairs ≠ cache.pairs) ∧
    ∃ cache ∈ (machine Nat Nat).states (new 3)
        [.access (.put 1 10), .access (.put 2 20), .access (.put 3 30)],
      ∃ next, (cache.setMaxSize 1).put 4 40 = some next ∧ ¬ next.size ≤ 1 := by
  constructor
  · exact ⟨_, List.mem_cons_of_mem _ List.mem_cons_self, by decide, by decide⟩
  · exact ⟨_, List.mem_cons_of_mem _ (List.mem_cons_of_mem _
      (List.mem_cons_of_mem _ List.mem_cons_self)), _, rfl, by decide⟩

end XProject.Base.LruCache
