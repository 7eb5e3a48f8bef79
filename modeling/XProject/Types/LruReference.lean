import XProject.Types.LruCounter

/-!
# The reference LRU cache and its refinement

`Reference` says what an LRU cache is for: a bounded list of pairs with
distinct keys, most recently used first. `simulation` relates the list, map and
counter of the source to it, so every access sequence on a new cache answers
exactly as the reference does, for every maximum including zero.
-/

namespace XProject.Base

open XProject.Std

/-- At most `maxSize` pairs with distinct keys, most recently used first. -/
structure Reference (Key Value : Type) [DecidableEq Key] where
  maxSize : Nat
  held : List (Key × Value)
  keysDistinct : (held.map Prod.fst).Nodup
  bounded : held.length ≤ maxSize

namespace Reference

variable {Key Value : Type} [DecidableEq Key]

open LruCache (without putPairs)

def new (maxSize : Nat) : Reference Key Value := ⟨maxSize, [], by simp, by simp⟩

theorem without_keysDistinct {held : List (Key × Value)} (distinct : (held.map Prod.fst).Nodup)
    (key : Key) : ((without key held).map Prod.fst).Nodup :=
  distinct.sublist (List.filter_sublist.map _)

/-- A pair whose key was removed can be put in front. -/
theorem putPairs_keysDistinct {held : List (Key × Value)}
    (distinct : (held.map Prod.fst).Nodup) (key : Key) (value : Value) :
    ((putPairs key value held).map Prod.fst).Nodup := by
  rw [putPairs, List.map_cons, List.nodup_cons]
  refine ⟨?_, without_keysDistinct distinct key⟩
  simp [without]

/-- Put the pair in front and truncate to the maximum. -/
def put (key : Key) (value : Value) (reference : Reference Key Value) : Reference Key Value where
  maxSize := reference.maxSize
  held := (putPairs key value reference.held).take reference.maxSize
  keysDistinct := (putPairs_keysDistinct reference.keysDistinct key value).sublist
    ((List.take_sublist _ _).map _)
  bounded := List.length_take_le _ _

/-- Drop the pair of the key. -/
def erase (key : Key) (reference : Reference Key Value) : Reference Key Value where
  maxSize := reference.maxSize
  held := without key reference.held
  keysDistinct := without_keysDistinct reference.keysDistinct key
  bounded := Nat.le_trans (List.length_filter_le _ _) reference.bounded

/-- Return the value of the key and bring its pair to the front. -/
def get (key : Key) (reference : Reference Key Value) : Option Value × Reference Key Value :=
  match found : reference.held.find? fun pair => pair.1 = key with
  | none => (none, reference)
  | some pair => (some pair.2, {
      maxSize := reference.maxSize
      held := pair :: without key reference.held
      keysDistinct := by
        have same : pair.1 = key := by simpa using List.find?_some found
        simpa [putPairs, ← same] using putPairs_keysDistinct reference.keysDistinct key pair.2
      bounded := by
        have same : pair.1 = key := by simpa using List.find?_some found
        subst same
        have length := LruCache.length_without_of_mem reference.keysDistinct
          (List.mem_of_find?_eq_some found)
        have bounded := reference.bounded
        simp only [List.length_cons]
        omega })

/-- One access to the reference. -/
def access (reference : Reference Key Value) :
    LruCache.Access Key Value → LruCache.Reply Value × Reference Key Value
  | .put key value => (.done, reference.put key value)
  | .get key => (.found (reference.get key).1, (reference.get key).2)
  | .erase key => (.done, reference.erase key)
  | .contain key => (.contained (reference.held.any fun pair => pair.1 = key), reference)
  | .size => (.counted reference.held.length, reference)

def machine (Key Value : Type) [DecidableEq Key] :
    Machine (LruCache.Access Key Value) (LruCache.Reply Value) where
  State := Reference Key Value
  step reference item := some (reference.access item)

/-- The pairs and the answer of `get`, without the proofs it carries. -/
theorem get_eq (key : Key) (reference : Reference Key Value) :
    (reference.get key).1 = (reference.held.find? fun pair => pair.1 = key).map Prod.snd ∧
      (reference.get key).2.held = (match reference.held.find? fun pair => pair.1 = key with
        | none => reference.held
        | some pair => pair :: without key reference.held) ∧
      (reference.get key).2.maxSize = reference.maxSize := by
  unfold get
  split <;> rename_i found <;> simp [found]

/-- A cache represents the reference that holds the same pairs under the same maximum. -/
structure Represents (cache : LruCache Key Value) (reference : Reference Key Value) : Prop where
  coherent : cache.Coherent
  counted : cache.Counted
  held : cache.pairs = reference.held
  maxSize : cache.maxSize = reference.maxSize

/-- A list one too long is truncated by dropping its last element. -/
theorem take_eq_dropLast_or {α : Type} {bound : Nat} {list : List α}
    (almost : list.length ≤ bound + 1) :
    list.take bound = if list.length > bound then list.dropLast else list := by
  split
  · rename_i excess
    rw [List.dropLast_eq_take, show list.length - 1 = bound by omega]
  · rename_i fits
    exact List.take_of_length_le (by omega)

/-- `Put` of the cache puts and truncates as the reference does. -/
theorem Represents.put {cache : LruCache Key Value} {reference : Reference Key Value}
    (represents : Represents cache reference) (key : Key) (value : Value) :
    ∃ next, cache.put key value = some next ∧ Represents next (reference.put key value) := by
  obtain ⟨next, ran, coherent, counted, held, bound⟩ :=
    LruCache.put_counted represents.coherent represents.counted key value
  refine ⟨next, ran, coherent, counted, ?_, bound.trans represents.maxSize⟩
  have almost : (putPairs key value reference.held).length ≤ reference.maxSize + 1 := by
    have shorter : (without key reference.held).length ≤ reference.held.length :=
      List.length_filter_le _ _
    have bounded := reference.bounded
    simp only [putPairs, List.length_cons]
    omega
  rw [held, represents.held, represents.maxSize]
  exact (take_eq_dropLast_or almost).symm

/-- Lockstep between the cache of the source and the reference. -/
def simulation : Machine.Simulation (LruCache.accessMachine Key Value) (machine Key Value) where
  Related := Represents
  step := by
    intro cache reference item represents
    obtain ⟨coherent, counted, held, maxSize⟩ := represents
    cases item with
    | put key value =>
        obtain ⟨next, ran, nextRepresents⟩ :=
          Represents.put ⟨coherent, counted, held, maxSize⟩ key value
        exact ⟨.done, next, _, by simp [LruCache.accessMachine, LruCache.access, ran], rfl,
          nextRepresents⟩
    | get key =>
        obtain ⟨next, ran, coherentNext, heldNext, _, boundNext⟩ :=
          LruCache.get_effect coherent key
        obtain ⟨reply, other, accessed, _, countedNext⟩ :=
          LruCache.access_counted coherent counted (.get key)
        have same : other = next ∧ reply = .found (reference.get key).1 := by
          simp only [LruCache.access, ran, Option.map_some, Option.some.injEq,
            Prod.mk.injEq] at accessed
          rw [(reference.get_eq key).1, ← held]
          exact ⟨accessed.2.symm, accessed.1.symm⟩
        obtain ⟨rfl, rfl⟩ := same
        refine ⟨_, other, _, accessed, rfl, coherentNext, countedNext, ?_, ?_⟩
        · rw [heldNext, held]
          exact (reference.get_eq key).2.1.symm
        · exact (boundNext.trans maxSize).trans (reference.get_eq key).2.2.symm
    | erase key =>
        obtain ⟨next, ran, coherentNext, countedNext, heldNext, boundNext⟩ :=
          LruCache.erase_counted coherent counted key
        exact ⟨.done, next, _, by simp [LruCache.accessMachine, LruCache.access, ran], rfl,
          coherentNext, countedNext, by rw [heldNext, held]; rfl, boundNext.trans maxSize⟩
    | contain key =>
        refine ⟨_, cache, reference, rfl, ?_, coherent, counted, held, maxSize⟩
        have known : cache.contain key = reference.held.any fun pair => pair.1 = key := by
          rw [Bool.eq_iff_iff, coherent.contain_iff, held]
          simp
        simp only [machine, access, known]
    | size =>
        refine ⟨_, cache, reference, rfl, ?_, coherent, counted, held, maxSize⟩
        simp only [machine, access, coherent.size_eq, held]

/-- Every access sequence on a newly constructed cache is defined and answers
exactly as on the empty reference of the same maximum. -/
theorem access_refines (maxSize : Nat) (items : List (LruCache.Access Key Value)) :
    ∃ replies cache reference,
      (LruCache.accessMachine Key Value).run (LruCache.new maxSize) items =
        some (replies, cache) ∧
      (machine Key Value).run (new maxSize) items = some (replies, reference) ∧
      cache.pairs = reference.held := by
  have related : Represents (LruCache.new maxSize) (new maxSize : Reference Key Value) :=
    ⟨.ofNew maxSize, rfl, rfl, rfl⟩
  obtain ⟨replies, cache, reference, cacheRun, referenceRun, represents⟩ :=
    simulation.run_eq related items
  exact ⟨replies, cache, reference, cacheRun, referenceRun, represents.held⟩

end Reference
end XProject.Base
