import Mathlib.Data.List.AList
import XProject.Std.Machine
import XProject.Std.NodeList

/-!
# The LRU cache of `types/lru-cache.h`

The cache keeps its items in a linked list, most recently used first, an
unordered map from keys to list iterators, and a hand-maintained item counter.
Each operation below edits the three in the order the source does. A step that
dereferences or erases through an iterator whose node is gone has no result.

Sizes are natural numbers: a cache never holds `2 ^ 64` nodes, and the counter
is never decremented below the number of nodes it counts.
-/

namespace XProject.Base

open XProject.Std

/-- The fields of `LRUCache<KEY, VALUE>`. -/
structure LruCache (Key Value : Type) [DecidableEq Key] where
  maxSize : Nat
  curSize : Nat
  itemsList : NodeList (Key × Value)
  itemsIndexingMap : AList fun _ : Key => NodeId

namespace LruCache

variable {Key Value : Type} [DecidableEq Key]

/-- `LRUCache(max_size)`. -/
def new (maxSize : Nat) : LruCache Key Value := ⟨maxSize, 0, .empty, ∅⟩

/-- `Erase`. The same block stands inside `Put`. -/
def erase (key : Key) (cache : LruCache Key Value) : Option (LruCache Key Value) :=
  match cache.itemsIndexingMap.lookup key with
  | none => some cache
  | some it =>
      match cache.itemsList.erase it with
      | none => none
      | some itemsList => some { cache with
          curSize := cache.curSize - 1
          itemsList := itemsList
          itemsIndexingMap := cache.itemsIndexingMap.erase key }

/-- The eviction branch of `Put`: it drops the last item once the counter is
past the maximum, and has no result when there is no item to step back to. -/
def evict (cache : LruCache Key Value) : Option (LruCache Key Value) :=
  if cache.curSize > cache.maxSize then
    match cache.itemsList.back? with
    | none => none
    | some last => some { cache with
        curSize := cache.curSize - 1
        itemsIndexingMap := cache.itemsIndexingMap.erase last.1
        itemsList := cache.itemsList.popBack }
  else some cache

/-- `Put`: insert in front, drop the old item of the key, index the new one,
count it, and evict. -/
def put (key : Key) (value : Value) (cache : LruCache Key Value) :
    Option (LruCache Key Value) :=
  match erase key { cache with itemsList := cache.itemsList.emplaceFront (key, value) } with
  | none => none
  | some cache =>
      match cache.itemsList.begin? with
      | none => none
      | some front => evict { cache with
          itemsIndexingMap := cache.itemsIndexingMap.insert key front
          curSize := cache.curSize + 1 }

/-- `Get`: the returned value, absent when the call returns false. -/
def get (key : Key) (cache : LruCache Key Value) :
    Option (Option Value × LruCache Key Value) :=
  match cache.itemsIndexingMap.lookup key with
  | none => some (none, cache)
  | some it =>
      -- splice(begin(), list, it) only runs for an item that is not in front
      let spliced := if some it ≠ cache.itemsList.begin? then cache.itemsList.spliceFront it
        else some cache.itemsList
      match spliced with
      | none => none
      | some itemsList =>
          match itemsList.deref it with
          | none => none
          | some item => some (some item.2, { cache with itemsList := itemsList })

/-- `Contain`. -/
def contain (key : Key) (cache : LruCache Key Value) : Bool :=
  (cache.itemsIndexingMap.lookup key).isSome

/-- `Size`: the size of the map, not the counter. -/
def size (cache : LruCache Key Value) : Nat := cache.itemsIndexingMap.keys.length

/-- `Clear`: both containers, and nothing else. -/
def clear (cache : LruCache Key Value) : LruCache Key Value :=
  { cache with itemsList := cache.itemsList.clear, itemsIndexingMap := ∅ }

/-- `SetMaxSize`: clears the cache when the maximum grows. -/
def setMaxSize (maxSize : Nat) (cache : LruCache Key Value) : LruCache Key Value :=
  { (if cache.maxSize < maxSize then cache.clear else cache) with maxSize := maxSize }

/-- The member functions that read or write one item. -/
inductive Access (Key Value : Type) where
  | put (key : Key) (value : Value)
  | get (key : Key)
  | erase (key : Key)
  | contain (key : Key)
  | size

/-- Every member function a caller can use. -/
inductive Call (Key Value : Type) where
  | access (access : Access Key Value)
  | clear
  | setMaxSize (maxSize : Nat)

/-- What a call returns to its caller. -/
inductive Reply (Value : Type) where
  | done
  | found (value : Option Value)
  | contained (present : Bool)
  | counted (count : Nat)
deriving DecidableEq

/-- One access to one cache. -/
def access (cache : LruCache Key Value) :
    Access Key Value → Option (Reply Value × LruCache Key Value)
  | .put key value => (cache.put key value).map fun next => (.done, next)
  | .get key => (cache.get key).map fun result => (.found result.1, result.2)
  | .erase key => (cache.erase key).map fun next => (.done, next)
  | .contain key => some (.contained (cache.contain key), cache)
  | .size => some (.counted cache.size, cache)

/-- One call on one cache; `SetMaxSize` returns the new maximum. -/
def call (cache : LruCache Key Value) :
    Call Key Value → Option (Reply Value × LruCache Key Value)
  | .access item => cache.access item
  | .clear => some (.done, cache.clear)
  | .setMaxSize maxSize => some (.counted maxSize, cache.setMaxSize maxSize)

/-- The cache as a machine that answers every call. -/
def machine (Key Value : Type) [DecidableEq Key] : Machine (Call Key Value) (Reply Value) where
  State := LruCache Key Value
  step := call

/-- The cache as a machine that answers item accesses only. -/
def accessMachine (Key Value : Type) [DecidableEq Key] :
    Machine (Access Key Value) (Reply Value) where
  State := LruCache Key Value
  step := access

end LruCache
end XProject.Base
