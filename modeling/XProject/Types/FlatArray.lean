import XProject.Std.Heap
import XProject.Std.Machine

/-!
# `FlatArray`

The array of trivial objects over `malloc`, `calloc` and `realloc`. `sizeof(T)`
is the parameter `width`, and an element is its bytes. The byte counts are
computed in `size_t`, while a place in the block is an address, so an index that
leaves the block has no result. The answer of the allocator and the bytes that
are never initialized are arguments of the function that meets them.
-/

namespace XProject.Base

open XProject.Std

/-- The bytes of a trivial object. -/
abbrev Element (width : UInt64) := List.Vector UInt8 width.toNat

/-- `contents_`, `size_` and `end_`, the dummy that an index outside refers to. -/
structure FlatArray (width : UInt64) where
  contents : Pointer
  size : UInt64
  end_ : Element width

namespace FlatArray

variable {width : UInt64}

/-- The constructor that leaves its elements as the allocator found them. -/
def new (size : UInt64) (answer : Heap.Answer) (end_ : Element width) (heap : Heap) :
    FlatArray width × Heap :=
  let (contents, heap) := heap.malloc (size * width) answer
  (⟨contents, if contents.isNone then 0 else size, end_⟩, heap)

/-- The constructor that sets every byte to `ch`. -/
def fill (size : UInt64) (ch : Int32) (answer : Heap.Answer) (end_ : Element width)
    (heap : Heap) : Option (FlatArray width × Heap) := do
  let (contents, heap) := heap.calloc size width answer
  let heap ← match contents with
    | some block => if ch ≠ 0 then heap.memset block 0 ch (size * width) else some heap
    | none => some heap
  some (⟨contents, if contents.isNone then 0 else size, end_⟩, heap)

/-- The copy constructor, which does not copy the dummy. -/
def copy (rhs : FlatArray width) (answer : Heap.Answer) (end_ : Element width) (heap : Heap) :
    Option (FlatArray width × Heap) := do
  let (contents, heap) := heap.malloc (rhs.size * width) answer
  let size := if contents.isNone then 0 else rhs.size
  let heap ← match contents, rhs.contents with
    | some target, some source => heap.memcpy target source (size * width)
    | _, _ => some heap
  some (⟨contents, size, end_⟩, heap)

/-- Free the block, when there is one. -/
def clear (array : FlatArray width) (heap : Heap) : Option (FlatArray width × Heap) :=
  match array.contents with
  | some block => do
      let heap ← heap.free block
      some ({ array with contents := none, size := 0 }, heap)
  | none => some (array, heap)

/-- `operator=`; `same` tells whether both sides are one object. -/
def assign (array rhs : FlatArray width) (same : Bool) (answer : Heap.Answer) (heap : Heap) :
    Option (FlatArray width × Heap) :=
  if same then some (array, heap)
  else do
    let (array, heap) ← array.clear heap
    let (contents, heap) := heap.malloc (rhs.size * width) answer
    let size := if contents.isNone then 0 else rhs.size
    let heap ← match contents, rhs.contents with
      | some target, some source => heap.memcpy target source (size * width)
      | _, _ => some heap
    some ({ array with contents, size }, heap)

def resize (array : FlatArray width) (size : UInt64) (answer : Heap.Answer) (heap : Heap) :
    Option (FlatArray width × Heap) :=
  if size = 0 then array.clear heap
  else do
    let (newContents, heap) ← heap.realloc array.contents (size * width) answer
    match newContents with
    | none => some (array, heap)
    | some block =>
        let heap ←
          if array.size < size then
            heap.memset block (array.size.toNat * width.toNat) 0 ((size - array.size) * width)
          else some heap
        some ({ array with contents := some block, size }, heap)

/-- What a returned reference refers to. -/
inductive Place where
  | slot (index : Nat)
  | end_

/-- The shared body of `operator[]` and `at`. -/
def locate (array : FlatArray width) (index : UInt64) : Place :=
  if index < array.size then .slot index.toNat else .end_

def subscript (array : FlatArray width) (index : UInt64) : Place := array.locate index

def at_ (array : FlatArray width) (index : UInt64) : Place := array.locate index

/-- Read through a reference. -/
def read (array : FlatArray width) (heap : Heap) : Place → Option (Element width)
  | .slot index => do
      let block ← array.contents
      heap.load block (index * width.toNat) width.toNat
  | .end_ => some array.end_

/-- Assign through a reference. -/
def write (array : FlatArray width) (heap : Heap) (element : Element width) :
    Place → Option (FlatArray width × Heap)
  | .slot index => do
      let block ← array.contents
      let heap ← heap.store block (index * width.toNat) element.val
      some (array, heap)
  | .end_ => some ({ array with end_ := element }, heap)

def empty (array : FlatArray width) : Bool := array.size == 0

/-! ## Programs over named arrays -/

/-- The two ways to refer to an element. -/
inductive Accessor where
  | subscript
  | at_

def refer (array : FlatArray width) (index : UInt64) : Accessor → Place
  | .subscript => array.subscript index
  | .at_ => array.at_ index

/-- One statement about named arrays, with what the allocator answers to it and the
uninitialized bytes of a new dummy. -/
inductive Operation (Name : Type) (width : UInt64) where
  | new (name : Name) (size : UInt64) (answer : Heap.Answer) (end_ : Element width)
  | fill (name : Name) (size : UInt64) (ch : Int32) (answer : Heap.Answer) (end_ : Element width)
  | copy (name source : Name) (answer : Heap.Answer) (end_ : Element width)
  | assign (name source : Name) (answer : Heap.Answer)
  | resize (name : Name) (size : UInt64) (answer : Heap.Answer)
  | clear (name : Name)
  | destroy (name : Name)
  | read (name : Name) (accessor : Accessor) (index : UInt64)
  | write (name : Name) (accessor : Accessor) (index : UInt64) (element : Element width)
  | size (name : Name)
  | empty (name : Name)

/-- What a statement yields; a statement about an object that does not exist, or the
construction of one that does, is no statement and is skipped. -/
inductive Reply (width : UInt64) where
  | done
  | skipped
  | element (element : Element width)
  | size (size : UInt64)
  | empty (empty : Bool)

/-- The heap and the arrays that exist. -/
structure World (Name : Type) (width : UInt64) where
  heap : Heap
  arrays : Name → Option (FlatArray width)

namespace World

variable {Name : Type} [DecidableEq Name]

def initial : World Name width := ⟨⟨[]⟩, fun _ => none⟩

/-- Put the result of a function in the place of its object. -/
def settle (world : World Name width) (name : Name) (result : Option (FlatArray width × Heap)) :
    Option (Reply width × World Name width) :=
  result.map fun (array, heap) =>
    (.done, ⟨heap, Function.update world.arrays name (some array)⟩)

def execute (world : World Name width) :
    Operation Name width → Option (Reply width × World Name width)
  | .new name size answer end_ =>
      match world.arrays name with
      | none => world.settle name (some (new size answer end_ world.heap))
      | some _ => some (.skipped, world)
  | .fill name size ch answer end_ =>
      match world.arrays name with
      | none => world.settle name (fill size ch answer end_ world.heap)
      | some _ => some (.skipped, world)
  | .copy name source answer end_ =>
      match world.arrays name, world.arrays source with
      | none, some rhs => world.settle name (copy rhs answer end_ world.heap)
      | _, _ => some (.skipped, world)
  | .assign name source answer =>
      match world.arrays name, world.arrays source with
      | some array, some rhs =>
          world.settle name (array.assign rhs (name = source) answer world.heap)
      | _, _ => some (.skipped, world)
  | .resize name size answer =>
      match world.arrays name with
      | some array => world.settle name (array.resize size answer world.heap)
      | none => some (.skipped, world)
  | .clear name =>
      match world.arrays name with
      | some array => world.settle name (array.clear world.heap)
      | none => some (.skipped, world)
  | .destroy name =>
      match world.arrays name with
      | some array => (array.clear world.heap).map fun (_, heap) =>
          (.done, ⟨heap, Function.update world.arrays name none⟩)
      | none => some (.skipped, world)
  | .read name accessor index =>
      match world.arrays name with
      | some array =>
          (array.read world.heap (array.refer index accessor)).map fun element =>
            (.element element, world)
      | none => some (.skipped, world)
  | .write name accessor index element =>
      match world.arrays name with
      | some array => world.settle name (array.write world.heap element (array.refer index accessor))
      | none => some (.skipped, world)
  | .size name =>
      match world.arrays name with
      | some array => some (.size array.size, world)
      | none => some (.skipped, world)
  | .empty name =>
      match world.arrays name with
      | some array => some (.empty array.empty, world)
      | none => some (.skipped, world)

end World

/-- Programs over named arrays; a step without a result is undefined behavior. -/
def machine (Name : Type) [DecidableEq Name] (width : UInt64) :
    Machine (Operation Name width) (Reply width) where
  State := World Name width
  step world operation := world.execute operation

end FlatArray
end XProject.Base
