import XProject.Stream.Emitted
import XProject.Stream.Reading

/-!
# What a destination holds after decoding

By induction over the type, a decoder takes exactly the bytes of a value from
its input. What it returns depends on the destination too: a string without
elements leaves its destination alone, and vectors and arrays decode into the
elements that are there. `Ty.decoded` is that result, and `Ty.Replaced` says of
a destination when the result is the value.
-/

namespace XProject.Base

open XProject.Std
open XProject.Std.Action
open Session

/-- No string in the value has bytes. -/
def Ty.Fresh : (type : Ty) → type.Val → Prop
  | .bool, _ | .integer .., _ | .varUInt, _ | .varInt, _ | .set _, _ | .map .., _ => True
  | .string, (bytes : List UInt8) => bytes = []
  | .charVector, (bytes : List UInt8) => bytes = []
  | .vector _, elements => elements = ([] : List _)
  | .array element _, (elements : List.Vector element.Val _) =>
      ∀ item ∈ elements.toList, element.Fresh item

/-- A default-constructed value is fresh. -/
theorem Ty.zero_fresh (type : Ty) : type.Fresh type.zero := by
  induction type with
  | bool | integer width signed | varUInt | varInt => trivial
  | string | charVector => rfl
  | vector element => rfl
  | set element | map key value => trivial
  | array element size ih =>
      intro item member
      have same := List.eq_of_mem_replicate member
      rw [same]
      exact ih

/-- The value of a destination after decoding the bytes of `v` into it. -/
def Ty.decoded : (type : Ty) → (dest v : type.Val) → type.Val
  | .bool, _, v | .integer .., _, v | .varUInt, _, v | .varInt, _, v | .set _, _, v
  | .map .., _, v => v
  | .string, (dest : List UInt8), (v : List UInt8) => if v = [] then dest else v
  | .charVector, (dest : List UInt8), (v : List UInt8) => if v = [] then dest else v
  | .vector element, (dest : List element.Val), (v : List element.Val) =>
      List.zipWith element.decoded (resized element.zero v.length dest) v
  | .array element _, (dest : List.Vector element.Val _), (v : List.Vector element.Val _) =>
      List.Vector.map₂ element.decoded dest v

/-- Where the value has an empty string, so has the destination, as far as the
elements it holds are decoded into. -/
def Ty.Replaced : (type : Ty) → (dest v : type.Val) → Prop
  | .bool, _, _ | .integer .., _, _ | .varUInt, _, _ | .varInt, _, _ | .set _, _, _
  | .map .., _, _ => True
  | .string, (dest : List UInt8), (v : List UInt8) => v = [] → dest = []
  | .charVector, (dest : List UInt8), (v : List UInt8) => v = [] → dest = []
  | .vector element, (dest : List element.Val), (v : List element.Val) =>
      ∀ pair ∈ dest.zip v, element.Replaced pair.1 pair.2
  | .array element _, (dest : List.Vector element.Val _), (v : List.Vector element.Val _) =>
      ∀ pair ∈ dest.toList.zip v.toList, element.Replaced pair.1 pair.2

theorem length_resized {α : Type} (fill : α) (size : Nat) (elements : List α) :
    (resized fill size elements).length = size := by
  simp only [resized, List.length_append, List.length_take, List.length_replicate]
  omega

/-- A condition that new elements meet anyway is one on the elements there before. -/
theorem forall_zip_resized_iff {α β : Type} {fill : α} {meets : α → β → Prop}
    (new : ∀ item, meets fill item) (dest : List α) (items : List β) :
    (∀ pair ∈ (resized fill items.length dest).zip items, meets pair.1 pair.2) ↔
      ∀ pair ∈ dest.zip items, meets pair.1 pair.2 := by
  induction items generalizing dest with
  | nil => simp
  | cons item items ih =>
      cases dest with
      | nil =>
          have filled : resized fill (items.length + 1) ([] : List α) =
              fill :: resized fill items.length [] := by
            simp [resized, List.replicate_succ]
          have rest := ih []
          simp only [List.length_cons, filled, List.zip_cons_cons, List.forall_mem_cons, new,
            true_and, List.zip_nil_left] at rest ⊢
          simpa using rest
      | cons first rest =>
          have kept : resized fill (items.length + 1) (first :: rest) =
              first :: resized fill items.length rest := by
            simp [resized]
          simp only [List.length_cons, kept, List.zip_cons_cons, List.forall_mem_cons, ih]

/-- Storing entry by entry gives the entries when each destination stores its own. -/
theorem zipWith_eq_right_iff {α β : Type} {store : α → β → β} {dests : List α} {entries : List β}
    (length : dests.length = entries.length) :
    List.zipWith store dests entries = entries ↔
      ∀ pair ∈ dests.zip entries, store pair.1 pair.2 = pair.2 := by
  induction entries generalizing dests with
  | nil => simp
  | cons entry entries ih =>
      cases dests with
      | nil => simp at length
      | cons dest dests =>
          have rest := ih (Nat.succ.inj length)
          simp only [List.zipWith_cons_cons, List.cons.injEq, rest, List.zip_cons_cons,
            List.forall_mem_cons]

/-- A fresh destination is replaced by every value. -/
theorem Ty.Fresh.replaced {type : Ty} {dest : type.Val} (fresh : type.Fresh dest) (v : type.Val) :
    type.Replaced dest v := by
  induction type with
  | bool | integer width signed | varUInt | varInt | set element | map key value => trivial
  | string | charVector => exact fun _ => fresh
  | vector element ih =>
      rw [show dest = ([] : List element.Val) from fresh]
      intro pair member
      exact absurd member List.not_mem_nil
  | array element size ih =>
      intro pair member
      exact ih (fresh _ (List.of_mem_zip member).1) _

theorem bytes_eq_iff (dest v : List UInt8) :
    (if v = [] then dest else v) = v ↔ (v = [] → dest = []) := by
  rcases eq_or_ne v [] with rfl | some_
  · simp
  · simp [some_]

/-- The destination holds the value afterwards exactly when it is replaced. -/
theorem Ty.decoded_eq_iff {type : Ty} (dest v : type.Val) :
    type.decoded dest v = v ↔ type.Replaced dest v := by
  induction type with
  | bool | integer width signed | varUInt | varInt | set element | map key value =>
      exact iff_of_true rfl trivial
  | string | charVector => exact bytes_eq_iff dest v
  | vector element ih =>
      have elementwise := @zipWith_eq_right_iff element.Val element.Val element.decoded
        (resized element.zero v.length dest) v (length_resized ..)
      simp only [ih] at elementwise
      exact elementwise.trans (@forall_zip_resized_iff element.Val element.Val element.zero
        element.Replaced (fun item => element.zero_fresh.replaced item) dest v)
  | array element size ih =>
      obtain ⟨dests, destsLength⟩ := dest
      obtain ⟨items, itemsLength⟩ := v
      have elementwise := @zipWith_eq_right_iff element.Val element.Val element.decoded dests items
        (destsLength.trans itemsLength.symm)
      simp only [ih] at elementwise
      exact Subtype.ext_iff.trans elementwise

variable {environment : Environment} {end_ : Address}

/-- A declaration reads nothing. -/
theorem declare_still (type : Ty) : Within Eq (declare environment type) := by
  induction type with
  | bool => exact .bind (fun _ => rfl) fun bits => .pure (bits != 0 : Bool)
  | integer width signed => exact fun _ => rfl
  | array element size ih => exact .mmap (fun _ => ih) _
  | varUInt | varInt | string | charVector => exact .pure _
  | vector element | set element | map key value => exact .pure _

/-- A declared variable is fresh. -/
theorem declare_fresh (type : Ty) : Returns type.Fresh (declare environment type) := by
  induction type with
  | bool | integer width signed | varUInt | varInt => exact fun _ => trivial
  | string | charVector => exact fun _ => rfl
  | vector element => exact fun _ => rfl
  | set element | map key value => exact fun _ => trivial
  | array element size ih => exact .mmap (fun _ => ih) _

/-- A string takes its size and its bytes; without bytes it stays as it was. -/
theorem takes_decodeBytes {v : List UInt8} (within : v.length ≤ kMaxElementNum)
    (dest : List UInt8) :
    Takes (Ahead environment end_) (decodeBytes environment dest)
      (Base128.unsigned v.length ++ v) (if v = [] then dest else v) := by
  have small : v.length < 2 ^ 32 := lt_of_le_of_lt within (by decide)
  refine takes_withCount small (decide_eq_true within) ?_
  by_cases empty : v = []
  · rw [if_pos empty, if_neg (by simp [empty]), empty]
    exact .pure dest
  · have positive : v.length > 0 := List.length_pos_iff.mpr empty
    have length : v.length = (UInt64.ofNat v.length).toNat := by
      rw [UInt64.toNat_ofNat']
      omega
    rw [if_pos positive, if_neg empty]
    refine (takes_read ?_).finish rfl
    rw [length_resized]
    exact length

theorem takes_decodeBool (d : Bool) :
    Takes (Ahead environment end_) (decodeBool environment) (emitted .bool d) d := by
  have taken : Takes (Ahead environment end_) _ _ _ :=
    takes_decodeInteger .one (if d then 1 else 0) 0
  refine taken.finish (congrArg pure ?_)
  cases d <;> rfl

/-- Emplacing the entries of an ordered container one by one rebuilds it. -/
theorem takes_emplaced {α κ : Type} [LinearOrder κ] {key : α → κ} (container : Ascending key)
    {step : Ascending key → Decoder (Ascending key)} {spell : α → List UInt8}
    (each : ∀ entry ∈ container.toList, ∀ sofar,
      Takes (Ahead environment end_) (step sofar) (spell entry) (sofar.emplace entry)) :
    Takes (Ahead environment end_) (iterate step container.toList.length Ascending.empty)
      (container.toList.flatMap spell) container := by
  have whole := Takes.iterate each Ascending.empty
  rwa [Ascending.rebuild] at whole

/-- One pass of the loop of a set, whose variable is fresh. -/
theorem takes_setElement {element : Ty} {item : element.Val}
    (taken : ∀ into, Takes (Ahead environment end_) (decode environment element into)
      (emitted element item) (element.decoded into item))
    (s : Ascending (id : element.Val → element.Val)) :
    Takes (Ahead environment end_) (do
        let v ← declare environment element
        let v ← decode environment element v
        pure (s.emplace v))
      (emitted element item) (s.emplace item) := by
  refine .after (declare_still element) (declare_fresh element) fun into fresh => ?_
  have taken := taken into
  rw [(Ty.decoded_eq_iff into item).mpr (fresh.replaced item)] at taken
  exact taken.finish rfl

/-- One pass of the loop of a map, whose variables are fresh. -/
theorem takes_mapEntry {key value : Ty} {entry : key.Val ×ₗ value.Val}
    (takenKey : ∀ into, Takes (Ahead environment end_) (decode environment key into)
      (emitted key (ofLex entry).1) (key.decoded into (ofLex entry).1))
    (takenValue : ∀ into, Takes (Ahead environment end_) (decode environment value into)
      (emitted value (ofLex entry).2) (value.decoded into (ofLex entry).2))
    (m : Ascending (entryKey : key.Val ×ₗ value.Val → key.Val)) :
    Takes (Ahead environment end_) (do
        let k ← declare environment key
        let v ← declare environment value
        let k ← decode environment key k
        let v ← decode environment value v
        pure (m.emplace (toLex (k, v))))
      (emitted key (ofLex entry).1 ++ emitted value (ofLex entry).2) (m.emplace entry) := by
  refine .after (declare_still key) (declare_fresh key) fun intoKey freshKey => ?_
  refine .after (declare_still value) (declare_fresh value) fun intoValue freshValue => ?_
  have takenKey := takenKey intoKey
  have takenValue := takenValue intoValue
  rw [(Ty.decoded_eq_iff intoKey _).mpr (freshKey.replaced _)] at takenKey
  rw [(Ty.decoded_eq_iff intoValue _).mpr (freshValue.replaced _)] at takenValue
  exact takenKey.bind (takenValue.finish rfl)

/-- An array's own size is an accepted count. -/
theorem sizeMatches_self {size : Nat} (within : size ≤ decoderLimits.array) :
    (size == size && decide (size < kMaxElementNum)) = true := by
  have bound : size ≤ kMaxElementNum - 1 := within
  have positive : 0 < kMaxElementNum := by decide
  simp only [beq_self_eq_true, Bool.true_and, decide_eq_true_eq]
  omega

/-- Decoding takes exactly the bytes of a value, whatever the destination holds. -/
theorem takes_decoded {type : Ty} (plain : type.withoutVarInt = true) {v : type.Val}
    (within : type.Within decoderLimits v) (dest : type.Val) :
    Takes (Ahead environment end_) (decode environment type dest) (emitted type v)
      (type.decoded dest v) := by
  have small : decoderLimits.container < 2 ^ 32 := by decide
  have smallArray : decoderLimits.array < 2 ^ 32 := by decide
  induction type with
  | bool => exact takes_decodeBool v
  | integer width signed => exact takes_decodeInteger width v dest
  | varUInt =>
      have written : emitted .varUInt v = Base128.unsigned (BitVec.toNat v) :=
        encodeVarUInt_list v []
      rw [written]
      exact takes_varUInt v dest
  | varInt => exact Bool.noConfusion plain
  | string =>
      rw [emitted_string small within]
      exact takes_decodeBytes within dest
  | charVector =>
      rw [emitted_charVector small within]
      exact takes_decodeBytes within dest
  | vector element ih =>
      rw [emitted_vector small within]
      refine takes_withCount (lt_of_le_of_lt within.1 small) (decide_eq_true within.1) ?_
      exact .mapM (fun item member into _ => ih plain (within.2 item member) into)
        (length_resized ..)
  | set element ih =>
      rw [emitted_set small within]
      refine takes_withCount (lt_of_le_of_lt within.1 small) (decide_eq_true within.1) ?_
      exact takes_emplaced v fun item member sofar =>
        takes_setElement (fun into => ih plain (within.2 item member) into) sofar
  | map key value keyIh valueIh =>
      obtain ⟨plainKey, plainValue⟩ := Bool.and_eq_true_iff.mp plain
      rw [emitted_map small within]
      refine takes_withCount (lt_of_le_of_lt within.1 small) (decide_eq_true within.1) ?_
      refine takes_emplaced v fun entry member sofar => ?_
      obtain ⟨keyWithin, valueWithin⟩ := within.2 entry member
      exact takes_mapEntry (fun into => keyIh plainKey keyWithin into)
        (fun into => valueIh plainValue valueWithin into) sofar
  | array element size ih =>
      rw [emitted_array smallArray within]
      refine takes_withCount (lt_of_le_of_lt within.1 smallArray) (sizeMatches_self within.1) ?_
      exact .mmap fun item member into _ => ih plain (within.2 item member) into

end XProject.Base
