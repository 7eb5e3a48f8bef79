import Mathlib.Data.List.Infix
import Mathlib.Data.UInt

/-!
# What `LibcModule::RegisterInstrinsics` exports

The host module `env` gets four globals, a table and the functions of the C library. The
string and number functions, and `memchr`, belong to the API level `V01070`. The host
module itself belongs to the engine: here are the calls made on it, and what they come to
on one that finds what was appended to it under a new name.
-/

namespace XProject.Plugin

/-- `XVersion`. -/
inductive XVersion where
  | V01040
  | V01050
  | V01060
  | V01070
  | V01080
  | V01090
  | V01100
deriving DecidableEq

/-- An enumerator as the `int` it is compared as. -/
def XVersion.toInt32 : XVersion → Int32
  | .V01040 => 0
  | .V01050 => 1
  | .V01060 => 2
  | .V01070 => 3
  | .V01080 => 4
  | .V01090 => 5
  | .V01100 => 6

/-- The types of a signature. -/
inductive CType where
  | void
  | int32
  | uint32
  | int64
  | uint64
deriving DecidableEq

/-- `FUNC_NAME##_SIG`: the type without the thread. -/
structure Signature where
  result : CType
  arguments : List CType
deriving DecidableEq

/-- An export appended to the host module `env`. -/
inductive Export where
  /-- `AppendGlobalExport`. -/
  | global (globalName : String) (mutable : Bool) (value : Int32)
  /-- `AppendTableExport`, without a maximum where this is `kInvalidOffset`. -/
  | table (tableName : String) (initial : UInt64) (max : Option UInt64)
  /-- `AppendFuncExport`, with the name of the function behind it. -/
  | function (funcName : String) (signature : Signature) (callback : String)
deriving DecidableEq

def Export.name : Export → String
  | .global name _ _ | .table name _ _ | .function name _ _ => name

/-- `kInvalidOffset`. -/
def kInvalidOffset : UInt64 := ~~~0

/-- `register_intrinsic_table`. -/
def registerIntrinsicTable (tableName : String) (initial max : UInt64) : Export :=
  .table tableName initial (if max = kInvalidOffset then none else some max)

/-- Globals, table and the functions of every API level. -/
def baseExports : List Export := [
  .global "memoryBase" false 1024,
  .global "tableBase" false 0,
  .global "STACKTOP" false 0,
  .global "STACK_MAX" false 0,
  registerIntrinsicTable "table" 0 0,
  .function "abortStackOverflow" ⟨.void, [.int32]⟩ "abortStackOverflow",
  .function "print" ⟨.int32, [.uint32, .uint32]⟩ "my_printf",
  .function "memcpy" ⟨.uint32, [.uint32, .uint32, .uint32]⟩ "my_memcpy",
  .function "wmemcpy" ⟨.uint32, [.uint32, .uint32, .uint32]⟩ "my_wmemcpy",
  .function "memset" ⟨.uint32, [.uint32, .int32, .uint32]⟩ "my_memset",
  .function "wmemset" ⟨.uint32, [.uint32, .uint32, .uint32]⟩ "my_wmemset",
  .function "memcmp" ⟨.int32, [.uint32, .uint32, .uint32]⟩ "my_memcmp",
  .function "wmemcmp" ⟨.int32, [.uint32, .uint32, .uint32]⟩ "my_wmemcmp",
  .function "memmove" ⟨.uint32, [.uint32, .uint32, .uint32]⟩ "my_memmove",
  .function "wmemmove" ⟨.uint32, [.uint32, .uint32, .uint32]⟩ "my_wmemmove"]

/-- The functions between `X_API_LEVEL_BEGIN(V01070)` and its end. -/
def levelExports : List Export := [
  .function "memchr" ⟨.uint32, [.uint32, .int32, .uint32]⟩ "my_memchr",
  .function "strlen" ⟨.uint32, [.uint32]⟩ "my_strlen",
  .function "__strchrnul" ⟨.uint32, [.uint32, .int32]⟩ "my_strchrnul",
  .function "strcmp" ⟨.int32, [.uint32, .uint32]⟩ "my_strcmp",
  .function "strncmp" ⟨.int32, [.uint32, .uint32, .uint32]⟩ "my_strncmp",
  .function "strcpy" ⟨.uint32, [.uint32, .uint32]⟩ "my_strcpy",
  .function "strncpy" ⟨.uint32, [.uint32, .uint32, .uint32]⟩ "my_strncpy",
  .function "strncat" ⟨.uint32, [.uint32, .uint32, .uint32]⟩ "my_strncat",
  .function "wmemchr" ⟨.uint32, [.uint32, .uint32, .uint32]⟩ "my_wmemchr",
  .function "wcslen" ⟨.uint32, [.uint32]⟩ "my_wcslen",
  .function "wcschr" ⟨.uint32, [.uint32, .uint32]⟩ "my_wcschr",
  .function "wcscmp" ⟨.int32, [.uint32, .uint32]⟩ "my_wcscmp",
  .function "wcsncmp" ⟨.int32, [.uint32, .uint32, .uint32]⟩ "my_wcsncmp",
  .function "wcscpy" ⟨.uint32, [.uint32, .uint32]⟩ "my_wcscpy",
  .function "wcsncpy" ⟨.uint32, [.uint32, .uint32, .uint32]⟩ "my_wcsncpy",
  .function "wcsncat" ⟨.uint32, [.uint32, .uint32, .uint32]⟩ "my_wcsncat",
  .function "strtol" ⟨.int32, [.uint32, .uint32, .uint32]⟩ "my_strtol",
  .function "strtoul" ⟨.uint32, [.uint32, .uint32, .uint32]⟩ "my_strtoul",
  .function "strtoll" ⟨.int64, [.uint32, .uint32, .uint32]⟩ "my_strtoll",
  .function "strtoull" ⟨.uint64, [.uint32, .uint32, .uint32]⟩ "my_strtoull"]

/-- `LibcModule::RegisterInstrinsics`, on a context: what it appends, in order. -/
def registerInstrinsics (version : Int32) : List Export :=
  baseExports ++ if version ≥ XVersion.V01070.toInt32 then levelExports else []

/-- `HostModule`, whose code is not part of this repository: a fresh one, the three kinds of
appends, and what an import finds under its name. -/
structure HostModule where
  State : Type
  new : State
  append : Export → State → State
  find : String → State → Option Export

namespace HostModule

/-- What is appended under a name that is not taken is found under it, and the other exports
stay. What an append does under a name that is taken is left open. -/
structure Keeps (host : HostModule) : Prop where
  new : ∀ name, host.find name host.new = none
  append : ∀ item state, host.find item.name state = none → ∀ name,
    host.find name (host.append item state) =
      if name = item.name then some item else host.find name state

/-- One append after the other. -/
def appendAll (host : HostModule) (items : List Export) (state : host.State) : host.State :=
  items.foldl (fun state item => host.append item state) state

/-- Exports with different names, none of them taken, are all found, and no others than
before. By induction on the exports. -/
theorem find_appendAll {host : HostModule} (keeps : host.Keeps) {items : List Export}
    (apart : (items.map Export.name).Nodup) {state : host.State}
    (free : ∀ item ∈ items, host.find item.name state = none) {name : String} {found : Export} :
    host.find name (host.appendAll items state) = some found ↔
      (found ∈ items ∧ found.name = name) ∨ host.find name state = some found := by
  induction items generalizing state with
  | nil =>
      refine (or_iff_right ?_).symm
      exact fun both => List.not_mem_nil both.1
  | cons item items ih =>
      rw [List.map_cons, List.nodup_cons] at apart
      obtain ⟨here, later⟩ := List.forall_mem_cons.mp free
      have appended := keeps.append item state here
      have stillFree : ∀ other ∈ items, host.find other.name (host.append item state) = none := by
        intro other member
        have different : other.name ≠ item.name := by
          intro same
          exact apart.1 (same ▸ List.mem_map_of_mem member)
        rw [appended, if_neg different]
        exact later other member
      change host.find name (host.appendAll items (host.append item state)) = some found ↔ _
      rw [ih apart.2 stillFree, appended, List.mem_cons]
      by_cases same : name = item.name
      · subst same
        rw [if_pos rfl, here]
        simp only [Option.some.injEq, reduceCtorEq, or_false]
        constructor
        · rintro (⟨member, named⟩ | rfl)
          · exact ⟨.inr member, named⟩
          · exact ⟨.inl rfl, rfl⟩
        · rintro ⟨rfl | member, named⟩
          · exact .inr rfl
          · exact .inl ⟨member, named⟩
      · rw [if_neg same]
        refine or_congr_left (and_congr_left fun named => (or_iff_right ?_).symm)
        rintro rfl
        exact same named.symm

end HostModule

/-- The names of all exports are different. -/
theorem names_nodup : ((baseExports ++ levelExports).map Export.name).Nodup := by
  decide

/-- What any version exports starts what `V01070` exports. -/
theorem registerInstrinsics_starts (version : Int32) :
    registerInstrinsics version <+: baseExports ++ levelExports := by
  unfold registerInstrinsics
  split
  · exact List.prefix_rfl
  · rw [List.append_nil]
    exact List.prefix_append _ _

/-- The functions of the API level are there exactly from `V01070` on. -/
theorem mem_registerInstrinsics_iff {version : Int32} {item : Export} :
    item ∈ registerInstrinsics version ↔
      item ∈ baseExports ∨ item ∈ levelExports ∧ version ≥ XVersion.V01070.toInt32 := by
  unfold registerInstrinsics
  rw [List.mem_append]
  split
  · rename_i reached
    rw [and_iff_left reached]
  · rename_i below
    exact or_congr_right (iff_of_false List.not_mem_nil fun both => below both.2)

end XProject.Plugin
