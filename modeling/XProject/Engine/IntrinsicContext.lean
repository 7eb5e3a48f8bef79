import XProject.Plugin.RegisterInstrinsics
import XProject.Threads.SpinLock

/-!
# `IntrinsicContext::GetInstance`

One static pointer holds the context of the version asked for last. Threads get it and
replace it under a spin lock, in steps that other threads may come between. A pointer is
the position of its context among all that were constructed; a static variable and a
dereference without one have no defined result. Logging is left out.
-/

namespace XProject.Engine

open XProject.Std XProject.Base XProject.Plugin

/-- The version of an `IntrinsicContext` and what was appended to its host module. -/
structure IntrinsicContext where
  version : UInt32
  appended : List Export
deriving DecidableEq

/-- `IntrinsicContext(version)`. -/
def IntrinsicContext.new (version : UInt32) : IntrinsicContext where
  version := version
  appended := registerInstrinsics version.toInt32

/-- `host_module_`, on an engine's host modules. -/
def IntrinsicContext.hostModule (host : HostModule) (context : IntrinsicContext) : host.State :=
  host.appendAll context.appended host.new

/-- The contexts constructed so far and `intrinsic_context_`, which is absent before its
initializer has run. -/
structure Contexts where
  made : List IntrinsicContext
  current : Option Nat
deriving DecidableEq

namespace Contexts

/-- No call has been made. -/
def new : Contexts := ⟨[], none⟩

/-- `intrinsic_context_` becomes a pointer to a new context. -/
def replace (version : UInt32) (contexts : Contexts) : Contexts where
  made := contexts.made ++ [.new version]
  current := some contexts.made.length

/-- The initializer of `intrinsic_context_`, which runs once. -/
def init (version : UInt32) (contexts : Contexts) : Contexts :=
  if contexts.current.isNone then contexts.replace version else contexts

/-- `intrinsic_context_->Version()`. -/
def currentVersion (contexts : Contexts) : Option UInt32 := do
  let pointer ← contexts.current
  let context ← contexts.made[pointer]?
  pure context.version

/-- `GetInstance` behind the initializer. -/
def compare (version : UInt32) (contexts : Contexts) : Option (Option Nat × Contexts) := do
  let existing ← contexts.currentVersion
  let contexts := if existing ≠ version then contexts.replace version else contexts
  pure (contexts.current, contexts)

/-- `GetInstance`, by a thread alone. -/
def getInstance (version : UInt32) (contexts : Contexts) : Option (Option Nat × Contexts) :=
  (contexts.init version).compare version

end Contexts

/-- `s_intrinsic_context_locker` and what it guards. -/
structure Globals where
  locker : SpinLock
  contexts : Contexts

/-- Where a thread is in `GetInstance(version)`, and outside of it the last pointer it got. -/
inductive Caller where
  | idle
  | locking (version : UInt32)
  | entered (version : UInt32)
  | comparing (version : UInt32)
  | replacing (version : UInt32)
  | returning (version : UInt32)
  | unlocking (version : UInt32) (result : Option Nat)
  | returned (version : UInt32) (result : Option Nat)
deriving DecidableEq

/-- A thread calls `GetInstance` or goes on in it. -/
inductive Act where
  | call (version : UInt32)
  | proceed

/-- One step of a thread. The copy of the pointer shows the version asked for and the
pointer; every other step shows nothing. -/
def step : Act → Globals → Caller → Option (Option (UInt32 × Option Nat) × Globals × Caller)
  | .call version, globals, .idle => some (none, globals, .locking version)
  | .call version, globals, .returned _ _ => some (none, globals, .locking version)
  | .proceed, globals, .locking version =>
      let (was, locker) := globals.locker.testAndSet
      some (none, { globals with locker := locker },
        if was then .locking version else .entered version)
  | .proceed, globals, .entered version =>
      some (none, { globals with contexts := globals.contexts.init version }, .comparing version)
  | .proceed, globals, .comparing version => do
      let existing ← globals.contexts.currentVersion
      some (none, globals, if existing ≠ version then .replacing version else .returning version)
  | .proceed, globals, .replacing version =>
      some (none, { globals with contexts := globals.contexts.replace version },
        .returning version)
  | .proceed, globals, .returning version =>
      some (some (version, globals.contexts.current), globals,
        .unlocking version globals.contexts.current)
  | .proceed, globals, .unlocking version result =>
      some (none, { globals with locker := globals.locker.unlock }, .returned version result)
  | _, _, _ => none

/-- Threads that call `GetInstance`. -/
@[reducible] def callers : Program Act (Option (UInt32 × Option Nat)) where
  Shared := Globals
  Local := Caller
  step := step

/-- No thread has called yet. -/
def start (Thread : Type) : callers.Config Thread where
  shared := ⟨.new, .new⟩
  locals _ := .idle

/-! ## What it is for -/

/-- The version asked for last with its pointer, and the number of contexts made. -/
structure Latest where
  last : Option (UInt32 × Nat)
  made : Nat

namespace Latest

def new : Latest := ⟨none, 0⟩

/-- The same pointer for the version asked for last, and a new one for any other. -/
def get (version : UInt32) (latest : Latest) : Nat × Latest :=
  match latest.last with
  | some (other, pointer) =>
      if other = version then (pointer, latest)
      else (latest.made, ⟨some (version, latest.made), latest.made + 1⟩)
  | none => (latest.made, ⟨some (version, latest.made), latest.made + 1⟩)

/-- One request after another. -/
@[reducible] def machine : Machine UInt32 (Option Nat) where
  State := Latest
  step latest version := some (some (latest.get version).1, (latest.get version).2)

theorem get_same {version : UInt32} {latest : Latest} {pointer : Nat}
    (last : latest.last = some (version, pointer)) : latest.get version = (pointer, latest) := by
  simp only [get, last, if_true]

theorem get_other {version : UInt32} {latest : Latest}
    (last : ∀ pointer, latest.last ≠ some (version, pointer)) :
    latest.get version = (latest.made, ⟨some (version, latest.made), latest.made + 1⟩) := by
  cases before : latest.last with
  | none => simp only [get, before]
  | some pair =>
      have different : pair.1 ≠ version := by
        rintro rfl
        exact last pair.2 before
      simp only [get, before, if_neg different]

/-- Afterwards the version is the one asked for last. -/
theorem get_last (version : UInt32) (latest : Latest) :
    (latest.get version).2.last = some (version, (latest.get version).1) := by
  by_cases same : ∃ pointer, latest.last = some (version, pointer)
  · obtain ⟨pointer, last⟩ := same
    rw [get_same last, last]
  · rw [get_other (not_exists.mp same)]

end Latest

/-- The contexts are as the requests so far leave them. -/
structure Matches (contexts : Contexts) (latest : Latest) : Prop where
  made : contexts.made.length = latest.made
  current : contexts.current = latest.last.map Prod.snd
  version : ∀ version pointer, latest.last = some (version, pointer) →
    contexts.made[pointer]? = some (.new version)

theorem replace_matches {contexts : Contexts} {made : Nat} (count : contexts.made.length = made)
    (version : UInt32) :
    Matches (contexts.replace version) ⟨some (version, made), made + 1⟩ where
  made := by rw [Contexts.replace, List.length_append, count, List.length_singleton]
  current := congrArg some count
  version := by
    rintro _ _ ⟨⟩
    rw [Contexts.replace, ← count]
    exact List.getElem?_concat_length

theorem currentVersion_eq {contexts : Contexts} {version : UInt32} {pointer : Nat}
    (current : contexts.current = some pointer)
    (context : contexts.made[pointer]? = some (.new version)) :
    contexts.currentVersion = some version := by
  simp only [Contexts.currentVersion, current, context, Option.bind_eq_bind, Option.bind_some]
  rfl

theorem compare_same {contexts : Contexts} {version : UInt32}
    (here : contexts.currentVersion = some version) :
    contexts.compare version = some (contexts.current, contexts) := by
  simp [Contexts.compare, here]

theorem compare_other {contexts : Contexts} {version other : UInt32}
    (here : contexts.currentVersion = some other) (different : other ≠ version) :
    contexts.compare version =
      some ((contexts.replace version).current, contexts.replace version) := by
  simp [Contexts.compare, here, different]

/-- Alone, `GetInstance` does what it is for. -/
theorem Matches.getInstance {contexts : Contexts} {latest : Latest}
    (matches_ : Matches contexts latest) (version : UInt32) :
    ∃ next, contexts.getInstance version = some (some (latest.get version).1, next) ∧
      Matches next (latest.get version).2 := by
  have fresh := replace_matches matches_.made version
  have there := currentVersion_eq fresh.current (fresh.version _ _ rfl)
  unfold Contexts.getInstance Contexts.init
  cases last : latest.last with
  | none =>
      have absent : contexts.current.isNone = true := by rw [matches_.current, last]; rfl
      have other : ∀ pointer, latest.last ≠ some (version, pointer) := by
        rw [last]
        nofun
      rw [if_pos absent, compare_same there, fresh.current, Latest.get_other other]
      exact ⟨_, rfl, fresh⟩
  | some pair =>
      obtain ⟨before, pointer⟩ := pair
      have current : contexts.current = some pointer := by rw [matches_.current, last]; rfl
      have here := currentVersion_eq current (matches_.version _ _ last)
      rw [if_neg (by rw [current]; exact Bool.false_ne_true)]
      by_cases same : before = version
      · subst same
        rw [compare_same here, current, Latest.get_same last]
        exact ⟨contexts, rfl, matches_⟩
      · have other : ∀ pointer, latest.last ≠ some (version, pointer) := by
          intro _ bad
          rw [last] at bad
          cases bad
          exact same rfl
        rw [compare_other here same, fresh.current, Latest.get_other other]
        exact ⟨_, rfl, fresh⟩

end XProject.Engine
