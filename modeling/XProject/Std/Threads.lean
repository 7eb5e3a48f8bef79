import Mathlib.Data.List.ReduceOption
import Mathlib.Logic.Function.Basic
import XProject.Std.Machine

/-!
# Threads over one shared state

A program says what one thread does next, given the shared state and its own.
`interleaving` runs any number of threads by a schedule, one step at a time. A
schedule that asks a thread for a step it cannot take there has no run, so what
is shown of all runs holds for every interleaving. `Lock` is the discipline under
which a flag excludes, and `Resource` what a lock that excludes protects.
-/

namespace XProject.Std

universe u v w x

/-- What a thread does: an action of a thread has a result or cannot be taken. -/
structure Program (Action : Type u) (Output : Type v) where
  Shared : Type w
  Local : Type w
  step : Action → Shared → Local → Option (Output × Shared × Local)

namespace Program

variable {Action : Type u} {Output : Type v} (program : Program.{u, v, w} Action Output)

/-- The shared state with the state of every thread. -/
structure Config (Thread : Type x) where
  shared : program.Shared
  locals : Thread → program.Local

variable {program} {Thread : Type x} [DecidableEq Thread]

/-- One thread has moved to `own`, and left the shared state as `shared`. -/
def Config.move (config : program.Config Thread) (thread : Thread) (shared : program.Shared)
    (own : program.Local) : program.Config Thread where
  shared := shared
  locals := Function.update config.locals thread own

@[simp] theorem Config.move_shared (config : program.Config Thread) (thread : Thread)
    (shared : program.Shared) (own : program.Local) :
    (config.move thread shared own).shared = shared := rfl

@[simp] theorem Config.move_self (config : program.Config Thread) (thread : Thread)
    (shared : program.Shared) (own : program.Local) :
    (config.move thread shared own).locals thread = own := Function.update_self ..

theorem Config.move_other (config : program.Config Thread) {thread other : Thread}
    (shared : program.Shared) (own : program.Local) (different : other ≠ thread) :
    (config.move thread shared own).locals other = config.locals other :=
  Function.update_of_ne different ..

variable (program) in
/-- All threads, taking their turns as the input says. -/
@[reducible] def interleaving (Thread : Type x) [DecidableEq Thread] :
    Machine (Thread × Action) Output where
  State := program.Config Thread
  step config turn :=
    (program.step turn.2 config.shared (config.locals turn.1)).map
      fun (output, shared, own) => (output, config.move turn.1 shared own)

/-- A step of the threads is a step of one of them. -/
theorem interleaving_step_eq_some {config next : program.Config Thread} {turn : Thread × Action}
    {output : Output} :
    (program.interleaving Thread).step config turn = some (output, next) ↔
      ∃ shared own, program.step turn.2 config.shared (config.locals turn.1) =
          some (output, shared, own) ∧ next = config.move turn.1 shared own := by
  simp only [interleaving, Option.map_eq_some_iff, Prod.exists, Prod.mk.injEq]
  constructor
  · rintro ⟨_, shared, own, taken, rfl, rfl⟩
    exact ⟨shared, own, taken, rfl⟩
  · rintro ⟨shared, own, taken, rfl⟩
    exact ⟨output, shared, own, taken, rfl, rfl⟩

/-! ## Locks -/

/-- What a step may do to a lock: take it while it is free, give it back, or leave it. -/
inductive LockStep (lockedBefore holdsBefore lockedAfter holdsAfter : Prop) : Prop where
  | takes (free : ¬lockedBefore) (locked : lockedAfter) (holds : holdsAfter)
  | gives (holds : holdsBefore) (free : ¬lockedAfter) (without : ¬holdsAfter)
  | keeps (locked : lockedAfter ↔ lockedBefore) (holds : holdsAfter ↔ holdsBefore)

variable (program) in
/-- A lock of a program: what its flag says, which threads hold it, and that every
step respects it. -/
structure Lock where
  Locked : program.Shared → Prop
  Holds : program.Local → Prop
  disciplined : ∀ {action shared own output shared' own'},
    program.step action shared own = some (output, shared', own') →
      LockStep (Locked shared) (Holds own) (Locked shared') (Holds own')

namespace Lock

variable {lock : program.Lock}

/-- The flag is set exactly while a thread holds the lock, and no two threads do. -/
structure Exclusive (lock : program.Lock) (config : program.Config Thread) : Prop where
  locked_iff : lock.Locked config.shared ↔ ∃ thread, lock.Holds (config.locals thread)
  unique : ∀ first second, lock.Holds (config.locals first) →
    lock.Holds (config.locals second) → first = second

/-- One step of any thread keeps the lock exclusive. -/
theorem Exclusive.move {config : program.Config Thread} (exclusive : lock.Exclusive config)
    {action : Action} {thread : Thread} {output : Output} {shared : program.Shared}
    {own : program.Local}
    (moved : program.step action config.shared (config.locals thread) =
      some (output, shared, own)) : lock.Exclusive (config.move thread shared own) := by
  cases lock.disciplined moved with
  | takes free locked holds =>
      have only : ∀ other, lock.Holds ((config.move thread shared own).locals other) →
          other = thread := by
        intro other holdsThere
        by_contra different
        rw [config.move_other shared own different] at holdsThere
        exact free (exclusive.locked_iff.mpr ⟨other, holdsThere⟩)
      refine ⟨iff_of_true locked ⟨thread, by rwa [Config.move_self]⟩, fun first second one two => ?_⟩
      rw [only first one, only second two]
  | gives holds free without =>
      have nobody : ∀ other, ¬lock.Holds ((config.move thread shared own).locals other) := by
        intro other holdsThere
        by_cases same : other = thread
        · rw [same, Config.move_self] at holdsThere
          exact without holdsThere
        · rw [config.move_other shared own same] at holdsThere
          exact same (exclusive.unique other thread holdsThere holds)
      exact ⟨iff_of_false free fun ⟨other, there⟩ => nobody other there,
        fun first _ there => absurd there (nobody first)⟩
  | keeps locked holds =>
      have same : ∀ other, lock.Holds ((config.move thread shared own).locals other) ↔
          lock.Holds (config.locals other) := by
        intro other
        by_cases here : other = thread
        · rw [here, Config.move_self]
          exact holds
        · rw [config.move_other shared own here]
      refine ⟨?_, fun first second one two =>
        exclusive.unique first second ((same first).mp one) ((same second).mp two)⟩
      rw [Config.move_shared, locked, exclusive.locked_iff]
      exact exists_congr fun other => (same other).symm

/-- In no interleaving do two threads hold the lock at once. -/
theorem exclusive_of_states {start : program.Config Thread} (initial : lock.Exclusive start)
    (schedule : List (Thread × Action)) :
    ∀ config ∈ (program.interleaving Thread).states start schedule, lock.Exclusive config := by
  refine Machine.states_forall (fun config turn output next exclusive taken => ?_) initial schedule
  obtain ⟨shared, own, moved, rfl⟩ := interleaving_step_eq_some.mp taken
  exact exclusive.move moved

end Lock

/-! ## What a lock protects -/

/-- What is said of a resource behind a lock: `Free` while the lock is free, and `Own` of
each thread at any time. -/
structure Resource (lock : program.Lock) where
  Free : program.Shared → Prop
  Own : program.Shared → program.Local → Prop

namespace Resource

variable {lock : program.Lock}

/-- The steps that show certain outputs pass from one assertion to another. The thread that
steps establishes its own part; a thread that does not hold the lock together with it keeps
its part. -/
structure Passes (before after : Resource lock) (Shown : Output → Prop) : Prop where
  moves : ∀ {action shared own output shared' own'},
    program.step action shared own = some (output, shared', own') → Shown output →
      (lock.Holds own → lock.Locked shared) → before.Own shared own →
      (¬lock.Locked shared → before.Free shared) →
      after.Own shared' own' ∧ (¬lock.Locked shared' → after.Free shared')
  frame : ∀ {action shared own output shared' own' other},
    program.step action shared own = some (output, shared', own') → Shown output →
      before.Own shared own → before.Own shared other →
      (lock.Holds other → ¬lock.Holds own ∧ ¬lock.Holds own') → after.Own shared' other

/-- The lock excludes, and what is said of the resource holds. -/
structure Kept (resource : Resource lock) (config : program.Config Thread) : Prop where
  exclusive : lock.Exclusive config
  free : ¬lock.Locked config.shared → resource.Free config.shared
  own : ∀ thread, resource.Own config.shared (config.locals thread)

theorem Kept.move {before after : Resource lock} {Shown : Output → Prop}
    (passes : before.Passes after Shown) {config : program.Config Thread}
    (kept : before.Kept config) {action : Action} {thread : Thread} {output : Output}
    {shared : program.Shared} {own : program.Local}
    (moved : program.step action config.shared (config.locals thread) =
      some (output, shared, own)) (shown : Shown output) :
    after.Kept (config.move thread shared own) := by
  have exclusive := kept.exclusive.move moved
  have locked : lock.Holds (config.locals thread) → lock.Locked config.shared :=
    fun holds => kept.exclusive.locked_iff.mpr ⟨thread, holds⟩
  obtain ⟨mine, free⟩ := passes.moves moved shown locked (kept.own thread) kept.free
  refine ⟨exclusive, free, fun other => ?_⟩
  by_cases same : other = thread
  · rw [same, Config.move_self]
    exact mine
  · rw [config.move_other shared own same]
    refine passes.frame moved shown (kept.own thread) (kept.own other) fun holds => ⟨?_, ?_⟩
    · exact fun too => same (kept.exclusive.unique other thread holds too)
    · intro too
      have there : lock.Holds ((config.move thread shared own).locals other) := by
        rwa [config.move_other shared own same]
      have here : lock.Holds ((config.move thread shared own).locals thread) := by
        rwa [Config.move_self]
      exact same (exclusive.unique other thread there here)

end Resource
end Program

/-! ## Silent steps -/

namespace Machine

variable {Input : Type u} {Request Answer : Type v}

/-- The requests a run answers, in the order of the answers. -/
def requests (outputs : List (Option (Request × Answer))) : List Request :=
  outputs.reduceOption.map Prod.fst

/-- The answers of a run. -/
def answers (outputs : List (Option (Request × Answer))) : List Answer :=
  outputs.reduceOption.map Prod.snd

/-- A simulation in which the concrete machine may take silent steps: a step that shows a
request with its answer is a step of the abstract machine, and no other step is one. -/
structure SilentSimulation (concrete : Machine.{u, v, w} Input (Option (Request × Answer)))
    (abstract : Machine.{v, v, x} Request Answer) where
  Related : concrete.State → abstract.State → Prop
  silent : ∀ {low high input next}, Related low high →
    concrete.step low input = some (none, next) → Related next high
  visible : ∀ {low high input request answer next}, Related low high →
    concrete.step low input = some (some (request, answer), next) →
    ∃ high', abstract.step high request = some (answer, high') ∧ Related next high'

/-- What a run shows is a run of the abstract machine. -/
theorem SilentSimulation.run_eq {concrete : Machine.{u, v, w} Input (Option (Request × Answer))}
    {abstract : Machine.{v, v, x} Request Answer} (simulation : SilentSimulation concrete abstract)
    {low final : concrete.State} {high : abstract.State} (related : simulation.Related low high)
    {inputs : List Input} {outputs : List (Option (Request × Answer))}
    (ran : concrete.run low inputs = some (outputs, final)) :
    ∃ high', abstract.run high (requests outputs) = some (answers outputs, high') ∧
      simulation.Related final high' := by
  induction inputs generalizing low high outputs with
  | nil =>
      cases ran
      exact ⟨high, rfl, related⟩
  | cons input rest ih =>
      obtain ⟨output, next, later, taken, runRest, rfl⟩ := run_cons_eq_some.mp ran
      cases output with
      | none =>
          obtain ⟨last, runLast, relatedLast⟩ := ih (simulation.silent related taken) runRest
          exact ⟨last, runLast, relatedLast⟩
      | some shown =>
          obtain ⟨between, answered, relatedNext⟩ := simulation.visible related taken
          obtain ⟨last, runLast, relatedLast⟩ := ih relatedNext runRest
          refine ⟨last, ?_, relatedLast⟩
          exact run_cons_eq_some.mpr ⟨shown.2, between, answers later, answered, runLast, rfl⟩

end Machine
end XProject.Std
