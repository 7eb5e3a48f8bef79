import XProject.Std.Threads

/-!
# `SpinLock` of `threads/spinlock.h`

A flag that is tested and set in one step. `lock` tries until the flag was clear,
`try_lock` tries once, and `unlock` clears the flag whoever calls it; callers unlock
only what they have locked. Then the lock excludes in every interleaving.
-/

namespace XProject.Base

open XProject.Std

/-- The `std::atomic_flag` of a `SpinLock`. -/
structure SpinLock where
  flags : Bool
deriving DecidableEq

namespace SpinLock

/-- `ATOMIC_FLAG_INIT`. -/
def new : SpinLock := ⟨false⟩

/-- `flags_.test_and_set`: what the flag was, and the flag set. -/
def testAndSet (lock : SpinLock) : Bool × SpinLock := (lock.flags, ⟨true⟩)

/-- `unlock`. -/
def unlock (_ : SpinLock) : SpinLock := ⟨false⟩

/-- `try_lock`. -/
def tryLock (lock : SpinLock) : Bool × SpinLock :=
  let (was, next) := lock.testAndSet
  (!was, next)

/-- Where a caller is: outside, in the loop of `lock`, or behind a `lock` or `try_lock`
that succeeded. -/
inductive Caller where
  | outside
  | spinning
  | inside
deriving DecidableEq

/-- What a caller does next. -/
inductive Act where
  | lock
  /-- One evaluation of the condition of the loop in `lock`. -/
  | spin
  | tryLock
  | unlock
deriving DecidableEq

/-- A call made by a caller, with what it gets. -/
def step : Act → SpinLock → Caller → Option (Bool × SpinLock × Caller)
  | .lock, lock, .outside => some (false, lock, .spinning)
  | .spin, lock, .spinning =>
      let (was, next) := lock.testAndSet
      some (!was, next, if was then .spinning else .inside)
  | .tryLock, lock, .outside =>
      let (got, next) := lock.tryLock
      some (got, next, if got then .inside else .outside)
  | .unlock, lock, .inside => some (false, lock.unlock, .outside)
  | _, _, _ => none

/-- Callers that unlock only what they have locked. The output says whether the lock was got. -/
@[reducible] def callers : Program Act Bool where
  Shared := SpinLock
  Local := Caller
  step := step

/-- What a call does, case by case. -/
theorem step_cases {act : Act} {lock next : SpinLock} {caller after : Caller} {got : Bool}
    (taken : step act lock caller = some (got, next, after)) :
    (act = .lock ∧ caller = .outside ∧ got = false ∧ next = lock ∧ after = .spinning) ∨
      ((act = .spin ∧ caller = .spinning ∨ act = .tryLock ∧ caller = .outside) ∧
        got = !lock.flags ∧ next.flags = true ∧
        after = if lock.flags then caller else .inside) ∨
      (act = .unlock ∧ caller = .inside ∧ got = false ∧ next.flags = false ∧
        after = .outside) := by
  obtain ⟨flags⟩ := lock
  cases act with
  | lock => cases caller <;> cases taken; exact .inl ⟨rfl, rfl, rfl, rfl, rfl⟩
  | spin =>
      cases caller <;> cases taken
      exact .inr (.inl ⟨.inl ⟨rfl, rfl⟩, rfl, rfl, rfl⟩)
  | tryLock =>
      cases caller <;> cases taken
      refine .inr (.inl ⟨.inr ⟨rfl, rfl⟩, rfl, rfl, ?_⟩)
      cases flags <;> rfl
  | unlock => cases caller <;> cases taken; exact .inr (.inr ⟨rfl, rfl, rfl, rfl, rfl⟩)

/-- The flag as a lock of the callers. -/
def callersLock : callers.Lock where
  Locked lock := lock.flags = true
  Holds caller := caller = .inside
  disciplined := by
    intro act lock caller got next after taken
    rcases step_cases taken with ⟨_, rfl, _, rfl, rfl⟩ | ⟨tried, _, set, rfl⟩ |
      ⟨_, rfl, _, clear, rfl⟩
    · exact .keeps Iff.rfl (iff_of_false nofun nofun)
    · have without : caller ≠ .inside := by
        rintro rfl
        rcases tried with ⟨_, here⟩ | ⟨_, here⟩ <;> cases here
      cases was : lock.flags with
      | true => exact .keeps (iff_of_true set rfl) (by simp only [if_true])
      | false => exact .takes Bool.false_ne_true set (if_neg Bool.false_ne_true)
    · refine .gives rfl ?_ nofun
      rw [clear]
      exact Bool.false_ne_true

/-- No caller has called yet. -/
def start (Thread : Type) : callers.Config Thread where
  shared := new
  locals _ := .outside

/-- Any number of threads calling `lock`, `try_lock` and, when they have the lock, `unlock`, in
any order: at most one thread has the lock, and the flag is set exactly while one has. A `try_lock`
and a turn of the loop in `lock` get it exactly when no thread has it. -/
theorem mutual_exclusion {Thread : Type} [DecidableEq Thread] (schedule : List (Thread × Act)) :
    ∀ config ∈ (callers.interleaving Thread).states (start Thread) schedule,
      (∀ first second, config.locals first = .inside → config.locals second = .inside →
        first = second) ∧
      (config.shared.flags = true ↔ ∃ thread, config.locals thread = .inside) ∧
      ∀ thread act got next, act = .spin ∨ act = .tryLock →
        (callers.interleaving Thread).step config (thread, act) = some (got, next) →
        ((got = true ↔ ∀ other, config.locals other ≠ .inside) ∧
          (next.locals thread = .inside ↔ got = true)) := by
  intro config visited
  have initial : callersLock.Exclusive (start Thread) :=
    ⟨iff_of_false Bool.false_ne_true (fun ⟨_, inside⟩ => nomatch inside),
      fun _ _ inside => nomatch inside⟩
  have exclusive := Program.Lock.exclusive_of_states initial schedule config visited
  refine ⟨exclusive.unique, exclusive.locked_iff, fun thread act got next tries taken => ?_⟩
  obtain ⟨shared, own, moved, rfl⟩ := Program.interleaving_step_eq_some.mp taken
  have free : config.shared.flags = false ↔ ∀ other, config.locals other ≠ .inside := by
    rw [← not_exists, ← Bool.not_eq_true]
    exact not_congr exclusive.locked_iff
  rw [Program.Config.move_self, ← free]
  rcases step_cases moved with ⟨rfl, _⟩ | ⟨tried, rfl, _, rfl⟩ | ⟨rfl, _⟩
  · rcases tries with bad | bad <;> cases bad
  · have without : config.locals thread ≠ .inside := by
      rcases tried with ⟨_, here⟩ | ⟨_, here⟩
      · rw [here]
        nofun
      · rw [here]
        nofun
    cases was : config.shared.flags with
    | true => exact ⟨by decide, iff_of_false without nofun⟩
    | false => exact ⟨by decide, iff_of_true rfl rfl⟩
  · rcases tries with bad | bad <;> cases bad

/-- One thread has the lock, the other one has tried for it. -/
theorem mutual_exclusion_contended :
    ∃ config ∈ (callers.interleaving Bool).states (start Bool)
        [(true, .tryLock), (false, .lock), (false, .spin)],
      config.locals true = .inside ∧ config.locals false = .spinning ∧
        (config.shared.flags = true ↔ ∃ thread, config.locals thread = .inside) := by
  have visited := @List.getLast_mem _ ((callers.interleaving Bool).states (start Bool)
    [(true, .tryLock), (false, .lock), (false, .spin)]) (List.cons_ne_nil _ _)
  exact ⟨_, visited, rfl, rfl, (mutual_exclusion _ _ visited).2.1⟩

end SpinLock
end XProject.Base
