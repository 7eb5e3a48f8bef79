import Mathlib.Data.List.Basic

/-!
# Partial input machines and their runs

A machine consumes one input at a time. A step without a result is a step whose
behavior is undefined, so a claim that a run exists is also a claim that no
step of it was undefined. `states_forall` and `Simulation.run_eq` carry a
one-step argument to every run.
-/

namespace XProject.Std

universe u v w

/-- A deterministic machine whose step may have no defined result. -/
structure Machine (Input : Type u) (Output : Type v) where
  State : Type w
  step : State → Input → Option (Output × State)

namespace Machine

variable {Input : Type u} {Output : Type v} (machine : Machine.{u, v, w} Input Output)

/-- Feed a whole input sequence and collect its outputs in order. -/
def run : machine.State → List Input → Option (List Output × machine.State)
  | state, [] => some ([], state)
  | state, input :: rest =>
      match machine.step state input with
      | none => none
      | some (output, next) =>
          match run next rest with
          | none => none
          | some (outputs, final) => some (output :: outputs, final)

/-- Every state a run visits, its start and its last state included. -/
def states : machine.State → List Input → List machine.State
  | state, [] => [state]
  | state, input :: rest =>
      state :: match machine.step state input with
        | none => []
        | some (_, next) => states next rest

/-- Every step a run takes, as the state before it and its input. -/
def steps : machine.State → List Input → List (machine.State × Input)
  | _, [] => []
  | state, input :: rest =>
      (state, input) :: match machine.step state input with
        | none => []
        | some (_, next) => steps next rest

/-- The machine that takes other inputs for its own. -/
@[reducible] def comap {Source : Type*} (input : Source → Input) : Machine Source Output where
  State := machine.State
  step state source := machine.step state (input source)

variable {machine}

/-- The start is visited whatever the inputs are. -/
theorem start_mem_states (start : machine.State) (inputs : List Input) :
    start ∈ machine.states start inputs := by
  cases inputs <;> simp [states]

/-- A step of a run takes one of its inputs. -/
theorem input_mem_of_mem_steps {start : machine.State} {inputs : List Input}
    {step : machine.State × Input} (taken : step ∈ machine.steps start inputs) :
    step.2 ∈ inputs := by
  induction inputs generalizing start with
  | nil => simp [steps] at taken
  | cons input rest ih =>
      rw [steps, List.mem_cons] at taken
      rcases taken with rfl | later
      · exact List.mem_cons_self
      · split at later
        · cases later
        · exact List.mem_cons_of_mem input (ih later)

/-- What holds at the start and survives every step holds in every state visited. -/
theorem states_forall {Inv : machine.State → Prop}
    (preserved : ∀ state input output next, Inv state →
      machine.step state input = some (output, next) → Inv next)
    {start : machine.State} (initial : Inv start) (inputs : List Input) :
    ∀ state ∈ machine.states start inputs, Inv state := by
  induction inputs generalizing start with
  | nil => simpa [states] using initial
  | cons input rest ih =>
      intro state visited
      simp only [states, List.mem_cons] at visited
      rcases visited with rfl | visited
      · exact initial
      · cases taken : machine.step start input with
        | none => simp [taken] at visited
        | some result =>
            obtain ⟨output, next⟩ := result
            simp only [taken] at visited
            exact ih (preserved start input output next initial taken) state visited

/-- A transitive relation that every step follows relates any two states of a
run, in order. -/
theorem states_pairwise {Earlier : machine.State → machine.State → Prop}
    (transitive : ∀ first second third, Earlier first second → Earlier second third →
      Earlier first third)
    (follows : ∀ state input output next,
      machine.step state input = some (output, next) → Earlier state next)
    (start : machine.State) (inputs : List Input) :
    (machine.states start inputs).Pairwise Earlier := by
  induction inputs generalizing start with
  | nil => simp [states]
  | cons input rest ih =>
      cases taken : machine.step start input with
      | none => simp [states, taken]
      | some result =>
          obtain ⟨output, next⟩ := result
          simp only [states, taken, List.pairwise_cons]
          have onward := follows start input output next taken
          refine ⟨states_forall (fun state input output later ahead taken => ?_) onward rest,
            ih next⟩
          exact transitive start state later ahead (follows state input output later taken)

/-- A state property is characterized by a condition on steps: while `Good`
holds, exactly the steps meeting `Allowed` keep it, and a step without a result
meets it. Then a run stays `Good` exactly when all of its steps are allowed. -/
theorem states_forall_iff_steps {Inv Good : machine.State → Prop}
    {Allowed : machine.State → Input → Prop}
    (preserved : ∀ state input output next, Inv state →
      machine.step state input = some (output, next) → Inv next)
    (undefined : ∀ state input, Inv state → machine.step state input = none →
      Allowed state input)
    (exact_step : ∀ state input output next, Inv state → Good state →
      machine.step state input = some (output, next) → (Good next ↔ Allowed state input))
    {start : machine.State} (initial : Inv start) (good : Good start) (inputs : List Input) :
    (∀ state ∈ machine.states start inputs, Good state) ↔
      ∀ step ∈ machine.steps start inputs, Allowed step.1 step.2 := by
  induction inputs generalizing start with
  | nil => simpa [states, steps] using good
  | cons input rest ih =>
      cases taken : machine.step start input with
      | none => simpa [states, steps, taken, good] using undefined start input initial taken
      | some result =>
          obtain ⟨output, next⟩ := result
          have holds := preserved start input output next initial taken
          have nextGood := exact_step start input output next initial good taken
          simp only [states, steps, taken, List.forall_mem_cons]
          constructor
          · rintro ⟨_, later⟩
            have here : Good next := later next (start_mem_states next rest)
            exact ⟨nextGood.mp here, (ih holds here).mp later⟩
          · rintro ⟨allowed, later⟩
            exact ⟨good, (ih holds (nextGood.mpr allowed)).mpr later⟩

/-- The characterization above for a machine all of whose steps have results. -/
theorem states_forall_iff_total_steps {Inv Good : machine.State → Prop}
    {Allowed : machine.State → Input → Prop}
    (progress : ∀ state input, Inv state →
      ∃ output next, machine.step state input = some (output, next) ∧ Inv next)
    (exact_step : ∀ state input output next, Inv state → Good state →
      machine.step state input = some (output, next) → (Good next ↔ Allowed state input))
    {start : machine.State} (initial : Inv start) (good : Good start) (inputs : List Input) :
    (∀ state ∈ machine.states start inputs, Good state) ↔
      ∀ step ∈ machine.steps start inputs, Allowed step.1 step.2 := by
  refine states_forall_iff_steps ?_ ?_ exact_step initial good inputs
  · intro state input output next holds taken
    obtain ⟨output', next', taken', holds'⟩ := progress state input holds
    cases taken.symm.trans taken'
    exact holds'
  · intro state input holds stuck
    obtain ⟨output, next, taken, _⟩ := progress state input holds
    cases stuck.symm.trans taken

/-- A step property that holds exactly on the allowed steps, for an invariant
that every allowed step keeps: it holds on a whole run exactly when every step
of that run is allowed. -/
theorem steps_forall_iff {Inv : machine.State → Prop}
    {Good Allowed : machine.State → Input → Prop}
    (exact_step : ∀ state input, Inv state → (Good state input ↔ Allowed state input))
    (preserved : ∀ state input output next, Inv state → Allowed state input →
      machine.step state input = some (output, next) → Inv next)
    {start : machine.State} (initial : Inv start) (inputs : List Input) :
    (∀ step ∈ machine.steps start inputs, Good step.1 step.2) ↔
      ∀ step ∈ machine.steps start inputs, Allowed step.1 step.2 := by
  induction inputs generalizing start with
  | nil => simp [steps]
  | cons input rest ih =>
      have here := exact_step start input initial
      cases taken : machine.step start input with
      | none => simp [steps, taken, here]
      | some result =>
          obtain ⟨output, next⟩ := result
          simp only [steps, taken, List.forall_mem_cons, here]
          refine and_congr_right fun allowed => ?_
          exact ih (preserved start input output next initial allowed taken)

/-- What is good about a whole run, the definedness of its steps included, is
characterized by a condition on steps: allowed steps have results and keep an
invariant under which states are good, and any other step that has a result leads
to a state that is not. -/
theorem run_safe_iff {Inv Good : machine.State → Prop} {Allowed : machine.State → Input → Prop}
    (good : ∀ state, Inv state → Good state)
    (keeps : ∀ state input, Inv state → Allowed state input →
      ∃ output next, machine.step state input = some (output, next) ∧ Inv next)
    (breaks : ∀ state input output next, Inv state → ¬ Allowed state input →
      machine.step state input = some (output, next) → ¬ Good next)
    {start : machine.State} (initial : Inv start) (inputs : List Input) :
    ((machine.run start inputs).isSome = true ∧ ∀ state ∈ machine.states start inputs, Good state) ↔
      ∀ step ∈ machine.steps start inputs, Allowed step.1 step.2 := by
  induction inputs generalizing start with
  | nil => simpa [run, states, steps] using good start initial
  | cons input rest ih =>
      by_cases allowed : Allowed start input
      · obtain ⟨output, next, taken, holds⟩ := keeps start input initial allowed
        have defined : (machine.run start (input :: rest)).isSome = (machine.run next rest).isSome := by
          simp only [run, taken]
          cases machine.run next rest <;> rfl
        simp only [defined, states, steps, taken, List.forall_mem_cons, allowed, true_and,
          good start initial]
        exact ih holds
      · constructor
        · rintro ⟨defined, visited⟩
          cases taken : machine.step start input with
          | none => simp [run, taken] at defined
          | some result =>
              obtain ⟨output, next⟩ := result
              simp only [states, taken, List.forall_mem_cons] at visited
              have bad := breaks start input output next initial allowed taken
              exact absurd (visited.2 next (start_mem_states next rest)) bad
        · intro all
          exact absurd (all (start, input) List.mem_cons_self) allowed

/-- A run with a result takes a step with one, then runs the rest. -/
theorem run_cons_eq_some {start final : machine.State} {input : Input} {rest : List Input}
    {outputs : List Output} :
    machine.run start (input :: rest) = some (outputs, final) ↔
      ∃ output next later, machine.step start input = some (output, next) ∧
        machine.run next rest = some (later, final) ∧ output :: later = outputs := by
  rw [run]
  constructor
  · intro ran
    split at ran
    · cases ran
    · rename_i output next taken
      split at ran
      · cases ran
      · rename_i later final' runRest
        cases ran
        exact ⟨output, next, later, taken, runRest, rfl⟩
  · rintro ⟨output, next, later, taken, runRest, rfl⟩
    simp [taken, runRest]

/-- What holds at the start and survives every step holds at the end of a run. -/
theorem run_preserves {Inv : machine.State → Prop}
    (preserved : ∀ state input output next, Inv state →
      machine.step state input = some (output, next) → Inv next)
    {start final : machine.State} {inputs : List Input} {outputs : List Output}
    (initial : Inv start) (ran : machine.run start inputs = some (outputs, final)) : Inv final := by
  induction inputs generalizing start outputs with
  | nil =>
      cases ran
      exact initial
  | cons input rest ih =>
      obtain ⟨output, next, later, taken, runRest, _⟩ := run_cons_eq_some.mp ran
      exact ih (preserved start input output next initial taken) runRest

/-- A machine that never gets stuck while an invariant holds runs to the end on
every input. -/
theorem run_total {Inv : machine.State → Prop}
    (progress : ∀ state input, Inv state →
      ∃ output next, machine.step state input = some (output, next) ∧ Inv next)
    {start : machine.State} (initial : Inv start) (inputs : List Input) :
    ∃ outputs final, machine.run start inputs = some (outputs, final) := by
  induction inputs generalizing start with
  | nil => exact ⟨[], start, rfl⟩
  | cons input rest ih =>
      obtain ⟨output, next, taken, holds⟩ := progress start input initial
      obtain ⟨outputs, final, ran⟩ := ih holds
      exact ⟨output :: outputs, final, by simp [run, taken, ran]⟩

/-- A machine whose allowed steps follow a pure function runs to the end on
allowed steps, and its last state corresponds to the fold of that function. -/
theorem run_foldl {α : Type*} {Holds : machine.State → α → Prop} {extend : α → Input → α}
    {Allowed : machine.State → Input → Prop}
    (progress : ∀ state value input, Holds state value → Allowed state input →
      ∃ output next, machine.step state input = some (output, next) ∧
        Holds next (extend value input))
    {start : machine.State} {value : α} (initial : Holds start value) {inputs : List Input}
    (allowed : ∀ step ∈ machine.steps start inputs, Allowed step.1 step.2) :
    ∃ outputs final, machine.run start inputs = some (outputs, final) ∧
      Holds final (inputs.foldl extend value) := by
  induction inputs generalizing start value with
  | nil => exact ⟨[], start, rfl, initial⟩
  | cons input rest ih =>
      have here : Allowed start input := allowed (start, input) List.mem_cons_self
      obtain ⟨output, next, taken, holds⟩ := progress start value input initial here
      simp only [steps, taken, List.forall_mem_cons] at allowed
      obtain ⟨outputs, final, run_, finalHolds⟩ := ih holds allowed.2
      exact ⟨output :: outputs, final, by simp [run, taken, run_], finalHolds⟩

/-- A lockstep simulation of the steps that meet a condition, between two
machines with the same inputs and outputs. -/
structure GuardedSimulation (concrete abstract : Machine.{u, v, w} Input Output)
    (Allowed : concrete.State → Input → Prop) where
  Related : concrete.State → abstract.State → Prop
  step : ∀ low high input, Related low high → Allowed low input →
    ∃ output low' high', concrete.step low input = some (output, low') ∧
      abstract.step high input = some (output, high') ∧ Related low' high'

/-- Related machines run to the end with the same outputs when every step of the
concrete run is allowed, and every state the concrete run visits is related to one. -/
theorem GuardedSimulation.run_eq {concrete abstract : Machine.{u, v, w} Input Output}
    {Allowed : concrete.State → Input → Prop}
    (simulation : GuardedSimulation concrete abstract Allowed) {low : concrete.State}
    {high : abstract.State} (related : simulation.Related low high) {inputs : List Input}
    (allowed : ∀ step ∈ concrete.steps low inputs, Allowed step.1 step.2) :
    ∃ outputs low' high', concrete.run low inputs = some (outputs, low') ∧
      abstract.run high inputs = some (outputs, high') ∧ simulation.Related low' high' ∧
      ∀ state ∈ concrete.states low inputs, ∃ other, simulation.Related state other := by
  induction inputs generalizing low high with
  | nil => exact ⟨[], low, high, rfl, rfl, related, by simpa [states] using ⟨high, related⟩⟩
  | cons input rest ih =>
      have here : Allowed low input := allowed (low, input) List.mem_cons_self
      obtain ⟨output, low', high', lowStep, highStep, relatedNext⟩ :=
        simulation.step low high input related here
      simp only [steps, lowStep, List.forall_mem_cons] at allowed
      obtain ⟨outputs, lowFinal, highFinal, lowRun, highRun, relatedFinal, visited⟩ :=
        ih relatedNext allowed.2
      refine ⟨output :: outputs, lowFinal, highFinal, by simp [run, lowStep, lowRun],
        by simp [run, highStep, highRun], relatedFinal, ?_⟩
      simp only [states, lowStep, List.forall_mem_cons]
      exact ⟨⟨high, related⟩, visited⟩

/-- A machine that can take every step of another one can take its runs. -/
theorem run_covered {concrete abstract : Machine.{u, v, w} Input Output}
    {Related : concrete.State → abstract.State → Prop}
    (covered : ∀ low high input output high', Related low high →
      abstract.step high input = some (output, high') →
      ∃ low', concrete.step low input = some (output, low') ∧ Related low' high')
    {low : concrete.State} {high high' : abstract.State} (related : Related low high)
    {inputs : List Input} {outputs : List Output}
    (ran : abstract.run high inputs = some (outputs, high')) :
    ∃ low', concrete.run low inputs = some (outputs, low') ∧ Related low' high' := by
  induction inputs generalizing low high outputs with
  | nil =>
      cases ran
      exact ⟨low, rfl, related⟩
  | cons input rest ih =>
      obtain ⟨output, next, later, taken, runRest, rfl⟩ := run_cons_eq_some.mp ran
      obtain ⟨lowNext, lowTaken, relatedNext⟩ := covered low high input output next related taken
      obtain ⟨low', lowRan, relatedFinal⟩ := ih relatedNext runRest
      exact ⟨low', run_cons_eq_some.mpr ⟨output, lowNext, later, lowTaken, lowRan, rfl⟩,
        relatedFinal⟩

/-- A lockstep simulation between two machines with the same inputs and outputs. -/
structure Simulation (concrete abstract : Machine.{u, v, w} Input Output) where
  Related : concrete.State → abstract.State → Prop
  step : ∀ low high input, Related low high →
    ∃ output low' high', concrete.step low input = some (output, low') ∧
      abstract.step high input = some (output, high') ∧ Related low' high'

/-- Related machines run to the end with the same outputs on every input sequence. -/
theorem Simulation.run_eq {concrete abstract : Machine.{u, v, w} Input Output}
    (simulation : Simulation concrete abstract) {low : concrete.State}
    {high : abstract.State} (related : simulation.Related low high) (inputs : List Input) :
    ∃ outputs low' high', concrete.run low inputs = some (outputs, low') ∧
      abstract.run high inputs = some (outputs, high') ∧ simulation.Related low' high' := by
  let guarded : GuardedSimulation concrete abstract fun _ _ => True :=
    ⟨simulation.Related, fun low high input related _ => simulation.step low high input related⟩
  have unguarded : ∀ step ∈ concrete.steps low inputs, True := fun _ _ => trivial
  obtain ⟨outputs, low', high', lowRun, highRun, relatedFinal, _⟩ :=
    guarded.run_eq related unguarded
  exact ⟨outputs, low', high', lowRun, highRun, relatedFinal⟩

end Machine
end XProject.Std
