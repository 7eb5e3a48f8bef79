import XProject.Engine.IntrinsicContext

/-!
# `GetInstance` under any interleaving

Behind the lock the rest of `GetInstance` is what the thread would do alone, so the
calls take effect one by one in the order in which they copy the pointer. A context
that was handed out stays as it is.
-/

namespace XProject.Engine

open XProject.Std XProject.Base XProject.Plugin

/-- The version asked for by a thread that has the lock and has not copied the pointer. -/
def Caller.working : Caller → Option UInt32
  | .entered version | .comparing version | .replacing version | .returning version =>
      some version
  | .idle | .locking _ | .unlocking _ _ | .returned _ _ => none

/-- Between the lock and its release. -/
def Caller.Inside : Caller → Prop
  | .entered _ | .comparing _ | .replacing _ | .returning _ | .unlocking _ _ => True
  | .idle | .locking _ | .returned _ _ => False

/-- What is left of `GetInstance` up to the copy of the pointer. -/
def Caller.remaining : Caller → Contexts → Option (Option Nat × Contexts)
  | .entered version, contexts => contexts.getInstance version
  | .comparing version, contexts => contexts.compare version
  | .replacing version, contexts =>
      some ((contexts.replace version).current, contexts.replace version)
  | .returning _, contexts => some (contexts.current, contexts)
  | .idle, _ | .locking _, _ | .unlocking _ _, _ | .returned _ _, _ => none

/-- The kinds of steps a thread takes. -/
inductive Moved : Option (UInt32 × Option Nat) → Globals → Caller → Globals → Caller → Prop where
  | calls {globals own version} (outside : ¬own.Inside) :
      Moved none globals own globals (.locking version)
  | tries {globals version} :
      Moved none globals (.locking version) { globals with locker := ⟨true⟩ }
        (if globals.locker.flags then .locking version else .entered version)
  | works {globals own contexts after version} (before : own.working = some version)
      (still : after.working = some version) (grows : globals.contexts.made <+: contexts.made)
      (rest : own.remaining globals.contexts = after.remaining contexts) :
      Moved none globals own { globals with contexts := contexts } after
  | copies {globals version} :
      Moved (some (version, globals.contexts.current)) globals (.returning version) globals
        (.unlocking version globals.contexts.current)
  | unlocks {globals version result} :
      Moved none globals (.unlocking version result) { globals with locker := ⟨false⟩ }
        (.returned version result)

theorem init_grows (version : UInt32) (contexts : Contexts) :
    contexts.made <+: (contexts.init version).made := by
  unfold Contexts.init
  split
  · exact List.prefix_append _ _
  · exact List.prefix_rfl

/-- Every step is of one of these kinds. -/
theorem moved_of_step {act : Act} {globals next : Globals} {own after : Caller}
    {shown : Option (UInt32 × Option Nat)}
    (taken : step act globals own = some (shown, next, after)) :
    Moved shown globals own next after := by
  cases act with
  | call version =>
      cases own with
      | idle =>
          cases taken
          exact .calls id
      | returned _ _ =>
          cases taken
          exact .calls id
      | _ => cases taken
  | proceed =>
      cases own with
      | idle => cases taken
      | returned _ _ => cases taken
      | locking version =>
          cases taken
          exact .tries
      | entered version =>
          cases taken
          exact .works rfl rfl (init_grows version _) rfl
      | comparing version =>
          cases here : globals.contexts.currentVersion with
          | none => simp [step, here] at taken
          | some existing =>
              simp only [step, here, Option.bind_eq_bind, Option.bind_some] at taken
              cases taken
              by_cases same : existing = version
              · subst same
                rw [if_neg (not_not.mpr rfl)]
                exact .works rfl rfl List.prefix_rfl (compare_same here)
              · rw [if_pos same]
                exact .works rfl rfl List.prefix_rfl (compare_other here same)
      | replacing version =>
          cases taken
          exact .works rfl rfl (List.prefix_append _ _) rfl
      | returning version =>
          cases taken
          exact .copies
      | unlocking version result =>
          cases taken
          exact .unlocks

theorem inside_of_working {own : Caller} {version : UInt32} (working : own.working = some version) :
    own.Inside := by
  cases own <;> first | cases working; done | trivial

/-- The spin lock, as `GetInstance` uses it. -/
def locker : callers.Lock where
  Locked globals := globals.locker.flags = true
  Holds := Caller.Inside
  disciplined := by
    intro act globals own shown next after taken
    cases moved_of_step taken with
    | calls outside => exact .keeps Iff.rfl (iff_of_false id outside)
    | tries =>
        cases was : globals.locker.flags with
        | true => exact .keeps (iff_of_true rfl rfl) (by simp only [if_true])
        | false =>
            refine .takes Bool.false_ne_true rfl ?_
            rw [if_neg Bool.false_ne_true]
            trivial
    | works before still grows rest =>
        exact .keeps Iff.rfl (iff_of_true (inside_of_working still) (inside_of_working before))
    | copies => exact .keeps Iff.rfl (iff_of_true trivial trivial)
    | unlocks => exact .gives trivial Bool.false_ne_true id

/-! ## What the lock protects -/

/-- A pointer to a context of the version, as its constructor has left it. -/
def Got (contexts : Contexts) (version : UInt32) (result : Option Nat) : Prop :=
  ∃ pointer, result = some pointer ∧ contexts.made[pointer]? = some (.new version)

theorem Got.grow {contexts next : Contexts} {version : UInt32} {result : Option Nat}
    (got : Got contexts version result) (grows : contexts.made <+: next.made) :
    Got next version result := by
  obtain ⟨pointer, is_, context⟩ := got
  obtain ⟨added, same⟩ := grows
  refine ⟨pointer, is_, ?_⟩
  rwa [← same, List.getElem?_append_left (List.getElem?_eq_some_iff.mp context).1]

/-- What is left of a call ends as the request asks for. -/
def Ends (latest : Latest) (version : UInt32) (left : Option (Option Nat × Contexts)) : Prop :=
  ∃ next, left = some (some (latest.get version).1, next) ∧ Matches next (latest.get version).2

/-- What is said of a thread after the requests that led to `latest`. -/
def Agrees (latest : Latest) (contexts : Contexts) (own : Caller) : Prop :=
  match own with
  | .idle | .locking _ => True
  | .entered version | .comparing version | .replacing version | .returning version =>
      Ends latest version (own.remaining contexts)
  | .unlocking version result => Matches contexts latest ∧ Got contexts version result
  | .returned version result => Got contexts version result

theorem agrees_of_working {latest : Latest} {contexts : Contexts} {own : Caller} {version : UInt32}
    (working : own.working = some version) :
    Agrees latest contexts own ↔ Ends latest version (own.remaining contexts) := by
  cases own <;> cases working <;> exact Iff.rfl

/-- A thread that is not inside keeps what is said of it, whatever the others ask for. -/
theorem Agrees.grow {latest later : Latest} {contexts next : Contexts} {own : Caller}
    (agrees : Agrees latest contexts own) (outside : ¬own.Inside)
    (grows : contexts.made <+: next.made) : Agrees later next own := by
  cases own with
  | idle => trivial
  | locking _ => trivial
  | returned _ _ => exact Got.grow agrees grows
  | _ => exact absurd trivial outside

/-- The contexts behind the lock, after the requests that led to `latest`. -/
def guarded (latest : Latest) : Program.Resource locker where
  Free globals := Matches globals.contexts latest
  Own globals own := Agrees latest globals.contexts own

/-- Silent steps leave the requests as they are. -/
theorem guarded_silent (latest : Latest) :
    (guarded latest).Passes (guarded latest) (· = none) where
  moves := by
    intro act globals own shown next after taken silent locked agrees free
    cases moved_of_step taken with
    | calls outside => exact ⟨trivial, free⟩
    | tries =>
        cases was : globals.locker.flags with
        | true => exact ⟨trivial, fun unlocked => absurd rfl unlocked⟩
        | false =>
            have unlocked : ¬globals.locker.flags = true := by
              rw [was]
              exact Bool.false_ne_true
            have matches_ : Matches globals.contexts latest := free unlocked
            exact ⟨matches_.getInstance _, fun unlocked => absurd rfl unlocked⟩
    | works before still grows rest =>
        have ends := (agrees_of_working before).mp agrees
        rw [rest] at ends
        exact ⟨(agrees_of_working still).mpr ends,
          fun unlocked => absurd (locked (inside_of_working before)) unlocked⟩
    | copies => cases silent
    | unlocks => exact ⟨agrees.2, fun _ => agrees.1⟩
  frame := by
    intro act globals own shown next after other taken silent agrees there apart
    cases moved_of_step taken with
    | calls outside => exact there
    | tries => exact there
    | works before still grows rest =>
        exact Agrees.grow there (fun inside => (apart inside).1 (inside_of_working before)) grows
    | copies => cases silent
    | unlocks => exact there

/-- The copy of the pointer answers its request. -/
theorem guarded_visible (latest : Latest) (version : UInt32) (result : Option Nat) :
    (guarded latest).Passes (guarded (latest.get version).2) (· = some (version, result)) where
  moves := by
    intro act globals own shown next after taken visible locked agrees free
    cases moved_of_step taken with
    | copies =>
        cases visible
        obtain ⟨_, ended, matches_⟩ := agrees
        obtain ⟨current, rfl⟩ := Prod.mk.inj (Option.some.inj ended)
        have last := matches_.version _ _ (Latest.get_last version latest)
        exact ⟨⟨matches_, _, current, last⟩, fun unlocked => absurd (locked trivial) unlocked⟩
    | calls _ => cases visible
    | tries => cases visible
    | works _ _ _ _ => cases visible
    | unlocks => cases visible
  frame := by
    intro act globals own shown next after other taken visible agrees there apart
    cases moved_of_step taken with
    | copies =>
        exact Agrees.grow there (fun inside => (apart inside).1 trivial) List.prefix_rfl
    | calls _ => cases visible
    | tries => cases visible
    | works _ _ _ _ => cases visible
    | unlocks => cases visible

/-! ## Runs -/

variable {Thread : Type} [DecidableEq Thread]

omit [DecidableEq Thread] in
theorem start_kept : (guarded Latest.new).Kept (start Thread) where
  exclusive := ⟨iff_of_false Bool.false_ne_true (fun ⟨_, inside⟩ => inside),
    fun _ _ inside => inside.elim⟩
  free _ := ⟨rfl, rfl, nofun⟩
  own _ := trivial

/-- Each copy of the pointer is a step of the sequential object. -/
def linearization : Machine.SilentSimulation (callers.interleaving Thread) Latest.machine where
  Related config latest := (guarded latest).Kept config
  silent {config latest turn next} kept taken := by
    obtain ⟨shared, own, moved, rfl⟩ := Program.interleaving_step_eq_some.mp taken
    exact kept.move (guarded_silent latest) moved rfl
  visible {config latest turn version result next} kept taken := by
    obtain ⟨shared, own, moved, rfl⟩ := Program.interleaving_step_eq_some.mp taken
    refine ⟨_, ?_, kept.move (guarded_visible latest version result) moved rfl⟩
    have agrees := kept.own turn.1
    have kind := moved_of_step moved
    generalize config.locals turn.1 = before at agrees kind
    cases kind with
    | copies =>
        obtain ⟨_, ended, _⟩ := agrees
        rw [(Prod.mk.inj (Option.some.inj ended)).1]

/-- Whatever threads call `GetInstance` in whatever interleaving, the pointers they get are those
of the same requests made one by one, in the order in which the pointer is copied: the same
pointer as long as the same version is asked for, and a new context otherwise. While the lock
is free the static variable is as these requests leave it. -/
theorem get_instance_linearizable {schedule : List (Thread × Act)}
    {outputs : List (Option (UInt32 × Option Nat))} {final : callers.Config Thread}
    (ran : (callers.interleaving Thread).run (start Thread) schedule = some (outputs, final)) :
    ∃ latest, Latest.machine.run Latest.new (Machine.requests outputs) =
        some (Machine.answers outputs, latest) ∧
      (final.shared.locker.flags = false → Matches final.shared.contexts latest) := by
  obtain ⟨latest, sequential, kept⟩ := linearization.run_eq start_kept ran
  refine ⟨latest, sequential, fun clear => ?_⟩
  have unlocked : ¬final.shared.locker.flags = true := by
    rw [clear]
    exact Bool.false_ne_true
  exact kept.free unlocked

/-- Two threads; the second one finds the lock taken at first. -/
def twoCalls : List (Bool × Act) := [(true, .call 5), (true, .proceed), (false, .call 3),
  (false, .proceed), (true, .proceed), (true, .proceed), (true, .proceed), (true, .proceed),
  (false, .proceed), (false, .proceed), (false, .proceed), (false, .proceed), (false, .proceed),
  (false, .proceed)]

theorem get_instance_linearizable_two : ∃ outputs final latest,
    (callers.interleaving Bool).run (start Bool) twoCalls = some (outputs, final) ∧
      Machine.requests outputs = [5, 3] ∧
      Latest.machine.run Latest.new (Machine.requests outputs) =
        some (Machine.answers outputs, latest) := by
  obtain ⟨latest, sequential, _⟩ :=
    @get_instance_linearizable Bool _ twoCalls _ _ rfl
  exact ⟨_, _, latest, rfl, rfl, sequential⟩

/-- Some requests lead to every state of an interleaving. -/
theorem kept_of_states (schedule : List (Thread × Act)) :
    ∀ config ∈ (callers.interleaving Thread).states (start Thread) schedule,
      ∃ latest, (guarded latest).Kept config := by
  refine Machine.states_forall (fun config turn output next kept taken => ?_)
    ⟨Latest.new, start_kept⟩ schedule
  obtain ⟨latest, kept⟩ := kept
  cases output with
  | none => exact ⟨latest, linearization.silent kept taken⟩
  | some shown =>
      obtain ⟨after, _, related⟩ := linearization.visible kept taken
      exact ⟨after, related⟩

omit [DecidableEq Thread] in
/-- What a thread whose call has returned holds. -/
theorem returned_got {latest : Latest} {config : callers.Config Thread}
    (kept : (guarded latest).Kept config) {thread : Thread} {version : UInt32}
    {result : Option Nat} (returned : config.locals thread = .returned version result) :
    Got config.shared.contexts version result := by
  have agrees := kept.own thread
  rw [returned] at agrees
  exact agrees

/-- A thread whose call ends as asked for can go on. -/
theorem proceeds {latest : Latest} {globals : Globals} {own : Caller} {version : UInt32}
    (working : own.working = some version)
    (ends : Ends latest version (own.remaining globals.contexts)) :
    ∃ shown next after, step .proceed globals own = some (shown, next, after) := by
  cases own with
  | comparing asked =>
      cases here : globals.contexts.currentVersion with
      | none =>
          obtain ⟨_, ended, _⟩ := ends
          simp [Caller.remaining, Contexts.compare, here] at ended
      | some existing => simp [step, here]
  | entered _ => exact ⟨_, _, _, rfl⟩
  | replacing _ => exact ⟨_, _, _, rfl⟩
  | returning _ => exact ⟨_, _, _, rfl⟩
  | _ => cases working

/-- In every state of every interleaving: at most one thread is between the lock and its release,
a call that was begun can go on without an undefined dereference, and a thread whose call has
returned still has a context of the version it asked for, as that was constructed. -/
theorem contexts_served (schedule : List (Thread × Act)) :
    ∀ config ∈ (callers.interleaving Thread).states (start Thread) schedule,
      (∀ first second, (config.locals first).Inside → (config.locals second).Inside →
        first = second) ∧
      (∀ thread version result, config.locals thread = .returned version result →
        Got config.shared.contexts version result) ∧
      ∀ thread, (config.locals thread).Inside → ∃ output next,
        (callers.interleaving Thread).step config (thread, .proceed) = some (output, next) := by
  intro config visited
  obtain ⟨latest, kept⟩ := kept_of_states schedule config visited
  refine ⟨kept.exclusive.unique, fun _ _ _ returned => returned_got kept returned,
    fun thread inside => ?_⟩
  · have agrees := kept.own thread
    have goes : ∃ shown next after,
        step .proceed config.shared (config.locals thread) = some (shown, next, after) := by
      cases working : (config.locals thread).working with
      | some version => exact proceeds working ((agrees_of_working working).mp agrees)
      | none =>
          generalize config.locals thread = own at inside working
          cases own with
          | unlocking _ _ => exact ⟨_, _, _, rfl⟩
          | idle => exact inside.elim
          | locking _ => exact inside.elim
          | returned _ _ => exact inside.elim
          | _ => cases working
    obtain ⟨shown, next, after, moved⟩ := goes
    exact ⟨shown, _, Program.interleaving_step_eq_some.mpr ⟨next, after, moved, rfl⟩⟩

/-- The second call of `twoCalls` has returned with a second context. -/
theorem contexts_served_two : ∃ config ∈ (callers.interleaving Bool).states (start Bool) twoCalls,
    config.locals false = .returned 3 (some 1) ∧ Got config.shared.contexts 3 (some 1) := by
  have visited := @List.getLast_mem _ ((callers.interleaving Bool).states (start Bool) twoCalls)
    (List.cons_ne_nil _ _)
  exact ⟨_, visited, rfl, (contexts_served twoCalls _ visited).2.1 false 3 (some 1) rfl⟩

/-- A version is at least the level `V01070` when it is so as a signed number. -/
theorem level_iff (version : UInt32) :
    version.toInt32 ≥ XVersion.V01070.toInt32 ↔ 3 ≤ version.toNat ∧ version.toNat < 2 ^ 31 := by
  have bound := version.toNat_lt
  have signed : version.toInt32.toInt = if 2 * version.toNat < 2 ^ 32 then (version.toNat : Int)
      else (version.toNat : Int) - (2 ^ 32 : Nat) := BitVec.toInt_eq_toNat_cond version.toBitVec
  have level : XVersion.V01070.toInt32.toInt = 3 := by decide
  rw [ge_iff_le, Int32.le_iff_toInt_le, level]
  split at signed <;> omega

/-- A thread whose call for a version has returned has a context on whose host module a name is
found exactly when it is that of an export of the base level, or of one of the level
`V01070` while the version is at least that and, being passed on as a signed number, below
`2 ^ 31`; and what is found is that export. The host module only has to keep what is
appended under new names. -/
theorem context_exports {host : HostModule} (keeps : host.Keeps) (schedule : List (Thread × Act)) :
    ∀ config ∈ (callers.interleaving Thread).states (start Thread) schedule,
      ∀ thread version result, config.locals thread = .returned version result →
        ∃ pointer context, result = some pointer ∧
          config.shared.contexts.made[pointer]? = some context ∧ context.version = version ∧
          ∀ name item, host.find name (context.hostModule host) = some item ↔
            item.name = name ∧ (item ∈ baseExports ∨
              item ∈ levelExports ∧ 3 ≤ version.toNat ∧ version.toNat < 2 ^ 31) := by
  intro config visited thread version result returned
  obtain ⟨latest, kept⟩ := kept_of_states schedule config visited
  obtain ⟨pointer, is_, context⟩ := returned_got kept returned
  refine ⟨pointer, _, is_, context, rfl, fun name item => ?_⟩
  have apart := names_nodup.sublist
    ((registerInstrinsics_starts version.toInt32).sublist.map Export.name)
  have found := @HostModule.find_appendAll host keeps _ apart host.new
    (fun other _ => keeps.new other.name) name item
  refine found.trans ?_
  rw [keeps.new, mem_registerInstrinsics_iff, level_iff, and_comm]
  simp only [reduceCtorEq, or_false]

/-- A host module that keeps its exports in a list. -/
@[reducible] def listedHost : HostModule where
  State := List Export
  new := []
  append item state := state ++ [item]
  find name state := state.find? fun item => item.name = name

theorem listedHost_keeps : listedHost.Keeps where
  new _ := rfl
  append item state absent name := by
    change (state ++ [item]).find? _ = if name = item.name then some item else state.find? _
    rw [List.find?_append]
    by_cases same : name = item.name
    · subst same
      have none_ : state.find? (fun other => decide (other.name = item.name)) = none := absent
      rw [if_pos rfl, none_, Option.none_or, List.find?_singleton, if_pos (decide_eq_true rfl)]
    · rw [if_neg same, List.find?_singleton, if_neg, Option.or_none]
      simpa using Ne.symm same

theorem context_exports_two : ∃ pointer context, some 1 = some pointer ∧
    (Contexts.made ⟨[.new 5, .new 3], some 1⟩)[pointer]? = some context ∧
    context.version = 3 ∧ ∀ item ∈ levelExports,
      listedHost.find item.name (context.hostModule listedHost) = some item := by
  have visited := @List.getLast_mem _ ((callers.interleaving Bool).states (start Bool) twoCalls)
    (List.cons_ne_nil _ _)
  obtain ⟨pointer, context, is_, found, version, exports⟩ :=
    context_exports listedHost_keeps twoCalls _ visited false 3 (some 1) rfl
  exact ⟨pointer, context, is_, found, version, fun item inside =>
    (exports item.name item).mpr ⟨rfl, .inr ⟨inside, by decide⟩⟩⟩

end XProject.Engine
