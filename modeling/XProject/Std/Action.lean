import Mathlib.Data.Vector.Basic
import Mathlib.Order.Defs.Unbundled

/-!
# State actions

Ways to reason about a program in a state monad without unfolding it.
`Within` says that every run relates its start to its end, whatever happens in
between; for a preorder it follows the structure of the program. `Takes` says
what an action does to the input in front of it: it consumes exactly the given
items and returns a value. `Detects` says what it does when the input ends
inside these items: it ends in a bad state. `Judges` says when it takes its items
and when they make it end in a bad state. `Pays` says what it must have used up for
what it returns. Each has a rule for each way of combining actions.
-/

namespace XProject.Std.Action

universe u v w

variable {σ : Type u} {α β : Type u}

/-- Repeat a step on an accumulator. -/
def iterate (step : β → StateM σ β) : (count : Nat) → β → StateM σ β
  | 0, sofar => pure sofar
  | count + 1, sofar => step sofar >>= iterate step count

/-! ## What every run keeps -/

/-- Every run of the action relates its start to its end. -/
def Within (relation : σ → σ → Prop) (action : StateM σ α) : Prop :=
  ∀ state, relation state (action.run state).2

section Within

variable {relation : σ → σ → Prop} [IsPreorder σ relation]

omit [IsPreorder σ relation] in
theorem Within.mono {weaker : σ → σ → Prop} {action : StateM σ α}
    (implies : ∀ before after, relation before after → weaker before after)
    (within : Within relation action) : Within weaker action :=
  fun state => implies _ _ (within state)

theorem Within.pure (value : α) : Within relation (Pure.pure value : StateM σ α) :=
  fun state => refl_of relation state

theorem Within.bind {action : StateM σ α} {next : α → StateM σ β} (head : Within relation action)
    (tail : ∀ value, Within relation (next value)) : Within relation (action >>= next) :=
  fun state => trans_of relation (head state) (tail _ _)

omit [IsPreorder σ relation] in
theorem Within.ite {condition : Prop} [Decidable condition] {yes no : StateM σ α}
    (holds : condition → Within relation yes) (fails : ¬condition → Within relation no) :
    Within relation (if condition then yes else no) := by
  by_cases chosen : condition
  · rw [if_pos chosen]
    exact holds chosen
  · rw [if_neg chosen]
    exact fails chosen

theorem Within.iterate {step : β → StateM σ β} (each : ∀ sofar, Within relation (step sofar))
    (count : Nat) (sofar : β) : Within relation (iterate step count sofar) := by
  induction count generalizing sofar with
  | zero => exact .pure sofar
  | succ count ih => exact .bind (each sofar) ih

theorem Within.mapM {f : α → StateM σ β} (each : ∀ item, Within relation (f item))
    (items : List α) : Within relation (items.mapM f) := by
  induction items with
  | nil => exact .pure []
  | cons item items ih =>
      rw [List.mapM_cons]
      exact .bind (each item) fun value => .bind ih fun values => .pure (value :: values)

theorem Within.mmap {f : α → StateM σ β} (each : ∀ item, Within relation (f item)) {size : Nat}
    (items : List.Vector α size) : Within relation (items.mmap f) := by
  induction items using List.Vector.inductionOn with
  | nil => exact .pure List.Vector.nil
  | cons ih =>
      rw [List.Vector.mmap_cons]
      exact .bind (each _) fun value => .bind ih fun values => .pure _

end Within

/-! ## What every run returns -/

/-- Every run of the action returns a value with the property. -/
def Returns (post : α → Prop) (action : StateM σ α) : Prop :=
  ∀ state, post (action.run state).1

theorem Returns.mmap {f : α → StateM σ β} {post : β → Prop}
    (each : ∀ item, Returns post (f item)) {size : Nat} (items : List.Vector α size) :
    Returns (fun values => ∀ value ∈ values.toList, post value) (items.mmap f) := by
  induction items using List.Vector.inductionOn with
  | nil =>
      intro state value member
      exact absurd member List.not_mem_nil
  | cons ih =>
      intro state value member
      rw [List.Vector.mmap_cons] at member
      rcases List.mem_cons.mp member with rfl | member
      · exact each _ state
      · exact ih _ value member

/-! ## What an action takes from its input -/

/-- With the items in front of it, and whatever follows them, the action returns
the value and leaves what follows. `ahead` says what is in front of a state. -/
def Takes {ι : Type v} (ahead : List ι → σ → Prop) (action : StateM σ α) (items : List ι)
    (value : α) : Prop :=
  ∀ rest state, ahead (items ++ rest) state →
    (action.run state).1 = value ∧ ahead rest (action.run state).2

section Takes

variable {ι : Type v} {ahead : List ι → σ → Prop}

/-- The run of an action that takes what is in front of it. -/
theorem Takes.run {action : StateM σ α} {items rest : List ι} {value : α}
    (taken : Takes ahead action items value) {state : σ} (front : ahead (items ++ rest) state) :
    ∃ later, action.run state = (value, later) ∧ ahead rest later := by
  obtain ⟨returned, left⟩ := taken rest state front
  exact ⟨_, Prod.ext returned rfl, left⟩

theorem Takes.pure (value : α) : Takes ahead (Pure.pure value) [] value :=
  fun _ _ front => ⟨rfl, front⟩

theorem Takes.bind {action : StateM σ α} {next : α → StateM σ β} {items more : List ι} {value : α}
    {result : β} (head : Takes ahead action items value)
    (tail : Takes ahead (next value) more result) :
    Takes ahead (action >>= next) (items ++ more) result := by
  intro rest state front
  rw [List.append_assoc] at front
  obtain ⟨returned, later⟩ := head (more ++ rest) state front
  have final := tail rest _ later
  rw [← returned] at final
  exact final

/-- An action that leaves the state alone can come first; what follows may rely
on what it returns. -/
theorem Takes.after {action : StateM σ α} {next : α → StateM σ β} {post : α → Prop}
    {items : List ι} {result : β} (still : Within Eq action) (returns : Returns post action)
    (tail : ∀ value, post value → Takes ahead (next value) items result) :
    Takes ahead (action >>= next) items result := by
  intro rest state front
  have unchanged := still state
  rw [unchanged] at front
  exact tail _ (returns state) rest _ front

/-- What comes last may take nothing. -/
theorem Takes.bind_nil {action : StateM σ α} {next : α → StateM σ β} {items : List ι} {value : α}
    {result : β} (head : Takes ahead action items value)
    (last : Takes ahead (next value) [] result) :
    Takes ahead (action >>= next) items result := by
  have whole := head.bind last
  rwa [List.append_nil] at whole

/-- What comes last may only return something. -/
theorem Takes.finish {action : StateM σ α} {next : α → StateM σ β} {items : List ι} {value : α}
    {result : β} (head : Takes ahead action items value) (last : next value = Pure.pure result) :
    Takes ahead (action >>= next) items result :=
  head.bind_nil (last ▸ .pure result)

/-- Steps that take the items of one entry each fold the entries. -/
theorem Takes.iterate {γ : Type w} {step : β → StateM σ β} {spell : γ → List ι}
    {advance : β → γ → β} {entries : List γ}
    (each : ∀ entry ∈ entries, ∀ sofar,
      Takes ahead (step sofar) (spell entry) (advance sofar entry)) (sofar : β) :
    Takes ahead (iterate step entries.length sofar) (entries.flatMap spell)
      (entries.foldl advance sofar) := by
  induction entries generalizing sofar with
  | nil => exact .pure sofar
  | cons entry entries ih =>
      have head := each entry (by simp) sofar
      have tail := ih (fun other member => each other (List.mem_cons_of_mem _ member))
        (advance sofar entry)
      exact head.bind tail

/-- Element by element into the destinations, each of which stores its own entry. -/
theorem Takes.mapM {γ : Type w} {f : α → StateM σ β} {spell : γ → List ι} {store : α → γ → β}
    {entries : List γ} {dests : List α}
    (each : ∀ entry ∈ entries, ∀ dest ∈ dests,
      Takes ahead (f dest) (spell entry) (store dest entry))
    (length : dests.length = entries.length) :
    Takes ahead (dests.mapM f) (entries.flatMap spell) (List.zipWith store dests entries) := by
  induction entries generalizing dests with
  | nil =>
      rw [List.length_eq_zero_iff.mp length]
      exact .pure []
  | cons entry entries ih =>
      cases dests with
      | nil => simp at length
      | cons dest dests =>
          have head := each entry (by simp) dest (by simp)
          have tail := ih (fun other member into place =>
            each other (List.mem_cons_of_mem _ member) into (List.mem_cons_of_mem _ place))
            (Nat.succ.inj length)
          rw [List.mapM_cons]
          exact head.bind (tail.finish rfl)

theorem Takes.mmap {γ : Type w} {f : α → StateM σ β} {spell : γ → List ι} {store : α → γ → β}
    {size : Nat} {entries : List.Vector γ size} {dests : List.Vector α size}
    (each : ∀ entry ∈ entries.toList, ∀ dest ∈ dests.toList,
      Takes ahead (f dest) (spell entry) (store dest entry)) :
    Takes ahead (dests.mmap f) (entries.toList.flatMap spell)
      (List.Vector.map₂ store dests entries) := by
  induction entries, dests using List.Vector.inductionOn₂ with
  | nil => exact .pure List.Vector.nil
  | @cons size entry dest entries dests ih =>
      rw [List.Vector.toList_cons, List.Vector.toList_cons] at each
      rw [List.Vector.toList_cons]
      have head := each entry (by simp) dest (by simp)
      have tail := ih fun other member into place =>
        each other (List.mem_cons_of_mem _ member) into (List.mem_cons_of_mem _ place)
      rw [List.Vector.mmap_cons]
      exact head.bind (tail.finish rfl)

end Takes

/-! ## What an action does with too few items -/

/-- With only a proper part of the items in front of it, the action ends in a bad state. -/
def Detects {ι : Type v} (ahead : List ι → σ → Prop) (bad : σ → Prop) (action : StateM σ α)
    (items : List ι) : Prop :=
  ∀ front, front <+: items → front ≠ items → ∀ state, ahead front state →
    bad (action.run state).2

/-- A bad state stays bad. -/
def Spoils (bad : σ → Prop) (before after : σ) : Prop := bad before → bad after

instance (bad : σ → Prop) : IsPreorder σ (Spoils bad) where
  refl _ := id
  trans _ _ _ head tail := tail ∘ head

section Detects

variable {ι : Type v} {ahead : List ι → σ → Prop} {bad : σ → Prop}

/-- A part of two sequences ends inside the first or behind it. -/
theorem proper_append_cases {items more front : List ι} (part : front <+: items ++ more)
    (proper : front ≠ items ++ more) :
    (front <+: items ∧ front ≠ items) ∨
      ∃ further, front = items ++ further ∧ further <+: more ∧ further ≠ more := by
  rcases List.prefix_or_prefix_of_prefix part (List.prefix_append items more) with inside | ⟨further, rfl⟩
  · by_cases whole : front = items
    · subst whole
      refine .inr ⟨[], (List.append_nil front).symm, List.nil_prefix, fun nothing => ?_⟩
      exact proper (by rw [← nothing, List.append_nil])
    · exact .inl ⟨inside, whole⟩
  · refine .inr ⟨further, rfl, (List.prefix_append_right_inj items).mp part, fun same => ?_⟩
    exact proper (by rw [same])

/-- There are never fewer than no items. -/
theorem Detects.nil (action : StateM σ α) : Detects ahead bad action [] :=
  fun _ part proper => absurd (List.prefix_nil.mp part) proper

/-- Too few items for the first action, or too few left for the second. -/
theorem Detects.bind {action : StateM σ α} {next : α → StateM σ β} {items more : List ι}
    {value : α} (taken : Takes ahead action items value) (head : Detects ahead bad action items)
    (tail : Detects ahead bad (next value) more)
    (spoils : ∀ value, Within (Spoils bad) (next value)) :
    Detects ahead bad (action >>= next) (items ++ more) := by
  intro front part proper state inFront
  rcases proper_append_cases part proper with ⟨inside, fewer⟩ | ⟨further, rfl, beyond, fewer⟩
  · exact spoils _ _ (head front inside fewer state inFront)
  · obtain ⟨later, ran, ahead'⟩ := taken.run inFront
    have final := tail further beyond fewer later ahead'
    rw [StateT.run_bind, ran]
    exact final

/-- Nothing is left for what comes last. -/
theorem Detects.finish {action : StateM σ α} {next : α → StateM σ β} {items : List ι}
    (head : Detects ahead bad action items) (spoils : ∀ value, Within (Spoils bad) (next value)) :
    Detects ahead bad (action >>= next) items :=
  fun front part proper state inFront => spoils _ _ (head front part proper state inFront)

/-- An action that leaves the state alone can come first. -/
theorem Detects.after {action : StateM σ α} {next : α → StateM σ β} {post : α → Prop}
    {items : List ι} (still : Within Eq action) (returns : Returns post action)
    (tail : ∀ value, post value → Detects ahead bad (next value) items) :
    Detects ahead bad (action >>= next) items := by
  intro front part proper state inFront
  have unchanged := still state
  rw [unchanged] at inFront
  exact tail _ (returns state) front part proper _ inFront

theorem Detects.iterate {γ : Type w} {step : β → StateM σ β} {spell : γ → List ι}
    {advance : β → γ → β} {entries : List γ}
    (taken : ∀ entry ∈ entries, ∀ sofar,
      Takes ahead (step sofar) (spell entry) (advance sofar entry))
    (each : ∀ entry ∈ entries, ∀ sofar, Detects ahead bad (step sofar) (spell entry))
    (spoils : ∀ sofar, Within (Spoils bad) (step sofar)) (sofar : β) :
    Detects ahead bad (iterate step entries.length sofar) (entries.flatMap spell) := by
  induction entries generalizing sofar with
  | nil => exact .nil _
  | cons entry entries ih =>
      have tail := ih (fun other member => taken other (List.mem_cons_of_mem _ member))
        (fun other member => each other (List.mem_cons_of_mem _ member)) (advance sofar entry)
      exact .bind (taken entry (by simp) sofar) (each entry (by simp) sofar) tail
        (.iterate spoils _)

theorem Detects.mapM {γ : Type w} {f : α → StateM σ β} {spell : γ → List ι} {store : α → γ → β}
    {entries : List γ} {dests : List α}
    (taken : ∀ entry ∈ entries, ∀ dest ∈ dests,
      Takes ahead (f dest) (spell entry) (store dest entry))
    (each : ∀ entry ∈ entries, ∀ dest ∈ dests, Detects ahead bad (f dest) (spell entry))
    (spoils : ∀ dest, Within (Spoils bad) (f dest)) (length : dests.length = entries.length) :
    Detects ahead bad (dests.mapM f) (entries.flatMap spell) := by
  induction entries generalizing dests with
  | nil => exact .nil _
  | cons entry entries ih =>
      cases dests with
      | nil => simp at length
      | cons dest dests =>
          have tail := ih (fun other member into place =>
            taken other (List.mem_cons_of_mem _ member) into (List.mem_cons_of_mem _ place))
            (fun other member into place =>
              each other (List.mem_cons_of_mem _ member) into (List.mem_cons_of_mem _ place))
            (Nat.succ.inj length)
          rw [List.mapM_cons]
          exact .bind (taken entry (by simp) dest (by simp)) (each entry (by simp) dest (by simp))
            (tail.finish fun _ => .pure _) fun _ => .bind (.mapM spoils _) fun _ => .pure _

theorem Detects.mmap {γ : Type w} {f : α → StateM σ β} {spell : γ → List ι} {store : α → γ → β}
    {size : Nat} {entries : List.Vector γ size} {dests : List.Vector α size}
    (taken : ∀ entry ∈ entries.toList, ∀ dest ∈ dests.toList,
      Takes ahead (f dest) (spell entry) (store dest entry))
    (each : ∀ entry ∈ entries.toList, ∀ dest ∈ dests.toList,
      Detects ahead bad (f dest) (spell entry))
    (spoils : ∀ dest, Within (Spoils bad) (f dest)) :
    Detects ahead bad (dests.mmap f) (entries.toList.flatMap spell) := by
  induction entries, dests using List.Vector.inductionOn₂ with
  | nil => exact .nil _
  | @cons size entry dest entries dests ih =>
      rw [List.Vector.toList_cons, List.Vector.toList_cons] at taken each
      rw [List.Vector.toList_cons]
      have tail := ih (fun other member into place =>
        taken other (List.mem_cons_of_mem _ member) into (List.mem_cons_of_mem _ place))
        fun other member into place =>
          each other (List.mem_cons_of_mem _ member) into (List.mem_cons_of_mem _ place)
      rw [List.Vector.mmap_cons]
      exact .bind (taken entry (by simp) dest (by simp)) (each entry (by simp) dest (by simp))
        (tail.finish fun _ => .pure _) fun _ => .bind (.mmap spoils _) fun _ => .pure _

end Detects

/-! ## What an action does with items it may refuse -/

/-- With the items in front of it, the action leaves what follows if the verdict
holds, and ends in a bad state if not. What it returns is not said. -/
def Judges {ι : Type v} (ahead : List ι → σ → Prop) (bad : σ → Prop) (action : StateM σ α)
    (items : List ι) (verdict : Prop) : Prop :=
  ∀ rest state, ahead (items ++ rest) state →
    (verdict → ahead rest (action.run state).2) ∧ (¬verdict → bad (action.run state).2)

section Judges

variable {ι : Type v} {ahead : List ι → σ → Prop} {bad : σ → Prop}

theorem Judges.congr {action : StateM σ α} {items : List ι} {verdict same : Prop}
    (judged : Judges ahead bad action items verdict) (equal : verdict ↔ same) :
    Judges ahead bad action items same := by
  intro rest state front
  rw [← equal]
  exact judged rest state front

/-- What is taken in any case is accepted. -/
theorem Takes.judges {action : StateM σ α} {items : List ι} {value : α}
    (taken : Takes ahead action items value) : Judges ahead bad action items True :=
  fun rest state front => ⟨fun _ => (taken rest state front).2, fun refused => absurd trivial refused⟩

/-- Once the first action has returned what it takes, the second decides. -/
theorem Takes.bind_judges {action : StateM σ α} {next : α → StateM σ β} {items more : List ι}
    {value : α} {verdict : Prop} (head : Takes ahead action items value)
    (tail : Judges ahead bad (next value) more verdict) :
    Judges ahead bad (action >>= next) (items ++ more) verdict := by
  intro rest state front
  rw [List.append_assoc] at front
  obtain ⟨later, ran, left⟩ := head.run front
  have final := tail rest later left
  rw [StateT.run_bind, ran]
  exact final

/-- Both have to accept; what the first refuses the second cannot mend. -/
theorem Judges.bind {action : StateM σ α} {next : α → StateM σ β} {items more : List ι}
    {first second : Prop} (head : Judges ahead bad action items first)
    (tail : ∀ value, Judges ahead bad (next value) more second)
    (spoils : ∀ value, Within (Spoils bad) (next value)) :
    Judges ahead bad (action >>= next) (items ++ more) (first ∧ second) := by
  intro rest state front
  rw [List.append_assoc] at front
  obtain ⟨accepted, refused⟩ := head (more ++ rest) state front
  by_cases passes : first
  · obtain ⟨left, failed⟩ := tail _ rest _ (accepted passes)
    exact ⟨fun both => left both.2, fun either => failed fun holds => either ⟨passes, holds⟩⟩
  · exact ⟨fun both => absurd both.1 passes, fun _ => spoils _ _ (refused passes)⟩

/-- What comes last may leave the state alone. -/
theorem Judges.finish {action : StateM σ α} {next : α → StateM σ β} {items : List ι}
    {verdict : Prop} (head : Judges ahead bad action items verdict)
    (still : ∀ value, Within Eq (next value)) :
    Judges ahead bad (action >>= next) items verdict := by
  intro rest state front
  have unchanged := still (action.run state).1 (action.run state).2
  have judged := head rest state front
  rw [unchanged] at judged
  exact judged

/-- An action that leaves the state alone can come first. -/
theorem Judges.after {action : StateM σ α} {next : α → StateM σ β} {items : List ι}
    {verdict : Prop} (still : Within Eq action)
    (tail : ∀ value, Judges ahead bad (next value) items verdict) :
    Judges ahead bad (action >>= next) items verdict := by
  intro rest state front
  have unchanged := still state
  rw [unchanged] at front
  exact tail _ rest _ front

theorem Judges.iterate {γ : Type w} {step : β → StateM σ β} {spell : γ → List ι}
    {verdict : γ → Prop} {entries : List γ}
    (each : ∀ entry ∈ entries, ∀ sofar,
      Judges ahead bad (step sofar) (spell entry) (verdict entry))
    (spoils : ∀ sofar, Within (Spoils bad) (step sofar)) (sofar : β) :
    Judges ahead bad (iterate step entries.length sofar) (entries.flatMap spell)
      (∀ entry ∈ entries, verdict entry) := by
  induction entries generalizing sofar with
  | nil => exact (Takes.pure sofar).judges.congr (by simp)
  | cons entry entries ih =>
      have tail := fun sofar => ih (fun other member => each other (List.mem_cons_of_mem _ member))
        sofar
      have whole := (each entry (by simp) sofar).bind tail fun _ => .iterate spoils _ _
      exact whole.congr List.forall_mem_cons.symm

theorem Judges.mapM {γ : Type w} {f : α → StateM σ β} {spell : γ → List ι}
    {verdict : γ → Prop} {entries : List γ} {dests : List α}
    (each : ∀ entry ∈ entries, ∀ dest, Judges ahead bad (f dest) (spell entry) (verdict entry))
    (spoils : ∀ dest, Within (Spoils bad) (f dest)) (length : dests.length = entries.length) :
    Judges ahead bad (dests.mapM f) (entries.flatMap spell) (∀ entry ∈ entries, verdict entry) := by
  induction entries generalizing dests with
  | nil =>
      rw [List.length_eq_zero_iff.mp length]
      exact (Takes.pure []).judges.congr (by simp)
  | cons entry entries ih =>
      cases dests with
      | nil => simp at length
      | cons dest dests =>
          have tail := ih (fun other member => each other (List.mem_cons_of_mem _ member))
            (Nat.succ.inj length)
          have whole := (each entry (by simp) dest).bind
            (fun value => tail.finish fun values => .pure (value :: values))
            fun _ => .bind (.mapM spoils _) fun _ => .pure _
          rw [List.mapM_cons]
          exact whole.congr List.forall_mem_cons.symm

theorem Judges.mmap {γ : Type w} {f : α → StateM σ β} {spell : γ → List ι}
    {verdict : γ → Prop} {size : Nat} {entries : List.Vector γ size} {dests : List.Vector α size}
    (each : ∀ entry ∈ entries.toList, ∀ dest,
      Judges ahead bad (f dest) (spell entry) (verdict entry))
    (spoils : ∀ dest, Within (Spoils bad) (f dest)) :
    Judges ahead bad (dests.mmap f) (entries.toList.flatMap spell)
      (∀ entry ∈ entries.toList, verdict entry) := by
  induction entries, dests using List.Vector.inductionOn₂ with
  | nil => exact (Takes.pure List.Vector.nil).judges.congr (by simp)
  | @cons size entry dest entries dests ih =>
      rw [List.Vector.toList_cons] at each ⊢
      have tail := ih fun other member => each other (List.mem_cons_of_mem _ member)
      have whole := (each entry (by simp) dest).bind
        (fun value => tail.finish fun values => .pure (value ::ᵥ values))
        fun _ => .bind (.mmap spoils _) fun _ => .pure _
      rw [List.Vector.mmap_cons]
      exact whole.congr List.forall_mem_cons.symm

end Judges

/-! ## What an action pays for what it returns -/

/-- From a good state the action ends in a bad one, or in a good one with as much used up as what
it returns is worth. -/
def Pays (good bad : σ → Prop) (left : σ → Nat) (action : StateM σ α) (worth : Nat → α → Prop) :
    Prop :=
  ∀ state, good state → bad (action.run state).2 ∨
    good (action.run state).2 ∧ ∃ paid, left (action.run state).2 + paid = left state ∧
      worth paid (action.run state).1

section Pays

variable {good bad : σ → Prop} {left : σ → Nat}

theorem Pays.mono {action : StateM σ α} {worth other : Nat → α → Prop}
    (pays : Pays good bad left action worth)
    (implies : ∀ paid value, worth paid value → other paid value) :
    Pays good bad left action other := by
  intro state start
  rcases pays state start with failed | ⟨kept, paid, used, bought⟩
  · exact .inl failed
  · exact .inr ⟨kept, paid, used, implies _ _ bought⟩

theorem Pays.pure {value : α} {worth : Nat → α → Prop} (free : worth 0 value) :
    Pays good bad left (Pure.pure value) worth :=
  fun _ start => .inr ⟨start, 0, rfl, free⟩

/-- What both paid is paid for what the second returns. -/
theorem Pays.bind {action : StateM σ α} {next : α → StateM σ β} {first : Nat → α → Prop}
    {worth : Nat → β → Prop} (head : Pays good bad left action first)
    (tail : ∀ paid value, first paid value →
      Pays good bad left (next value) fun more => worth (paid + more))
    (spoils : ∀ value, Within (Spoils bad) (next value)) :
    Pays good bad left (action >>= next) worth := by
  intro state start
  rcases head state start with failed | ⟨kept, paid, used, bought⟩
  · exact .inl (spoils _ _ failed)
  · rcases tail paid _ bought _ kept with failed | ⟨final, more, usedMore, boughtMore⟩
    · exact .inl failed
    · have together : left ((action >>= next).run state).2 + (paid + more) = left state := by
        rw [← used, ← usedMore, Nat.add_comm paid more, ← Nat.add_assoc]
        rfl
      exact .inr ⟨final, paid + more, together, boughtMore⟩

/-- An action that leaves the state alone can come first. -/
theorem Pays.after {action : StateM σ α} {next : α → StateM σ β} {post : α → Prop}
    {worth : Nat → β → Prop} (still : Within Eq action) (returns : Returns post action)
    (tail : ∀ value, post value → Pays good bad left (next value) worth) :
    Pays good bad left (action >>= next) worth := by
  intro state start
  have whole : (action >>= next).run state = (next (action.run state).1).run state :=
    congrArg (next (action.run state).1).run (still state).symm
  rw [whole]
  exact tail _ (returns state) state start

/-- What a pass keeps while it pays, a loop keeps. -/
theorem Pays.iterate {step : β → StateM σ β} {holds : Nat → Nat → β → Prop}
    (each : ∀ passes paid sofar, holds passes paid sofar →
      Pays good bad left (step sofar) fun more => holds (passes + 1) (paid + more))
    (spoils : ∀ sofar, Within (Spoils bad) (step sofar)) (count : Nat) {passes paid : Nat}
    {sofar : β} (start : holds passes paid sofar) :
    Pays good bad left (iterate step count sofar) fun more =>
      holds (passes + count) (paid + more) := by
  induction count generalizing passes paid sofar with
  | zero => exact .pure start
  | succ count ih =>
      refine (each passes paid sofar start).bind (fun more next kept => ?_)
        fun next => .iterate spoils count next
      refine (ih kept).mono fun last value final => ?_
      rwa [Nat.add_assoc, Nat.add_comm 1, Nat.add_assoc] at final

/-- Elements that are paid for one by one are paid for together. -/
theorem Pays.mapM {ι : Type v} {f : α → StateM σ β} {fits : β → Prop} {spell : β → List ι}
    {items : List α}
    (each : ∀ item ∈ items,
      Pays good bad left (f item) fun paid value => fits value ∧ (spell value).length ≤ paid)
    (spoils : ∀ item, Within (Spoils bad) (f item)) :
    Pays good bad left (items.mapM f) fun paid values =>
      values.length = items.length ∧ (∀ value ∈ values, fits value) ∧
        (values.flatMap spell).length ≤ paid := by
  induction items with
  | nil => exact .pure ⟨rfl, fun _ member => absurd member List.not_mem_nil, le_refl 0⟩
  | cons item items ih =>
      have tail := ih fun other member => each other (List.mem_cons_of_mem _ member)
      rw [List.mapM_cons]
      refine (each item (by simp)).bind (fun paid value head => ?_) fun value =>
        .bind (.mapM spoils items) fun values => .pure (value :: values)
      refine tail.bind (fun more values others => .pure ⟨?_, ?_, ?_⟩) fun values =>
        .pure (value :: values)
      · rw [List.length_cons, List.length_cons, others.1]
      · exact List.forall_mem_cons.mpr ⟨head.1, others.2.1⟩
      · have both := Nat.add_le_add head.2 others.2.2
        rwa [List.flatMap_cons, List.length_append]

theorem Pays.mmap {ι : Type v} {f : α → StateM σ β} {fits : β → Prop} {spell : β → List ι}
    {size : Nat} {items : List.Vector α size}
    (each : ∀ item ∈ items.toList,
      Pays good bad left (f item) fun paid value => fits value ∧ (spell value).length ≤ paid)
    (spoils : ∀ item, Within (Spoils bad) (f item)) :
    Pays good bad left (items.mmap f) fun paid values =>
      (∀ value ∈ values.toList, fits value) ∧
        (values.toList.flatMap spell).length ≤ paid := by
  induction items using List.Vector.inductionOn with
  | nil => exact .pure ⟨fun _ member => absurd member List.not_mem_nil, le_refl 0⟩
  | @cons size item items ih =>
      rw [List.Vector.toList_cons] at each
      have tail := ih fun other member => each other (List.mem_cons_of_mem _ member)
      rw [List.Vector.mmap_cons]
      refine (each item (by simp)).bind (fun paid value head => ?_) fun value =>
        .bind (.mmap spoils items) fun values => .pure (value ::ᵥ values)
      refine tail.bind (fun more values others => .pure ⟨?_, ?_⟩) fun values =>
        .pure (value ::ᵥ values)
      · rw [List.Vector.toList_cons]
        exact List.forall_mem_cons.mpr ⟨head.1, others.1⟩
      · have both := Nat.add_le_add head.2 others.2
        rwa [List.Vector.toList_cons, List.flatMap_cons, List.length_append]

end Pays
end XProject.Std.Action
