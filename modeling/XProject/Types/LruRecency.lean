import XProject.Types.LruReference

/-!
# How long an entry stays

What stands in front of an entry are the keys used since it was used last, each once. The
entry stays exactly as long as there are fewer of them than the cache may hold.
-/

namespace XProject.Base

open XProject.Std

variable {Key Value : Type} [DecidableEq Key]

namespace LruCache

/-- The access uses the key and leaves the value with it: it puts the pair, or finds it. -/
def Access.Uses (key : Key) (value : Value) : Access Key Value → Reply Value → Prop
  | .put other written, _ => other = key ∧ written = value
  | .get other, .found (some held) => other = key ∧ held = value
  | _, _ => False

/-- The access neither uses nor erases the key. -/
def Access.Spares (key : Key) : Access Key Value → Prop
  | .put other _ | .get other | .erase other => other ≠ key
  | .contain _ | .size => True

/-- The keys used since, latest first, after one more access and its answer. -/
def pass (used : List Key) : Access Key Value × Reply Value → List Key
  | (.put key _, _) | (.get key, .found (some _)) => key :: used.filter fun other => other ≠ key
  | (.erase key, _) => used.filter fun other => other ≠ key
  | _ => used

/-- The keys used and not erased in the course of some accesses. -/
def usedSince (trace : List (Access Key Value × Reply Value)) : List Key := trace.foldl pass []

end LruCache

namespace Reference

open LruCache (without putPairs)

/-- The entry is held, the keys used since in front of it. -/
def Behind (reference : Reference Key Value) (key : Key) (value : Value) (used : List Key) : Prop :=
  ∃ front back, reference.held = front ++ (key, value) :: back ∧ front.map Prod.fst = used

/-- The key is not held. -/
def Gone (reference : Reference Key Value) (key : Key) : Prop :=
  key ∉ reference.held.map Prod.fst

variable {reference : Reference Key Value} {key : Key} {value : Value} {used : List Key}

/-- What stands in front of a held entry leaves room for it. -/
theorem Behind.fewer (behind : reference.Behind key value used) :
    used.length < reference.maxSize := by
  obtain ⟨front, back, held, rfl⟩ := behind
  have bounded := reference.bounded
  rw [held, List.length_append, List.length_cons] at bounded
  rw [List.length_map]
  omega

/-- Keys are distinct, so the entry's own is not among those in front. -/
theorem Behind.absent (behind : reference.Behind key value used) : key ∉ used := by
  obtain ⟨front, back, held, rfl⟩ := behind
  have distinct := reference.keysDistinct
  rw [held, List.map_append, List.map_cons, List.nodup_append] at distinct
  exact fun member => distinct.2.2 key member key (List.mem_cons_self ..) rfl

theorem keys_without (other : Key) (held : List (Key × Value)) :
    (without other held).map Prod.fst = (held.map Prod.fst).filter fun key => key ≠ other := by
  rw [List.filter_map]
  rfl

/-- Dropping another key leaves the entry between the rest. -/
theorem without_around {other : Key} (differs : other ≠ key) (front back : List (Key × Value)) :
    without other (front ++ (key, value) :: back) =
      without other front ++ (key, value) :: without other back := by
  simp [without, List.filter_append, Ne.symm differs]

theorem Behind.erase {other : Key} (behind : reference.Behind key value used)
    (differs : other ≠ key) :
    (reference.erase other).Behind key value (used.filter fun key => key ≠ other) := by
  obtain ⟨front, back, held, rfl⟩ := behind
  refine ⟨without other front, without other back, ?_, keys_without other front⟩
  change without other reference.held = _
  rw [held, without_around differs]

/-- Another entry is put in front, and this one is dropped when there is no more room for it. -/
theorem Behind.put {other : Key} {written : Value} (behind : reference.Behind key value used)
    (differs : other ≠ key) :
    let now := other :: used.filter fun key => key ≠ other
    if now.length < reference.maxSize then (reference.put other written).Behind key value now
    else (reference.put other written).Gone key := by
  intro now
  have absent := behind.absent
  obtain ⟨front, back, held, rfl⟩ := behind
  have keys : ((other, written) :: without other front).map Prod.fst = now := by
    rw [List.map_cons, keys_without]
  have length : ((other, written) :: without other front).length = now.length := by
    rw [← keys, List.length_map]
  have whole : (reference.put other written).held =
      (((other, written) :: without other front) ++ (key, value) :: without other back).take
        reference.maxSize := by
    change (putPairs other written reference.held).take reference.maxSize = _
    rw [held, putPairs, without_around differs]
    rfl
  by_cases room : now.length < reference.maxSize
  · rw [if_pos room]
    obtain ⟨more, total⟩ := Nat.exists_eq_add_of_lt room
    refine ⟨_, (without other back).take more, ?_, keys⟩
    have left : reference.maxSize - now.length = more + 1 := by omega
    rw [whole, List.take_append, length, left, List.take_succ_cons,
      List.take_of_length_le (by omega)]
  · rw [if_neg room, Gone, whole, List.take_append_of_le_length (by omega)]
    intro member
    have inFront := ((List.take_sublist _ _).map Prod.fst).subset member
    rw [keys] at inFront
    rcases List.mem_cons.mp inFront with same | rest
    · exact differs same.symm
    · exact absent (List.mem_of_mem_filter rest)

/-- An entry that is found is brought to the front, with room for this one behind it. -/
theorem Behind.get {other : Key} (behind : reference.Behind key value used)
    (differs : other ≠ key) :
    (reference.get other).2.Behind key value
      (LruCache.pass used (.get other, .found (reference.get other).1)) := by
  obtain ⟨answer, held', _⟩ := reference.get_eq other
  rw [answer]
  cases found : reference.held.find? fun pair => pair.1 = other with
  | none =>
      obtain ⟨front, back, held, keys⟩ := behind
      rw [found] at held'
      exact ⟨front, back, held'.trans held, keys⟩
  | some pair =>
      obtain ⟨front, back, held, rfl⟩ := behind
      have same : pair.1 = other := by simpa using List.find?_some found
      rw [found] at held'
      refine ⟨pair :: without other front, without other back, ?_, ?_⟩
      · rw [held', held, without_around differs]
        rfl
      · rw [List.map_cons, keys_without, same]
        rfl

/-- A key that is gone comes back only when it is put. -/
theorem Gone.access {item : LruCache.Access Key Value} (gone : reference.Gone key)
    (spares : item.Spares key) : (reference.access item).2.Gone key := by
  have without_ : ∀ other, key ∉ (without other reference.held).map Prod.fst :=
    fun other member => gone ((List.filter_sublist.map _).subset member)
  cases item with
  | put other written =>
      intro member
      have put := ((List.take_sublist _ _).map Prod.fst).subset member
      rw [putPairs, List.map_cons] at put
      rcases List.mem_cons.mp put with same | rest
      · exact spares same.symm
      · exact without_ other rest
  | get other =>
      obtain ⟨_, held', _⟩ := reference.get_eq other
      change key ∉ (reference.get other).2.held.map Prod.fst
      rw [held']
      cases found : reference.held.find? fun pair => pair.1 = other with
      | none => exact gone
      | some pair =>
          have same : pair.1 = other := by simpa using List.find?_some found
          rw [List.map_cons, same, List.mem_cons, not_or]
          exact ⟨Ne.symm spares, without_ other⟩
  | erase other => exact without_ other
  | contain other => exact gone
  | size => exact gone

/-- What an access leaves of an entry behind the keys used since. -/
theorem Behind.access {item : LruCache.Access Key Value} (behind : reference.Behind key value used)
    (spares : item.Spares key) :
    let now := LruCache.pass used (item, (reference.access item).1)
    if now.length < reference.maxSize then (reference.access item).2.Behind key value now
    else (reference.access item).2.Gone key := by
  intro now
  have kept : (reference.access item).2.maxSize = reference.maxSize →
      (reference.access item).2.Behind key value now → if now.length < reference.maxSize then
        (reference.access item).2.Behind key value now
      else (reference.access item).2.Gone key := by
    intro size after
    have room := after.fewer
    rw [size] at room
    rw [if_pos room]
    exact after
  cases item with
  | put other written => exact behind.put spares
  | get other => exact kept (reference.get_eq other).2.2 (behind.get spares)
  | erase other => exact kept rfl (behind.erase spares)
  | contain other => exact kept rfl behind
  | size => exact kept rfl behind

/-- The maximum is not touched by an access. -/
theorem access_maxSize (item : LruCache.Access Key Value) :
    (reference.access item).2.maxSize = reference.maxSize := by
  cases item with
  | get other => exact (reference.get_eq other).2.2
  | put other written => rfl
  | erase other => rfl
  | contain other => rfl
  | size => rfl

/-- Right after it was used, nothing is in front of the entry. -/
theorem behind_of_uses {item : LruCache.Access Key Value}
    (uses : item.Uses key value (reference.access item).1) :
    if 0 < reference.maxSize then (reference.access item).2.Behind key value []
    else (reference.access item).2.Gone key := by
  cases item with
  | put other written =>
      obtain ⟨rfl, rfl⟩ := uses
      have whole : (reference.put other written).held =
          (putPairs other written reference.held).take reference.maxSize := rfl
      cases most : reference.maxSize with
      | zero =>
          rw [if_neg (Nat.lt_irrefl 0), Gone]
          change other ∉ (reference.put other written).held.map Prod.fst
          rw [whole, most, List.take_zero]
          exact List.not_mem_nil
      | succ room =>
          rw [if_pos room.succ_pos]
          refine ⟨[], (without other reference.held).take room, ?_, rfl⟩
          change (reference.put other written).held = _
          rw [whole, most, putPairs, List.take_succ_cons]
          rfl
  | get other =>
      obtain ⟨answer, held', size⟩ := reference.get_eq other
      change LruCache.Access.Uses key value (.get other) (.found (reference.get other).1) at uses
      cases found : reference.held.find? fun pair => pair.1 = other with
      | none =>
          rw [answer, found] at uses
          exact uses.elim
      | some pair =>
          rw [answer, found] at uses
          obtain ⟨rfl, rfl⟩ := uses
          have same : pair.1 = other := by simpa using List.find?_some found
          rw [found] at held'
          have behind : (reference.get other).2.Behind other pair.2 [] :=
            ⟨[], without other reference.held, by rw [held', ← same]; rfl, rfl⟩
          have room : 0 < reference.maxSize := by
            rw [← size]
            exact behind.fewer
          rw [if_pos room]
          exact behind
  | erase other => exact uses.elim
  | contain other => exact uses.elim
  | size => exact uses.elim

theorem step_eq {item : LruCache.Access Key Value} {output : LruCache.Reply Value}
    {next : Reference Key Value} (taken : (machine Key Value).step reference item =
      some (output, next)) : output = (reference.access item).1 ∧ next = (reference.access item).2 :=
  have same : reference.access item = (output, next) := Option.some.inj taken
  ⟨(congrArg Prod.fst same).symm, (congrArg Prod.snd same).symm⟩

/-- Gone for the rest of a run that does not put the key. -/
theorem Gone.run {items : List (LruCache.Access Key Value)} (gone : reference.Gone key)
    (spared : ∀ item ∈ items, item.Spares key) {answers : List (LruCache.Reply Value)}
    {final : Reference Key Value}
    (ran : (machine Key Value).run reference items = some (answers, final)) : final.Gone key := by
  induction items generalizing reference answers with
  | nil =>
      cases ran
      exact gone
  | cons item items ih =>
      obtain ⟨output, next, later, taken, rest, _⟩ := Machine.run_cons_eq_some.mp ran
      obtain ⟨rfl, rfl⟩ := step_eq taken
      exact ih (gone.access (spared item (by simp)))
        (fun other member => spared other (List.mem_cons_of_mem _ member)) rest

/-- The entry is there at the end of a run exactly when there were never too many keys used since.
By induction on the run. -/
theorem Behind.run {items : List (LruCache.Access Key Value)}
    (behind : reference.Behind key value used) (spared : ∀ item ∈ items, item.Spares key)
    {answers : List (LruCache.Reply Value)} {final : Reference Key Value}
    (ran : (machine Key Value).run reference items = some (answers, final)) :
    ((∀ count, (((items.zip answers).take count).foldl LruCache.pass used).length <
        reference.maxSize) → ∃ used, final.Behind key value used) ∧
      ((∃ count, reference.maxSize ≤
        (((items.zip answers).take count).foldl LruCache.pass used).length) → final.Gone key) := by
  induction items generalizing reference used answers with
  | nil =>
      cases ran
      refine ⟨fun _ => ⟨used, behind⟩, fun ⟨count, many⟩ => ?_⟩
      rw [List.zip_nil_left, List.take_nil, List.foldl_nil] at many
      exact absurd behind.fewer (Nat.not_lt.mpr many)
  | cons item items ih =>
      obtain ⟨output, next, later, taken, rest, rfl⟩ := Machine.run_cons_eq_some.mp ran
      obtain ⟨rfl, rfl⟩ := step_eq taken
      have sparedRest := fun other member => spared other (List.mem_cons_of_mem _ member)
      have size := reference.access_maxSize item
      have step := behind.access (spared item (by simp))
      dsimp only at step
      split at step
      · rename_i room
        obtain ⟨stays, goes⟩ := ih step sparedRest rest
        rw [size] at stays goes
        refine ⟨fun few => stays fun count => few (count + 1), fun ⟨count, many⟩ => ?_⟩
        cases count with
        | zero => exact absurd behind.fewer (Nat.not_lt.mpr many)
        | succ count => exact goes ⟨count, many⟩
      · rename_i full
        exact ⟨fun few => absurd (few 1) full, fun _ => step.run sparedRest rest⟩

end Reference

open Reference

/-- What `Get` answers for an entry the reference holds, or does not. -/
theorem get_of_represents {cache : LruCache Key Value} {reference : Reference Key Value}
    (represents : Represents cache reference) (key : Key) :
    (cache.get key).map Prod.fst = some (reference.get key).1 := by
  obtain ⟨output, next, other, accessed, answered, _⟩ :=
    simulation.step cache reference (.get key) represents
  obtain ⟨rfl, _⟩ := step_eq answered
  obtain ⟨result, ran, same⟩ := Option.map_eq_some_iff.mp accessed
  injection congrArg Prod.fst same with value
  rw [ran, Option.map_some, value]

theorem get_of_behind {reference : Reference Key Value} {key : Key} {value : Value}
    {used : List Key} (behind : reference.Behind key value used) :
    (reference.get key).1 = some value := by
  have absent := behind.absent
  obtain ⟨front, back, held, rfl⟩ := behind
  have skipped : front.find? (fun pair => decide (pair.1 = key)) = none := by
    rw [List.find?_eq_none]
    intro pair member
    rw [decide_eq_true_iff]
    rintro rfl
    exact absent (List.mem_map_of_mem member)
  rw [(reference.get_eq key).1, held, List.find?_append, skipped]
  simp

theorem get_of_gone {reference : Reference Key Value} {key : Key} (gone : reference.Gone key) :
    (reference.get key).1 = none := by
  rw [(reference.get_eq key).1, Option.map_eq_none_iff, List.find?_eq_none]
  intro pair member
  rw [decide_eq_true_iff]
  rintro rfl
  exact gone (List.mem_map_of_mem member)

/-- Behind any history, an entry that is put or found stays as long as the keys used since, those
erased left out, are fewer than the maximum: then `Get` still returns its value. Once they were
as many, `Get` fails, until the key is put again. -/
theorem kept_while_recent {maxSize : Nat} {history : List (LruCache.Access Key Value)}
    {replies : List (LruCache.Reply Value)} {before cache : LruCache Key Value}
    (ran : (LruCache.accessMachine Key Value).run (LruCache.new maxSize) history =
      some (replies, before))
    {touch : LruCache.Access Key Value} {reply : LruCache.Reply Value}
    (touched : before.access touch = some (reply, cache)) {key : Key} {value : Value}
    (uses : touch.Uses key value reply) {since : List (LruCache.Access Key Value)}
    (spared : ∀ item ∈ since, item.Spares key) :
    ∃ answers after,
      (LruCache.accessMachine Key Value).run cache since = some (answers, after) ∧
      ((∀ count, (LruCache.usedSince ((since.zip answers).take count)).length < maxSize) →
        (after.get key).map Prod.fst = some (some value)) ∧
      ((∃ count, maxSize ≤ (LruCache.usedSince ((since.zip answers).take count)).length) →
        (after.get key).map Prod.fst = some none) := by
  have new : Represents (LruCache.new maxSize) (Reference.new maxSize : Reference Key Value) :=
    ⟨.ofNew maxSize, rfl, rfl, rfl⟩
  obtain ⟨_, low, reference, cacheRun, referenceRun, represents⟩ := simulation.run_eq new history
  cases ran.symm.trans cacheRun
  have size : reference.maxSize = maxSize := by
    have kept : ∀ (state : Reference Key Value) item output next, state.maxSize = maxSize →
        (machine Key Value).step state item = some (output, next) → next.maxSize = maxSize := by
      intro state item output next same taken
      obtain ⟨_, rfl⟩ := step_eq taken
      exact (state.access_maxSize item).trans same
    exact @Machine.run_preserves _ _ (machine Key Value) (fun state => state.maxSize = maxSize) kept
      _ _ _ _ rfl referenceRun
  obtain ⟨_, _, _, accessed, taken, represents⟩ :=
    simulation.step before reference touch represents
  cases touched.symm.trans accessed
  obtain ⟨rfl, rfl⟩ := step_eq taken
  obtain ⟨answers, after, final, sinceRun, finalRun, representsFinal⟩ :=
    simulation.run_eq represents since
  have start := behind_of_uses uses
  have sizeNow := (reference.access_maxSize touch).trans size
  rw [size] at start
  refine ⟨answers, after, sinceRun, ?_⟩
  rw [get_of_represents representsFinal]
  split at start
  · obtain ⟨stays, goes⟩ := start.run spared finalRun
    rw [sizeNow] at stays goes
    refine ⟨fun few => ?_, fun many => congrArg some (get_of_gone (goes many))⟩
    obtain ⟨used, behind⟩ := stays few
    exact congrArg some (get_of_behind behind)
  · rename_i none_
    exact ⟨fun few => absurd (few 0) none_,
      fun _ => congrArg some (get_of_gone (start.run spared finalRun))⟩

/-- Two entries may be held. The first is found again, so a third one takes the place of the
second, and the first is still there. -/
theorem kept_while_recent_two :
    let history : List (LruCache.Access Nat Nat) := [.put 1 10, .put 2 20]
    ∃ before cache after,
      (LruCache.accessMachine Nat Nat).run (LruCache.new 2) history =
        some ([.done, .done], before) ∧
      before.access (.get 1) = some (.found (some 10), cache) ∧
      (LruCache.accessMachine Nat Nat).run cache [.put 3 30, .get 2, .get 3] =
        some ([.done, .found none, .found (some 30)], after) ∧
      (after.get 1).map Prod.fst = some (some 10) := by
  intro history
  have spared : ∀ item ∈ [LruCache.Access.put 3 30, .get 2, .get 3],
      @LruCache.Access.Spares Nat Nat 1 item := by
    simp [LruCache.Access.Spares]
  obtain ⟨answers, after, ran, few, _⟩ :=
    @kept_while_recent Nat Nat _ 2 history _ _ _ rfl (.get 1) (.found (some 10)) rfl 1 10
      ⟨rfl, rfl⟩ _ spared
  have answered : answers = [.done, .found none, .found (some 30)] :=
    (congrArg Prod.fst (Option.some.inj ran)).symm
  subst answered
  refine ⟨_, _, after, rfl, rfl, ran, few fun count => ?_⟩
  rcases count with _ | _ | _ | count
  · decide
  · decide
  · decide
  · simp [LruCache.usedSince, LruCache.pass]

end XProject.Base
