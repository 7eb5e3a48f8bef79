import Mathlib.Logic.Function.Basic
import XProject.Std.Machine

/-!
# Who closes a file

A `FileStream` closes the file it opened itself and leaves alone one it was given.
Moving hands the file over together with the duty to close it. Whatever a program does
with its streams, no file is closed twice or used after it was closed; the files nobody
closes are those whose stream was assigned to.
-/

namespace XProject.Base.FileHandles

open XProject.Std

/-- A `FILE *` that is not null: opened by a stream, or given to one. -/
inductive Handle where
  | opened (number : Nat)
  | given (number : Nat)
deriving DecidableEq

/-- `file_` and `should_close_` of a `FileStream`. -/
structure Fields where
  file : Option Handle
  shouldClose : Bool

namespace Fields

/-- What a stream is left with when it is moved from. -/
def empty : Fields := ⟨none, false⟩

/-- The number of the file, if a stream opened it. -/
def number : Fields → Option Nat
  | ⟨some (.opened number), _⟩ => some number
  | _ => none

/-- A stream is to close exactly a file that a stream opened. -/
def Closes (fields : Fields) : Prop := fields.shouldClose = true ↔ fields.number.isSome = true

end Fields

/-- The streams of a program by their addresses, the number of files opened, and the
files closed, latest first. -/
structure World where
  streams : Nat → Option Fields
  opened : Nat
  closed : List Handle

/-- What a program does with a stream. -/
inductive Act where
  | open_ (address : Nat) (found : Bool)
  | wrap (address : Nat) (file : Option Nat)
  | moveConstruct (address source : Nat)
  | moveAssign (target source : Nat)
  | write (address : Nat)
  | destroy (address : Nat)

namespace World

/-- No stream yet. -/
def start : World := ⟨fun _ => none, 0, []⟩

/-- A stream comes to an address, changes there or ends. -/
def put (address : Nat) (fields : Option Fields) (world : World) : World :=
  { world with streams := Function.update world.streams address fields }

/-- The body of `operator=(FileStream &&)`. -/
def assign (target source : Nat) (fields : Fields) (world : World) : World :=
  (world.put target (some fields)).put source (some .empty)

/-- `fclose`, which is undefined for a null pointer and for a closed file. -/
def fclose (file : Option Handle) (world : World) : Option World :=
  match file with
  | none => none
  | some file => if file ∈ world.closed then none else
      some { world with closed := file :: world.closed }

end World

/-- One act, with the file it uses. Streams are constructed where there is none, and only
living ones are used; to write to a closed file is undefined. -/
def step (world : World) : Act → Option (Option Handle × World)
  | .open_ address found =>
      match world.streams address with
      | some _ => none
      | none =>
          if found then
            let file := Handle.opened world.opened
            some (file, { world with opened := world.opened + 1 }.put address (some ⟨file, true⟩))
          else some (none, world.put address (some ⟨none, false⟩))
  | .wrap address file =>
      match world.streams address with
      | some _ => none
      | none => some (none, world.put address (some ⟨file.map .given, false⟩))
  | .moveConstruct address source =>
      match world.streams address, world.streams source with
      | none, some fields => some (none, world.assign address source fields)
      | _, _ => none
  | .moveAssign target source =>
      match world.streams target, world.streams source with
      | some _, some fields => some (none, world.assign target source fields)
      | _, _ => none
  | .write address =>
      match world.streams address with
      | none => none
      | some ⟨none, _⟩ => some (none, world)
      | some ⟨some file, _⟩ => if file ∈ world.closed then none else some (some file, world)
  | .destroy address =>
      match world.streams address with
      | none => none
      | some ⟨file, shouldClose⟩ =>
          if shouldClose then
            (world.fclose file).map fun closed => (file, closed.put address none)
          else some (none, world.put address none)

/-- A program's streams, act by act. -/
@[reducible] def machine : Machine Act (Option Handle) where
  State := World
  step := step

/-- The file that an act leaves without a stream to close it: that of a stream assigned to,
also when it is assigned to itself. -/
def lost : World × Act → Option Handle
  | (world, .moveAssign target _) =>
      match world.streams target with
      | some ⟨file, true⟩ => file
      | _ => none
  | _ => none

namespace World

/-- The number of the opened file that the stream at an address has. -/
def held (world : World) (address : Nat) : Option Nat :=
  (world.streams address).bind Fields.number

/-- A file that a stream opened has one stream to close it, or was closed, or lost, and nothing
else is closed. -/
structure Kept (gone : List Handle) (world : World) : Prop where
  closes : ∀ address fields, world.streams address = some fields → fields.Closes
  injective : ∀ first second number, world.held first = some number →
    world.held second = some number → first = second
  opened_iff : ∀ number, number < world.opened ↔
    (∃ address, world.held address = some number) ∨ .opened number ∈ world.closed ++ gone
  apart : ∀ address number, world.held address = some number →
    .opened number ∉ world.closed ++ gone
  distinct : (world.closed ++ gone).Nodup
  own : ∀ file ∈ world.closed ++ gone, ∃ number, file = .opened number

theorem start_kept : start.Kept [] := by
  constructor
  · nofun
  · nofun
  · intro number
    exact iff_of_false (Nat.not_lt_zero _) fun either => either.elim nofun nofun
  · nofun
  · exact List.nodup_nil
  · nofun

variable {world : World} {gone : List Handle} {address : Nat}

theorem held_put (other : Nat) (fields : Option Fields) :
    (world.put address fields).held other =
      if other = address then fields.bind Fields.number else world.held other := by
  by_cases here : other = address
  · simp [held, put, here]
  · simp [held, put, here]

/-- What closes in a stream put somewhere closes in all of them. -/
theorem Kept.closes_put (kept : world.Kept gone) {fields : Option Fields}
    (closes : ∀ new ∈ fields, new.Closes) :
    ∀ other old, (world.put address fields).streams other = some old → old.Closes := by
  intro other old found
  by_cases here : other = address
  · rw [put, here] at found
    exact closes old (by simpa using found)
  · have same : (world.put address fields).streams other = world.streams other := by
      simp [put, here]
    exact kept.closes other old (same ▸ found)

/-- A stream without a file of its own comes, changes or ends. -/
theorem Kept.quiet (kept : world.Kept gone) (before : world.held address = none)
    {fields : Option Fields} (closes : ∀ new ∈ fields, new.Closes)
    (after : fields.bind Fields.number = none) : (world.put address fields).Kept gone := by
  have same : (world.put address fields).held = world.held := by
    funext other
    rw [held_put, after]
    by_cases here : other = address
    · rw [if_pos here, here, before]
    · rw [if_neg here]
  refine ⟨kept.closes_put closes, ?_, ?_, ?_, kept.distinct, kept.own⟩
  · rw [same]
    exact kept.injective
  · rw [same]
    exact kept.opened_iff
  · rw [same]
    exact kept.apart

/-- A file is opened by a new stream. -/
theorem Kept.opened (kept : world.Kept gone) (before : world.held address = none) :
    ({ world with opened := world.opened + 1 }.put address
      (some ⟨some (.opened world.opened), true⟩)).Kept gone := by
  have now : ∀ other, ({ world with opened := world.opened + 1 }.put address
      (some ⟨some (.opened world.opened), true⟩)).held other =
        if other = address then some world.opened else world.held other :=
    fun other => held_put other _
  have fresh : ∀ other, world.held other ≠ some world.opened := fun other has =>
    Nat.lt_irrefl _ ((kept.opened_iff _).mpr (.inl ⟨other, has⟩))
  have unused : Handle.opened world.opened ∉ world.closed ++ gone := fun member =>
    Nat.lt_irrefl _ ((kept.opened_iff _).mpr (.inr member))
  refine ⟨fun other old found => ?_, ?_, ?_, ?_, kept.distinct, kept.own⟩
  · by_cases here : other = address
    · have new : old = ⟨some (.opened world.opened), true⟩ := by
        simpa [put, here, eq_comm] using found
      rw [new]
      exact iff_of_true rfl rfl
    · exact kept.closes other old (by simpa [put, here] using found)
  · intro first second number one two
    rw [now] at one two
    grind [kept.injective first second number]
  · intro number
    have old := kept.opened_iff number
    constructor
    · intro below
      rcases Nat.lt_succ_iff_lt_or_eq.mp below with lower | rfl
      · rcases old.mp lower with ⟨other, has⟩ | member
        · refine .inl ⟨other, ?_⟩
          rw [now, if_neg, has]
          rintro rfl
          rw [before] at has
          cases has
        · exact .inr member
      · exact .inl ⟨address, by rw [now, if_pos rfl]⟩
    · rintro (⟨other, has⟩ | member)
      · rw [now] at has
        split at has
        · cases has
          exact Nat.lt_succ_self _
        · exact Nat.lt_succ_of_lt (old.mpr (.inl ⟨other, has⟩))
      · exact Nat.lt_succ_of_lt (old.mpr (.inr member))
  · intro other number has
    rw [now] at has
    split at has
    · cases has
      exact unused
    · exact kept.apart other number has

/-- A stream is moved to another, whose own file is lost. -/
theorem Kept.assign (kept : world.Kept gone) {target source : Nat} {fields : Fields}
    (from_ : world.streams source = some fields) :
    (world.assign target source fields).Kept
      (gone ++ ((world.held target).map Handle.opened).toList) := by
  have had : fields.number = world.held source := by
    rw [held, from_]
    rfl
  have now : ∀ other, (world.assign target source fields).held other =
      if other = source then none
      else if other = target then world.held source else world.held other := by
    intro other
    rw [World.assign, held_put, held_put, Option.bind_some, Option.bind_some, had]
    rfl
  have members : ∀ number, Handle.opened number ∈
      world.closed ++ (gone ++ ((world.held target).map Handle.opened).toList) ↔
        Handle.opened number ∈ world.closed ++ gone ∨ world.held target = some number := by
    intro number
    rw [← List.append_assoc, List.mem_append, Option.mem_toList,
      Option.map_eq_some_iff]
    exact or_congr_right ⟨fun ⟨_, has, same⟩ => Handle.opened.inj same ▸ has,
      fun has => ⟨number, has, rfl⟩⟩
  constructor
  · intro other old found
    by_cases here : other = source
    · have new : old = Fields.empty := by simpa [World.assign, put, here, eq_comm] using found
      rw [new]
      exact iff_of_false Bool.false_ne_true Bool.false_ne_true
    · refine kept.closes_put (fun new is_ => ?_) other old
        (show (world.put target (some fields)).streams other = some old by
          simpa [World.assign, put, here] using found)
      cases is_
      exact kept.closes source _ from_
  · intro first second number one two
    rw [now] at one two
    grind [kept.injective first second number, kept.injective source second number,
      kept.injective first source number]
  · intro number
    rw [show (world.assign target source fields).closed = world.closed from rfl, members]
    refine (kept.opened_iff number).trans ⟨?_, ?_⟩
    · rintro (⟨other, has⟩ | member)
      · by_cases isTarget : other = target
        · exact .inr (.inr (isTarget ▸ has))
        · by_cases isSource : other = source
          · by_cases itself : target = source
            · exact .inr (.inr (itself ▸ isSource ▸ has))
            · exact .inl ⟨target, by rw [now, if_neg itself, if_pos rfl, ← isSource, has]⟩
          · exact .inl ⟨other, by rw [now, if_neg isSource, if_neg isTarget, has]⟩
      · exact .inr (.inl member)
    · rintro (⟨other, has⟩ | member | has)
      · rw [now] at has
        split at has
        · cases has
        · split at has
          · exact .inl ⟨source, has⟩
          · exact .inl ⟨other, has⟩
      · exact .inr member
      · exact .inl ⟨target, has⟩
  · intro other number has
    rw [show (world.assign target source fields).closed = world.closed from rfl, members]
    rw [now] at has
    rintro (member | taken)
    · split at has
      · cases has
      · split at has
        · exact kept.apart source number has member
        · exact kept.apart other number has member
    · grind [kept.injective target source number, kept.injective target other number]
  · rw [← List.append_assoc]
    refine List.nodup_append.mpr ⟨kept.distinct, ?_, ?_⟩
    · cases world.held target <;> simp
    · intro file member other lost
      rw [Option.mem_toList, Option.map_eq_some_iff] at lost
      obtain ⟨number, has, rfl⟩ := lost
      rintro rfl
      exact kept.apart target number has member
  · intro file member
    rw [← List.append_assoc, List.mem_append] at member
    rcases member with before | lost
    · exact kept.own file before
    · rw [Option.mem_toList, Option.map_eq_some_iff] at lost
      obtain ⟨number, _, rfl⟩ := lost
      exact ⟨number, rfl⟩

/-- A stream ends and closes its file. -/
theorem Kept.close (kept : world.Kept gone) {number : Nat}
    (has : world.held address = some number) :
    ({ world with closed := .opened number :: world.closed }.put address none).Kept gone := by
  have now : ∀ other, ({ world with closed := .opened number :: world.closed }.put address
      none).held other = if other = address then none else world.held other :=
    fun other => held_put other _
  have unclosed := kept.apart address number has
  have members : ∀ other, Handle.opened other ∈ (Handle.opened number :: world.closed) ++ gone ↔
      other = number ∨ Handle.opened other ∈ world.closed ++ gone := by
    intro other
    rw [List.cons_append, List.mem_cons, Handle.opened.injEq]
  constructor
  · intro other old found
    by_cases here : other = address
    · simp [put, here] at found
    · exact kept.closes other old (by simpa [put, here] using found)
  · intro first second same one two
    rw [now] at one two
    grind [kept.injective first second same]
  · intro other
    rw [show (({ world with closed := Handle.opened number :: world.closed } : World).put address
      none).closed = .opened number :: world.closed from rfl, members]
    refine (kept.opened_iff other).trans ⟨?_, ?_⟩
    · rintro (⟨at_, holds⟩ | member)
      · by_cases here : at_ = address
        · exact .inr (.inl (Option.some.inj ((here ▸ holds).symm.trans has)))
        · exact .inl ⟨at_, by rw [now, if_neg here, holds]⟩
      · exact .inr (.inr member)
    · rintro (⟨at_, holds⟩ | rfl | member)
      · rw [now] at holds
        split at holds
        · cases holds
        · exact .inl ⟨at_, holds⟩
      · exact .inl ⟨address, has⟩
      · exact .inr member
  · intro other another holds
    rw [show (({ world with closed := Handle.opened number :: world.closed } : World).put address
      none).closed = .opened number :: world.closed from rfl, members]
    rw [now] at holds
    split at holds
    · cases holds
    · rintro (rfl | member)
      · exact absurd (kept.injective other address another holds has) ‹_›
      · exact kept.apart other another holds member
  · exact List.nodup_cons.mpr ⟨unclosed, kept.distinct⟩
  · intro file member
    rcases List.mem_cons.mp member with rfl | before
    · exact ⟨number, rfl⟩
    · exact kept.own file before

/-- What a stream assigned to would have had to close. -/
theorem Kept.lost_eq (kept : world.Kept gone) {target source : Nat} {fields : Fields}
    (found : world.streams target = some fields) :
    lost (world, .moveAssign target source) = (world.held target).map Handle.opened := by
  have closes := kept.closes target fields found
  obtain ⟨file, shouldClose⟩ := fields
  simp only [lost, held, found, Option.bind_some]
  cases shouldClose with
  | true =>
      cases file with
      | none => exact absurd (closes.mp rfl) Bool.false_ne_true
      | some file =>
          cases file with
          | opened number => rfl
          | given number => exact absurd (closes.mp rfl) Bool.false_ne_true
  | false =>
      cases number : Fields.number ⟨file, false⟩ with
      | none => rfl
      | some number => exact absurd (closes.mpr (by rw [number]; rfl)) Bool.false_ne_true

/-- A stream that is to close its file has one that is not closed. -/
theorem Kept.owner (kept : world.Kept gone) {file : Option Handle}
    (found : world.streams address = some ⟨file, true⟩) :
    ∃ number, file = some (.opened number) ∧ world.held address = some number ∧
      .opened number ∉ world.closed := by
  have some_ := (kept.closes address _ found).mp rfl
  obtain ⟨number, is_⟩ := Option.isSome_iff_exists.mp some_
  have has : world.held address = some number := by rw [held, found, Option.bind_some, is_]
  have unclosed := kept.apart address number has
  refine ⟨number, ?_, has, fun member => unclosed (List.mem_append_left _ member)⟩
  cases file with
  | none => cases is_
  | some file =>
      cases file with
      | opened other =>
          cases is_
          rfl
      | given other => cases is_

/-- A stream that is not to close its file has none that a stream opened. -/
theorem Kept.borrower (kept : world.Kept gone) {file : Option Handle}
    (found : world.streams address = some ⟨file, false⟩) : world.held address = none := by
  have closes := kept.closes address _ found
  rw [held, found, Option.bind_some, ← Option.not_isSome_iff_eq_none]
  exact fun some_ => absurd (closes.mpr some_) Bool.false_ne_true

theorem held_of_free (free : world.streams address = none) : world.held address = none := by
  rw [held, free, Option.bind_none]

/-- Every act keeps account of the files. -/
theorem Kept.step (kept : world.Kept gone) {act : Act} {used : Option Handle} {next : World}
    (taken : FileHandles.step world act = some (used, next)) :
    next.Kept (gone ++ (lost (world, act)).toList) := by
  cases act with
  | open_ address found =>
      rw [show lost (world, .open_ address found) = none from rfl, Option.toList_none,
        List.append_nil]
      rw [FileHandles.step] at taken
      split at taken
      · cases taken
      · rename_i free
        cases found with
        | true =>
            cases taken
            exact kept.opened (held_of_free free)
        | false =>
            cases taken
            refine kept.quiet (held_of_free free) (fun new is_ => ?_) rfl
            cases is_
            exact iff_of_false Bool.false_ne_true Bool.false_ne_true
  | wrap address file =>
      rw [show lost (world, .wrap address file) = none from rfl, Option.toList_none,
        List.append_nil]
      rw [FileHandles.step] at taken
      split at taken
      · cases taken
      · rename_i free
        cases taken
        have foreign : Fields.number ⟨file.map .given, false⟩ = none := by cases file <;> rfl
        refine kept.quiet (held_of_free free) (fun new is_ => ?_) foreign
        cases is_
        refine iff_of_false Bool.false_ne_true ?_
        rw [foreign]
        exact Bool.false_ne_true
  | moveConstruct address source =>
      rw [FileHandles.step] at taken
      split at taken
      · rename_i fields free from_
        cases taken
        have nothing : lost (world, .moveConstruct address source) =
            (world.held address).map Handle.opened := by rw [held_of_free free]; rfl
        rw [nothing]
        exact kept.assign from_
      · cases taken
  | moveAssign target source =>
      rw [FileHandles.step] at taken
      split at taken
      · rename_i old fields found from_
        cases taken
        rw [kept.lost_eq found]
        exact kept.assign from_
      · cases taken
  | write address =>
      rw [show lost (world, .write address) = none from rfl, Option.toList_none, List.append_nil]
      rw [FileHandles.step] at taken
      split at taken
      · cases taken
      · cases taken
        exact kept
      · split at taken
        · cases taken
        · cases taken
          exact kept
  | destroy address =>
      rw [show lost (world, .destroy address) = none from rfl, Option.toList_none, List.append_nil]
      rw [FileHandles.step] at taken
      split at taken
      · cases taken
      · rename_i file shouldClose found
        cases shouldClose with
        | true =>
            obtain ⟨number, rfl, has, unclosed⟩ := kept.owner found
            simp only [fclose, if_neg unclosed, if_true, Option.map_some] at taken
            cases taken
            exact kept.close has
        | false =>
            cases taken
            exact kept.quiet (kept.borrower found) nofun rfl

/-- So does every run, by induction on it. -/
theorem Kept.run (kept : world.Kept gone) {acts : List Act} {used : List (Option Handle)}
    {final : World} (ran : machine.run world acts = some (used, final)) :
    final.Kept (gone ++ (machine.steps world acts).filterMap lost) := by
  induction acts generalizing world gone used with
  | nil =>
      cases ran
      simp only [Machine.steps, List.filterMap_nil, List.append_nil]
      exact kept
  | cons act acts ih =>
      obtain ⟨output, next, later, taken, rest, _⟩ := Machine.run_cons_eq_some.mp ran
      have after := ih (kept.step taken) rest
      change FileHandles.step world act = some (output, next) at taken
      simp only [Machine.steps, taken, List.filterMap_cons]
      split
      · rename_i nothing
        rw [nothing, Option.toList_none, List.append_nil] at after
        exact after
      · rename_i file left
        rw [left, Option.toList_some, List.append_assoc] at after
        exact after

end World

/-- A program constructs, moves, writes to and destroys file streams in any order, and at the end
every file that a stream opened has exactly one of three fates: one stream still has it, it was
closed, once, or its stream was assigned to. Files the streams were given are not closed. No
living stream meets a closed file, written to or destroyed. -/
theorem handles_accounted {acts : List Act} {used : List (Option Handle)} {final : World}
    (ran : machine.run World.start acts = some (used, final)) :
    let gone := (machine.steps World.start acts).filterMap lost
    (final.closed ++ gone).Nodup ∧
      (∀ number, .given number ∉ final.closed) ∧
      (∀ number, number < final.opened ↔ (∃ address, final.held address = some number) ∨
        .opened number ∈ final.closed ++ gone) ∧
      (∀ address number, final.held address = some number →
        .opened number ∉ final.closed ++ gone ∧
          ∀ other, final.held other = some number → other = address) ∧
      ∀ address fields, final.streams address = some fields →
        (step final (.write address)).isSome = true ∧
          (step final (.destroy address)).isSome = true := by
  intro gone
  have kept : final.Kept ([] ++ gone) := World.start_kept.run ran
  rw [List.nil_append] at kept
  refine ⟨kept.distinct, fun number member => ?_, kept.opened_iff, fun address number has =>
    ⟨kept.apart address number has, fun other another =>
      kept.injective other address number another has⟩, fun address fields found => ?_⟩
  · obtain ⟨other, same⟩ := kept.own _ (List.mem_append_left _ member)
    cases same
  · obtain ⟨file, shouldClose⟩ := fields
    have usable : ∀ handle, file = some handle → handle ∉ final.closed := by
      rintro handle rfl member
      obtain ⟨number, rfl⟩ := kept.own handle (List.mem_append_left _ member)
      have has : final.held address = some number := by rw [World.held, found]; rfl
      exact kept.apart address number has (List.mem_append_left _ member)
    constructor
    · simp only [step, found]
      cases file with
      | none => rfl
      | some handle =>
          simp only [if_neg (usable handle rfl)]
          rfl
    · simp only [step, found]
      cases shouldClose with
      | true =>
          obtain ⟨number, rfl, _, unclosed⟩ := kept.owner found
          simp only [World.fclose, if_neg unclosed, if_true]
          rfl
      | false => rfl

/-- Two files are opened; the first stream is assigned the second one's file, and is destroyed. -/
theorem handles_accounted_two : ∃ used final,
    machine.run World.start [.open_ 0 true, .open_ 1 true, .moveAssign 0 1, .write 0, .destroy 0,
      .destroy 1] = some (used, final) ∧ final.closed = [.opened 1] ∧
      ∀ number, number < final.opened ↔ (∃ address, final.held address = some number) ∨
        .opened number ∈ final.closed ++ [Handle.opened 0] := by
  refine ⟨_, _, rfl, rfl, ?_⟩
  exact (@handles_accounted [.open_ 0 true, .open_ 1 true, .moveAssign 0 1, .write 0,
    .destroy 0, .destroy 1] _ _ rfl).2.2.1

end XProject.Base.FileHandles
