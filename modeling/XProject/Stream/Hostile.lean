import XProject.Stream.Deserialize

/-!
# Decoding arbitrary bytes

Whatever the bytes are, a decoder started inside the buffer only loads bytes
between its first position and the end, obeys no element count above the limit
and cannot end with `SUCCESS` after a read that found too few bytes or a refused
count. Every decoder is built from a few operations that keep this relation
between the state before and after, and the relation is a preorder.
-/

namespace XProject.Base

open XProject.Std
open XProject.Std.Action

/-- The event is one a decoder may cause on the bytes from `low` up to below `high`. -/
def Event.Confined (low high : Nat) : Event → Prop
  | .loaded address count => low ≤ address.toNat ∧ address.toNat + count ≤ high
  | .sized count => count ≤ kMaxElementNum
  | .short | .refused _ | .undefinedShift _ => True

/-- Events on the bytes from a later position are events on the bytes from here. -/
theorem Event.Confined.weaken {low low' high : Nat} {event : Event}
    (confined : event.Confined low' high) (later : low ≤ low') : event.Confined low high := by
  cases event with
  | loaded address count => exact ⟨le_trans later confined.1, confined.2⟩
  | sized count => exact confined
  | short => trivial
  | refused size => trivial
  | undefinedShift count => trivial

/-- The event is to be reported by an error number. -/
def Event.isFailure : Event → Bool
  | .short | .refused _ => true
  | .loaded .. | .sized _ | .undefinedShift _ => false

namespace Session

/-- Where a session may be after decoding from inside the buffer. -/
structure Progress (before after : Session) : Prop where
  start : after.stream.start = before.stream.start
  end_ : after.stream.end_ = before.stream.end_
  forward : before.stream.pos.toNat ≤ after.stream.pos.toNat
  inside : after.stream.pos.toNat ≤ after.stream.end_.toNat
  errno : before.stream.errno ≠ .success → after.stream.errno ≠ .success
  events : ∃ events, after.trace = events ++ before.trace ∧ ∀ event ∈ events,
    event.Confined before.stream.pos.toNat before.stream.end_.toNat ∧
      (event.isFailure = true → after.stream.errno ≠ .success)

/-- Decoding from inside the buffer makes progress inside it. -/
def Advances (before after : Session) : Prop :=
  before.stream.pos.toNat ≤ before.stream.end_.toNat → Progress before after

instance : IsPreorder Session Advances where
  refl session := fun inside =>
    ⟨rfl, rfl, le_refl _, inside, id, [], rfl, fun _ member => absurd member List.not_mem_nil⟩
  trans first second third := by
    intro head tail inside
    have one := head inside
    have two := tail one.inside
    obtain ⟨earlier, earlierTrace, earlierEvents⟩ := one.events
    obtain ⟨later, laterTrace, laterEvents⟩ := two.events
    refine ⟨two.start.trans one.start, two.end_.trans one.end_, le_trans one.forward two.forward,
      two.inside, fun failed => two.errno (one.errno failed), later ++ earlier, ?_, ?_⟩
    · rw [laterTrace, earlierTrace, List.append_assoc]
    · intro event member
      rcases List.mem_append.mp member with member | member
      · obtain ⟨confined, reported⟩ := laterEvents event member
        rw [one.end_] at confined
        exact ⟨confined.weaken one.forward, reported⟩
      · obtain ⟨confined, reported⟩ := earlierEvents event member
        exact ⟨confined, fun failure => two.errno (reported failure)⟩

/-! ## The operations of a session -/

/-- One event, with what it did to the stream. -/
theorem Progress.of_event {session : Session} {stream : DataStream} {event : Event}
    (start : stream.start = session.stream.start) (end_ : stream.end_ = session.stream.end_)
    (forward : session.stream.pos.toNat ≤ stream.pos.toNat)
    (inside : stream.pos.toNat ≤ stream.end_.toNat)
    (errno : session.stream.errno ≠ .success → stream.errno ≠ .success)
    (confined : event.Confined session.stream.pos.toNat session.stream.end_.toNat)
    (reported : event.isFailure = true → stream.errno ≠ .success) :
    Progress session ⟨stream, event :: session.trace⟩ := by
  refine ⟨start, end_, forward, inside, errno, [event], rfl, ?_⟩
  intro other member
  rw [List.mem_singleton.mp member]
  exact ⟨confined, reported⟩

/-- What was traced stays in the trace. -/
theorem Progress.mem_trace {before after : Session} (progress : Progress before after)
    {event : Event} (member : event ∈ before.trace) : event ∈ after.trace := by
  obtain ⟨events, trace, _⟩ := progress.events
  rw [trace]
  exact List.mem_append_right _ member

variable (environment : Environment)

theorem advances_record {size : Nat} (small : size ≤ kMaxElementNum) :
    Within Advances (record (.sized size)) := by
  intro session inside
  exact .of_event rfl rfl (le_refl _) inside id small Bool.noConfusion

theorem advances_refuse (size : Nat) : Within Advances (refuse size) := by
  intro session inside
  exact .of_event rfl rfl (le_refl _) inside (fun _ => ErrorCode.noConfusion) trivial
    fun _ => ErrorCode.noConfusion

theorem advances_setErrno : Within Advances (setErrno .trapOutOfStream) := by
  intro session inside
  exact ⟨rfl, rfl, le_refl _, inside, fun _ => ErrorCode.noConfusion, [], rfl,
    fun _ member => absurd member List.not_mem_nil⟩

theorem advances_read (size : Address) : Within Advances (read environment size) := by
  intro session inside
  change Progress session (read environment size session).2
  have check := DataStream.read_check_iff size inside
  rw [read, DataStream.read]
  by_cases enough : session.stream.end_ - session.stream.pos ≥ size
  · rw [if_pos enough]
    have fits := check.mp enough
    have moved := DataStream.toNat_pos_add fits
    rw [DataStream.available] at fits
    have forward : session.stream.pos.toNat ≤ (session.stream.pos + size).toNat := by omega
    have behind : (session.stream.pos + size).toNat ≤ session.stream.end_.toNat := by omega
    exact .of_event rfl rfl forward behind id ⟨le_refl _, by omega⟩ Bool.noConfusion
  · rw [if_neg enough]
    exact .of_event rfl rfl (le_refl _) inside (fun _ => ErrorCode.noConfusion) trivial
      fun _ => ErrorCode.noConfusion

theorem advances_get : Within Advances (get environment) := by
  intro session inside
  change Progress session (get environment session).2
  rw [get, DataStream.get]
  by_cases more : session.stream.pos < session.stream.end_
  · rw [if_pos more]
    have below := UInt64.lt_iff_toNat_lt.mp more
    have moved := DataStream.toNat_pos_succ more
    have forward : session.stream.pos.toNat ≤ (session.stream.pos + 1).toNat := by omega
    have behind : (session.stream.pos + 1).toNat ≤ session.stream.end_.toNat := by omega
    exact .of_event rfl rfl forward behind id ⟨le_refl _, by omega⟩ Bool.noConfusion
  · rw [if_neg more]
    exact .of_event rfl rfl (le_refl _) inside (fun _ => ErrorCode.noConfusion) trivial
      fun _ => ErrorCode.noConfusion

theorem advances_shift (operation : BitVec 32 → Nat → BitVec 32) (bits : BitVec 32)
    (count : Int) : Within Advances (shift environment operation bits count) := by
  intro session inside
  change Progress session (shift environment operation bits count session).2
  rw [shift]
  split
  · exact refl_of Advances session inside
  · exact .of_event rfl rfl (le_refl _) inside id trivial Bool.noConfusion

theorem advances_uninitialized (width : Nat) :
    Within Advances (uninitialized environment width) :=
  fun session => refl_of Advances session

end Session

/-! ## The decoders -/

open Session

variable (environment : Environment)

theorem advances_getGroup (by_ : UInt8) : Within Advances (getGroup environment by_) := by
  refine .bind (advances_get environment) fun byte => ?_
  cases byte with
  | none => exact .bind advances_setErrno fun _ => .pure none
  | some byte => exact .bind (advances_shift environment _ _ _) fun _ => .pure _

theorem advances_readGroups {Sum : Type} (add : Sum → BitVec 32 → Sum) (sum : Sum) (by_ : UInt8) :
    Within Advances (readGroups environment add sum by_) := by
  intro session
  change Advances session (readGroups environment add sum by_ session).2
  induction sum, by_, session using readGroups.induct environment add with
  | case1 sum by_ session after failed =>
      have pass := advances_getGroup environment by_ session
      rw [failed] at pass
      rw [readGroups, failed]
      exact pass
  | case2 sum by_ session byte bits after passed continues ih =>
      have pass := advances_getGroup environment by_ session
      rw [passed] at pass
      rw [readGroups, passed]
      simp only [continues, if_true]
      exact trans_of Advances pass ih
  | case3 sum by_ session byte bits after passed stops =>
      have pass := advances_getGroup environment by_ session
      rw [passed] at pass
      rw [readGroups, passed]
      simp only [stops]
      exact pass

theorem advances_decodeVarUInt (var : BitVec 32) :
    Within Advances (decodeVarUInt environment var) := by
  refine .bind (advances_readGroups environment _ _ _) fun groups => ?_
  cases groups with
  | none => exact .pure var
  | some groups => exact .pure _

theorem advances_setSign (v sign : BitVec 32) (by_ : UInt8) :
    Within Advances (if sign &&& 0x01 != 0 then do
      let ones ← Session.shift environment (· <<< ·) (-1) by_.toNat
      pure (v ||| ones)
    else pure v) :=
  .ite (fun _ => .bind (advances_shift environment _ _ _) fun _ => .pure _) fun _ => .pure v

theorem advances_extendSign (v : BitVec 32) (by_ : UInt8) :
    Within Advances (extendSign environment v by_) :=
  .bind (advances_shift environment _ _ _) fun sign => advances_setSign environment v sign by_

theorem advances_decodeVarInt (var : BitVec 32) :
    Within Advances (decodeVarInt environment var) := by
  refine .bind (advances_readGroups environment _ _ _) fun groups => ?_
  cases groups with
  | none => exact .pure var
  | some groups => exact advances_extendSign environment _ _

theorem advances_decodeInteger (width : IntWidth) (v : BitVec (8 * width.bytes)) :
    Within Advances (decodeInteger environment width v) := by
  refine .bind (advances_read environment _) fun bytes => ?_
  cases bytes with
  | none => exact .pure v
  | some bytes => exact .pure _

/-- An accepted count is within the limit, so that its loop may run. -/
theorem advances_withCount {α : Type} {accepts : Nat → Bool} {dest : α} {body : Nat → Decoder α}
    (small : ∀ size, accepts size = true → size ≤ kMaxElementNum)
    (each : ∀ size, Within Advances (body size)) :
    Within Advances (withCount environment accepts dest body) := by
  refine .bind (advances_decodeVarUInt environment 0) fun size => .ite (fun accepted => ?_)
    fun _ => ?_
  · exact .bind (advances_record (small _ accepted)) fun _ => each _
  · exact .bind (advances_refuse _) fun _ => .pure dest

theorem withinCapacity_small (size : Nat) (accepted : withinCapacity size = true) :
    size ≤ kMaxElementNum :=
  of_decide_eq_true accepted

/-- A string is filled by one read. -/
theorem advances_readBytes (v : List UInt8) :
    Within Advances (do
      match ← Session.read environment (UInt64.ofNat v.length) with
      | none => pure v
      | some bytes => pure bytes) := by
  refine .bind (advances_read environment _) fun bytes => ?_
  cases bytes with
  | none => exact .pure v
  | some bytes => exact .pure bytes

theorem advances_decodeBytes (v : List UInt8) : Within Advances (decodeBytes environment v) :=
  advances_withCount environment withinCapacity_small fun _ =>
    .ite (fun _ => advances_readBytes environment _) fun _ => .pure v

theorem advances_declare (type : Ty) : Within Advances (declare environment type) := by
  induction type with
  | bool => exact .bind (advances_uninitialized environment 1) fun bits => .pure (bits != 0 : Bool)
  | integer width signed => exact advances_uninitialized environment _
  | array element size ih => exact .mmap (fun _ => ih) _
  | varUInt | varInt | string | charVector => exact .pure _
  | vector element | set element | map key value => exact .pure _

/-- One pass of the loop of a set. -/
theorem advances_setElement {element : Ty}
    (each : ∀ dest, Within Advances (decode environment element dest))
    (s : Ascending (id : element.Val → element.Val)) :
    Within Advances (do
      let v ← declare environment element
      let v ← decode environment element v
      pure (s.emplace v)) :=
  .bind (advances_declare environment element) fun v => .bind (each v) fun _ => .pure _

/-- One pass of the loop of a map. -/
theorem advances_mapEntry {key value : Ty}
    (eachKey : ∀ dest, Within Advances (decode environment key dest))
    (eachValue : ∀ dest, Within Advances (decode environment value dest))
    (m : Ascending (entryKey : key.Val ×ₗ value.Val → key.Val)) :
    Within Advances (do
      let k ← declare environment key
      let v ← declare environment value
      let k ← decode environment key k
      let v ← decode environment value v
      pure (m.emplace (toLex (k, v)))) := by
  refine .bind (advances_declare environment key) fun k => ?_
  refine .bind (advances_declare environment value) fun v => ?_
  exact .bind (eachKey k) fun _ => .bind (eachValue v) fun _ => .pure _

theorem sizeMatches_small (size count : Nat)
    (accepted : (size == count && decide (size < kMaxElementNum)) = true) :
    count ≤ kMaxElementNum := by
  simp only [Bool.and_eq_true, beq_iff_eq, decide_eq_true_eq] at accepted
  omega

/-- Every decoder advances, whatever the bytes and the destination are. -/
theorem advances_decode (type : Ty) (dest : type.Val) :
    Within Advances (decode environment type dest) := by
  induction type with
  | bool => exact .bind (advances_decodeInteger environment .one 0) fun t => .pure (t != 0 : Bool)
  | integer width signed => exact advances_decodeInteger environment width dest
  | varUInt => exact advances_decodeVarUInt environment dest
  | varInt => exact advances_decodeVarInt environment dest
  | string => exact advances_decodeBytes environment dest
  | charVector => exact advances_decodeBytes environment dest
  | vector element ih =>
      exact advances_withCount environment withinCapacity_small fun size => .mapM ih _
  | set element ih =>
      exact advances_withCount environment withinCapacity_small fun size =>
        .iterate (advances_setElement environment ih) _ _
  | map key value keyIh valueIh =>
      exact advances_withCount environment withinCapacity_small fun size =>
        .iterate (advances_mapEntry environment keyIh valueIh) _ _
  | array element size ih =>
      exact advances_withCount environment (sizeMatches_small size) fun _ => .mmap ih dest

/-- What decoding may do to a buffer and to the error number. -/
structure Harmless (before : DataStream) (after : Session) : Prop where
  start : after.stream.start = before.start
  end_ : after.stream.end_ = before.end_
  forward : before.pos ≤ after.stream.pos
  inside : after.stream.pos ≤ before.end_
  loaded : ∀ address count, .loaded address count ∈ after.trace →
    before.pos.toNat ≤ address.toNat ∧ address.toNat + count ≤ before.end_.toNat
  sized : ∀ size, .sized size ∈ after.trace → size ≤ kMaxElementNum
  reported : (.short ∈ after.trace ∨ ∃ size, .refused size ∈ after.trace) →
    after.stream.errno ≠ .success

/-- Decoding any type from any position inside any buffer ends, and it is
harmless: it loads only bytes between that position and the end, moves the
position forward inside the buffer, obeys no element count above the limit and
reports every read that found too few bytes and every refused count. -/
theorem decode_harmless (type : Ty) (dest : type.Val) (stream : DataStream)
    (valid : stream.valid = true) :
    Harmless stream ((decode environment type dest).run ⟨stream, []⟩).2 := by
  have inside := ((DataStream.valid_iff stream).mp valid).2
  have progress := advances_decode environment type dest ⟨stream, []⟩ inside
  obtain ⟨events, trace, allowed⟩ := progress.events
  rw [List.append_nil] at trace
  constructor
  · exact progress.start
  · exact progress.end_
  · exact UInt64.le_iff_toNat_le.mpr progress.forward
  · have behind := progress.inside
    rw [progress.end_] at behind
    exact UInt64.le_iff_toNat_le.mpr behind
  · intro address count member
    rw [trace] at member
    exact (allowed _ member).1
  · intro size member
    rw [trace] at member
    exact (allowed _ member).1
  · rw [trace]
    rintro (member | ⟨size, member⟩)
    · exact (allowed _ member).2 rfl
    · exact (allowed _ member).2 rfl

/-- A vector of sets of strings decoded from the middle of a buffer of garbage. -/
theorem decode_harmless_garbage :
    let stream := DataStream.skip 2 (.new ⟨4096, 5, by decide⟩)
    stream.valid = true ∧ Harmless stream
      ((decode ⟨fun _ => 0xff, fun _ bits _ => bits, fun _ _ => 0⟩ (.vector (.set .string))
        (Ty.zero _)).run ⟨stream, []⟩).2 := by
  have valid : (DataStream.skip 2 (.new ⟨4096, 5, by decide⟩)).valid = true := by decide
  exact ⟨valid, decode_harmless _ _ _ _ valid⟩

end XProject.Base
