import XProject.Stream.Output
import XProject.Stream.Truncation
import XProject.Stream.VarIntSign

/-!
# Which sizes each side takes

`operator<<` writes a container of any size, `operator>>` refuses those above its
limits. Decoding the bytes of a value ends with `SUCCESS` exactly when every size
in it is within the limits of the decoders, whatever a `VarInt` in it turns into.
-/

namespace XProject.Base

open XProject.Std
open XProject.Std.Action
open Session

/-! ## Starting behind a history -/

namespace Environment

/-- The environment seen by a decoder that starts behind `history`. -/
def after (environment : Environment) (history : List Event) : Environment where
  memory := environment.memory
  undefinedShift events := environment.undefinedShift (events ++ history)
  uninitialized events := environment.uninitialized (events ++ history)

end Environment

namespace Session

/-- The session with something that happened before it. -/
def onto (history : List Event) (session : Session) : Session :=
  ⟨session.stream, session.trace ++ history⟩

/-- A history in front changes nothing but the trace, where the environment
answers as it does behind that history. -/
def Resumes {α : Type} (action : Environment → Decoder α) : Prop :=
  ∀ environment history session, (action environment).run (onto history session) =
    Prod.map id (onto history) ((action (environment.after history)).run session)

section Resumes

variable {α β : Type}

theorem resumes_pure (value : α) : Resumes fun _ => (pure value : Decoder α) :=
  fun _ _ _ => rfl

theorem Resumes.bind {action : Environment → Decoder α} {next : Environment → α → Decoder β}
    (head : Resumes action) (tail : ∀ value, Resumes fun environment => next environment value) :
    Resumes fun environment => action environment >>= next environment := by
  intro environment history session
  have first := head environment history session
  have second := tail ((action (environment.after history)).run session).1 environment history
    ((action (environment.after history)).run session).2
  rw [StateT.run_bind, first]
  exact second

theorem resumes_setErrno (errno : ErrorCode) : Resumes fun _ => setErrno errno :=
  fun _ _ _ => rfl

theorem resumes_get : Resumes get := by
  intro environment history session
  change get environment (onto history session) =
    Prod.map id (onto history) (get (environment.after history) session)
  cases got : session.stream.get environment.memory with
  | mk byte stream =>
      simp only [get, onto, Environment.after, got]
      cases byte <;> rfl

theorem resumes_read (size : Address) : Resumes fun environment => read environment size := by
  intro environment history session
  change read environment size (onto history session) =
    Prod.map id (onto history) (read (environment.after history) size session)
  cases got : session.stream.read environment.memory size with
  | mk bytes stream =>
      simp only [read, onto, Environment.after, got]
      cases bytes <;> rfl

theorem resumes_shift (operation : BitVec 32 → Nat → BitVec 32) (bits : BitVec 32) (count : Int) :
    Resumes fun environment => shift environment operation bits count := by
  intro environment history session
  change shift environment operation bits count (onto history session) =
    Prod.map id (onto history) (shift (environment.after history) operation bits count session)
  by_cases defined : 0 ≤ count ∧ count < 32
  · simp only [shift, if_pos defined]
    rfl
  · simp only [shift, if_neg defined]
    rfl

end Resumes
end Session

theorem resumes_getGroup (by_ : UInt8) :
    Resumes fun environment => getGroup environment by_ := by
  refine resumes_get.bind fun byte => ?_
  cases byte with
  | none => exact (resumes_setErrno _).bind fun _ => resumes_pure none
  | some byte => exact (resumes_shift _ _ _).bind fun _ => resumes_pure _

theorem resumes_readGroups {Sum : Type} (add : Sum → BitVec 32 → Sum) (sum : Sum) (by_ : UInt8) :
    Resumes fun environment => readGroups environment add sum by_ := by
  intro environment history session
  induction sum, by_, session using readGroups.induct (environment.after history) add with
  | case1 sum by_ session after failed =>
      have pass := resumes_getGroup by_ environment history session
      rw [failed] at pass
      rw [readGroups_run, readGroups_run, pass, failed]
      rfl
  | case2 sum by_ session byte bits after passed continues ih =>
      have pass := resumes_getGroup by_ environment history session
      rw [passed] at pass
      rw [loop_condition] at continues
      rw [readGroups_run, readGroups_run, pass, passed]
      simp only [Prod.map, id_eq, continues, if_true]
      exact ih
  | case3 sum by_ session byte bits after passed stops =>
      have pass := resumes_getGroup by_ environment history session
      rw [passed] at pass
      rw [loop_condition] at stops
      rw [readGroups_run, readGroups_run, pass, passed]
      simp only [Prod.map, id_eq, stops]
      rfl

theorem resumes_decodeVarUInt (var : BitVec 32) :
    Resumes fun environment => decodeVarUInt environment var := by
  refine (resumes_readGroups _ _ _).bind fun groups => ?_
  cases groups with
  | none => exact resumes_pure var
  | some groups => exact resumes_pure _

theorem resumes_decodeInteger (width : IntWidth) (v : BitVec (8 * width.bytes)) :
    Resumes fun environment => decodeInteger environment width v := by
  refine (resumes_read _).bind fun bytes => ?_
  cases bytes with
  | none => exact resumes_pure v
  | some bytes => exact resumes_pure _

/-! ## What is unread, whatever happened so far -/

namespace Session

/-- Exactly these bytes are unread and no error is set. -/
structure Left (environment : Environment) (end_ : Address) (bytes : List UInt8)
    (session : Session) : Prop where
  end_ : session.stream.end_ = end_
  inside : session.stream.pos.toNat ≤ session.stream.end_.toNat
  unread : session.stream.unread environment.memory = bytes
  errno : session.stream.errno = .success

variable {environment : Environment} {end_ : Address}

/-- What is ahead is left. -/
theorem Ahead.left {bytes : List UInt8} {session : Session}
    (ahead : Ahead environment end_ bytes session) : Left environment end_ bytes session :=
  ⟨ahead.end_, ahead.inside, ahead.unread, ahead.errno⟩

/-- What is left is ahead of a session without a history. -/
theorem Left.ahead {bytes : List UInt8} {session : Session}
    (left : Left environment end_ bytes session) :
    Ahead (environment.after session.trace) end_ bytes ⟨session.stream, []⟩ :=
  ⟨left.end_, left.inside, left.unread, left.errno, fun _ member => absurd member List.not_mem_nil⟩

/-- What an action takes with nothing gone wrong it takes behind any history. -/
theorem takes_left {α : Type} {action : Environment → Decoder α} (resumes : Resumes action)
    {bytes : List UInt8} {value : α}
    (taken : ∀ environment, Takes (Ahead environment end_) (action environment) bytes value) :
    Takes (Left environment end_) (action environment) bytes value := by
  intro rest session left
  obtain ⟨later, run, after⟩ := (taken (environment.after session.trace)).run left.ahead
  have resumed := resumes environment session.trace ⟨session.stream, []⟩
  have whole : onto session.trace ⟨session.stream, []⟩ = session := rfl
  rw [run, whole] at resumed
  rw [resumed]
  exact ⟨rfl, after.end_, after.inside, after.unread, after.errno⟩

/-- The stream is left alone. -/
def Aside (before after : Session) : Prop := after.stream = before.stream

instance : IsPreorder Session Aside where
  refl _ := rfl
  trans _ _ _ head tail := Eq.trans tail head

/-- An action that leaves the stream alone is always accepted. -/
theorem judges_aside {α : Type} {action : Decoder α} (aside : Within Aside action) :
    Judges (Left environment end_) Spoiled action [] True := by
  intro rest session left
  have same : (action.run session).2.stream = session.stream := aside session
  refine ⟨fun _ => ⟨?_, ?_, ?_, ?_⟩, fun refused => absurd trivial refused⟩
  · rw [same]
    exact left.end_
  · rw [same]
    exact left.inside
  · rw [same]
    exact left.unread
  · rw [same]
    exact left.errno

/-- A refusal sets an error. -/
theorem judges_refuse {α : Type} (size : Nat) (dest : α) {bytes : List UInt8} :
    Judges (Left environment end_) Spoiled (refuse size >>= fun _ => pure dest) bytes False := by
  intro rest session left
  refine ⟨False.elim, fun _ => ⟨?_, left.inside⟩⟩
  exact ErrorCode.noConfusion

end Session

/-! ## The decoders -/

variable {environment : Environment} {end_ : Address}

theorem left_varUInt (value var : BitVec 32) :
    Takes (Left environment end_) (decodeVarUInt environment var)
      (Base128.unsigned value.toNat) value :=
  takes_left (resumes_decodeVarUInt var) fun _ => takes_varUInt value var

/-- Setting the sign bits takes no bytes. -/
theorem extendSign_aside (v : BitVec 32) (by_ : UInt8) :
    Within Aside (extendSign environment v by_) := by
  have shifted : ∀ operation bits count, Within Aside (shift environment operation bits count) :=
    fun _ _ _ => shift_stream
  refine .bind (shifted _ _ _) fun sign => .ite (fun _ => ?_) fun _ => .pure v
  exact .bind (shifted _ _ _) fun ones => .pure _

/-- The shifts of `VarInt` may be undefined, its bytes are all taken. -/
theorem judges_varInt (value var : BitVec 32) :
    Judges (Left environment end_) Spoiled (decodeVarInt environment var)
      (Base128.signed value.toInt) True := by
  have short := @Base128.length_signed_le 32 4 (by decide) value
  have taken : Takes (Left environment end_) _ _ _ :=
    takes_left (resumes_readGroups _ _ _) fun _ =>
      takes_signedGroups (Base128.signed_terminated value.toInt) short
  have whole : Judges (Left environment end_) Spoiled (decodeVarInt environment var)
      (Base128.signed value.toInt ++ []) True :=
    taken.bind_judges (judges_aside (extendSign_aside _ _))
  rwa [List.append_nil] at whole

theorem left_integer (width : IntWidth) (value v : BitVec (8 * width.bytes)) :
    Takes (Left environment end_) (decodeInteger environment width v)
      (littleEndianBytes width.bytes value) value :=
  takes_left (resumes_decodeInteger width v) fun _ => takes_decodeInteger width value v

/-- A count is taken, and obeyed or refused. -/
theorem judges_withCount {α : Type} {accepts : Nat → Bool} {dest : α} {body : Nat → Decoder α}
    {size : Nat} (small : size < 2 ^ 32) {bytes : List UInt8} {verdict : Prop}
    (judged : Judges (Left environment end_) Spoiled (body size) bytes verdict) :
    Judges (Left environment end_) Spoiled (withCount environment accepts dest body)
      (Base128.unsigned size ++ bytes) (accepts size = true ∧ verdict) := by
  have exact_ : (BitVec.ofNat 32 size).toNat = size := by
    rw [BitVec.toNat_ofNat, Nat.mod_eq_of_lt small]
  have count : Takes (Left environment end_) _ _ _ := left_varUInt (BitVec.ofNat 32 size) 0
  rw [exact_] at count
  refine count.bind_judges ?_
  rw [exact_]
  by_cases accepted : accepts size = true
  · have noted : Takes (Left environment end_) (record (.sized size)) [] () :=
      fun _ _ left => ⟨rfl, left.end_, left.inside, left.unread, left.errno⟩
    rw [if_pos accepted]
    exact (noted.bind_judges judged).congr (by simp [accepted])
  · rw [if_neg accepted]
    exact (judges_refuse size dest).congr (by simp [accepted])

/-- A string within the capacity is read in one piece. -/
theorem judges_decodeBytes {v : List UInt8} (small : v.length < 2 ^ 32) (dest : List UInt8) :
    Judges (Left environment end_) Spoiled (decodeBytes environment dest)
      (Base128.unsigned v.length ++ v) (v.length ≤ kMaxElementNum) := by
  have verdict : (withinCapacity v.length = true ∧ True) ↔ v.length ≤ kMaxElementNum := by
    simp [withinCapacity]
  refine (judges_withCount small ?_).congr verdict
  by_cases empty : v = []
  · rw [if_neg (by simp [empty]), empty]
    exact (Takes.pure dest).judges
  · have positive : v.length > 0 := List.length_pos_iff.mpr empty
    have length : v.length = (UInt64.ofNat (resized 0 v.length dest).length).toNat := by
      rw [length_resized, UInt64.toNat_ofNat']
      omega
    have taken : Takes (Left environment end_) _ _ _ :=
      takes_left (resumes_read _) fun _ => takes_read length
    rw [if_pos positive]
    refine taken.judges.finish fun bytes => ?_
    cases bytes with
    | none => exact .pure _
    | some bytes => exact .pure bytes

/-- Decoding the bytes of a value is judged by its sizes, whatever the destination holds. -/
theorem judges_decode {type : Ty} {v : type.Val}
    (countable : type.Within ⟨2 ^ 32 - 1, 2 ^ 32 - 1⟩ v) (dest : type.Val) :
    Judges (Left environment end_) Spoiled (decode environment type dest) (emitted type v)
      (type.Within decoderLimits v) := by
  have spoils : ∀ (type : Ty) dest, Within (Spoils Spoiled) (decode environment type dest) :=
    fun type dest => spoils_of_advances (advances_decode environment type dest)
  induction type with
  | bool => exact (left_integer .one _ 0).judges.finish fun _ => .pure _
  | integer width signed => exact (left_integer width v dest).judges
  | varUInt =>
      have written : emitted .varUInt v = Base128.unsigned (BitVec.toNat v) :=
        encodeVarUInt_list v []
      rw [written]
      exact (left_varUInt v dest).judges
  | varInt =>
      have written : emitted .varInt v = Base128.signed (BitVec.toInt v) := encodeVarInt_list v []
      rw [written]
      exact judges_varInt v dest
  | string =>
      rw [emitted_string (by decide) countable]
      exact judges_decodeBytes (Nat.lt_succ_of_le countable) dest
  | charVector =>
      rw [emitted_charVector (by decide) countable]
      exact judges_decodeBytes (Nat.lt_succ_of_le countable) dest
  | vector element ih =>
      rw [emitted_vector (by decide) countable]
      refine (judges_withCount (Nat.lt_succ_of_le countable.1) ?_).congr
        (and_congr_left' decide_eq_true_iff)
      exact .mapM (fun item member into => ih (countable.2 item member) into) (spoils element)
        (length_resized ..)
  | set element ih =>
      rw [emitted_set (by decide) countable]
      refine (judges_withCount (Nat.lt_succ_of_le countable.1) ?_).congr
        (and_congr_left' decide_eq_true_iff)
      have advances := advances_setElement environment (advances_decode environment element)
      refine .iterate (fun item member s => ?_) (fun s => spoils_of_advances (advances s)) _
      refine .after (declare_still element) fun into => ?_
      exact (ih (countable.2 item member) into).finish fun _ => .pure _
  | map key value keyIh valueIh =>
      rw [emitted_map (by decide) countable]
      refine (judges_withCount (Nat.lt_succ_of_le countable.1) ?_).congr
        (and_congr_left' decide_eq_true_iff)
      have advances := advances_mapEntry environment (advances_decode environment key)
        (advances_decode environment value)
      refine .iterate (fun entry member m => ?_) (fun m => spoils_of_advances (advances m)) _
      refine .after (declare_still key) fun intoKey => .after (declare_still value) fun intoValue => ?_
      obtain ⟨keyCountable, valueCountable⟩ := countable.2 entry member
      refine .bind (keyIh keyCountable intoKey) (fun k => ?_) fun k => ?_
      · exact (valueIh valueCountable intoValue).finish fun _ => .pure _
      · exact .bind (spoils value intoValue) fun _ => .pure _
  | array element size ih =>
      have bound : (size == size && decide (size < kMaxElementNum)) = true ↔
          size ≤ decoderLimits.array := by
        simp only [beq_self_eq_true, Bool.true_and, decide_eq_true_eq]
        exact Nat.lt_iff_le_pred (by decide)
      rw [emitted_array (by decide) countable]
      refine (judges_withCount (Nat.lt_succ_of_le countable.1) ?_).congr (and_congr_left' bound)
      exact .mmap (fun item member into => ih (countable.2 item member) into) (spoils element)

/-- Decoding the bytes of a value succeeds exactly when the decoders take its sizes. -/
theorem decode_success_iff {type : Ty} {v : type.Val}
    (countable : type.Within ⟨2 ^ 32 - 1, 2 ^ 32 - 1⟩ v) {environment : Environment}
    {buffer : Buffer} {rest : List UInt8}
    (holds : load environment.memory buffer.start buffer.size.toNat = emitted type v ++ rest)
    (dest : type.Val) :
    ((decode environment type dest).run (Session.new buffer)).2.stream.errno = .success ↔
      type.Within decoderLimits v := by
  have ahead := new_ahead environment buffer
  rw [holds] at ahead
  obtain ⟨accepted, refused⟩ := judges_decode countable dest rest _ ahead.left
  constructor
  · intro success
    by_contra beyond
    exact (refused beyond).errno success
  · intro within
    exact (accepted within).errno

/-- Larger limits take every value that smaller ones take. -/
theorem Ty.Within.weaken {small large : Limits} (container : small.container ≤ large.container)
    (array : small.array ≤ large.array) {type : Ty} {v : type.Val}
    (within : type.Within small v) : type.Within large v := by
  induction type with
  | bool | integer width signed | varUInt | varInt => trivial
  | string | charVector => exact Nat.le_trans within container
  | vector element ih | set element ih =>
      exact ⟨Nat.le_trans within.1 container, fun item member => ih (within.2 item member)⟩
  | map key value keyIh valueIh =>
      refine ⟨Nat.le_trans within.1 container, fun entry member => ?_⟩
      obtain ⟨keyWithin, valueWithin⟩ := within.2 entry member
      exact ⟨keyIh keyWithin, valueIh valueWithin⟩
  | array element size ih =>
      exact ⟨Nat.le_trans within.1 array, fun item member => ih (within.2 item member)⟩

/-- The encoder has no limit: a value with fewer than `2 ^ 32` elements in each
container is written with `SUCCESS` wherever there is room for it. The decoder
takes its bytes when every container has at most `kMaxElementNum` elements and
every array fewer, and reports an error when one of them has more. -/
theorem decoder_limits {type : Ty} {v : type.Val}
    (countable : type.Within ⟨2 ^ 32 - 1, 2 ^ 32 - 1⟩ v) {output : Output}
    (valid : output.stream.valid = true) (object : output.stream.available < 2 ^ 63)
    (clean : output.stream.errno = .success)
    (room : (emitted type v).length ≤ output.stream.available) :
    let written := encode type v output
    let count := written.stream.pos - output.stream.pos
    written.stream.errno = .success ∧
      ∀ (environment : Environment) (buffer : Buffer) (dest : type.Val),
        load environment.memory buffer.start buffer.size.toNat =
          load written.memory output.stream.pos count.toNat →
        let decoded := (decode environment type dest).run (Session.new buffer)
        (type.Within ⟨kMaxElementNum, kMaxElementNum - 1⟩ v →
          decoded.2.stream.errno = .success) ∧
        (¬type.Within ⟨kMaxElementNum, kMaxElementNum⟩ v →
          decoded.2.stream.errno ≠ .success) := by
  intro written count
  obtain ⟨errno, contents⟩ := Output.encode_contents countable valid object room
  refine ⟨errno.trans clean, fun environment buffer dest holds => ?_⟩
  rw [contents, ← List.append_nil (emitted type v)] at holds
  have success := decode_success_iff countable holds dest
  refine ⟨success.mpr, fun beyond succeeded => beyond ?_⟩
  have within := success.mp succeeded
  exact @Ty.Within.weaken decoderLimits ⟨kMaxElementNum, kMaxElementNum⟩ (le_refl _)
    (Nat.sub_le _ _) type v within

/-- A vector of strings, decoded into another one. -/
theorem decoder_limits_vector :
    let type : Ty := .vector .string
    let v : type.Val := [[97], [], [98, 99]]
    let output : Output := ⟨fun _ => 0, .new ⟨4096, 64, by decide⟩⟩
    let written := encode type v output
    let count := written.stream.pos - output.stream.pos
    written.stream.errno = .success ∧
      ∀ (environment : Environment) (buffer : Buffer) (dest : type.Val),
        load environment.memory buffer.start buffer.size.toNat =
          load written.memory output.stream.pos count.toNat →
        let decoded := (decode environment type dest).run (Session.new buffer)
        (type.Within ⟨kMaxElementNum, kMaxElementNum - 1⟩ v →
          decoded.2.stream.errno = .success) ∧
        (¬type.Within ⟨kMaxElementNum, kMaxElementNum⟩ v →
          decoded.2.stream.errno ≠ .success) := by
  intro type v output
  have countable : type.Within ⟨2 ^ 32 - 1, 2 ^ 32 - 1⟩ v :=
    @of_decide_eq_true _ (type.decideWithin ⟨2 ^ 32 - 1, 2 ^ 32 - 1⟩ v) rfl
  have room : (emitted type v).length ≤ output.stream.available := by decide +kernel
  exact @decoder_limits type v countable output (by decide) (by decide +kernel) rfl room

/-- Whatever is beyond the limits of the decoders is written and then refused. -/
theorem refused_of_beyond {type : Ty} {v : type.Val}
    (countable : type.Within ⟨2 ^ 32 - 1, 2 ^ 32 - 1⟩ v) (beyond : ¬type.Within decoderLimits v)
    {start : Buffer} (object : start.size.toNat < 2 ^ 63)
    (room : (emitted type v).length ≤ start.size.toNat) :
    let written := encode type v (⟨fun _ => 0, .new start⟩ : Output)
    written.stream.errno = .success ∧
      ∃ buffer : Buffer, buffer.start = start.start ∧
        buffer.size = written.stream.pos - start.start ∧
        ((decode ⟨written.memory, fun _ bits _ => bits, fun _ _ => 0⟩ type type.zero).run
          (Session.new buffer)).2.stream.errno ≠ .success := by
  intro written
  have fits := start.fits
  have ahead := (new_ahead ⟨fun _ => 0, fun _ bits _ => bits, fun _ _ => 0⟩ start)
  have available : (DataStream.new start).available = start.size.toNat := by
    have whole := ahead.available
    rwa [length_load] at whole
  have valid : (DataStream.new start).valid = true := by
    rw [DataStream.valid_iff]
    exact ⟨le_refl _, ahead.inside⟩
  obtain ⟨errno, contents⟩ := @Output.encode_contents type v _ countable
    ⟨fun _ => 0, .new start⟩ valid (by rw [available]; exact object) (by rw [available]; exact room)
  have count : (written.stream.pos - start.start).toNat = (emitted type v).length := by
    rw [← contents, length_load]
    rfl
  have inside : start.start.toNat + (written.stream.pos - start.start).toNat < 2 ^ 64 := by
    rw [count]
    omega
  refine ⟨errno, ⟨start.start, written.stream.pos - start.start, inside⟩, rfl, rfl, ?_⟩
  intro success
  have holds := contents
  rw [← List.append_nil (emitted type v)] at holds
  exact beyond ((decode_success_iff countable holds type.zero).mp success)

/-- A string of one byte more than `kMaxElementNum` is written and refused. -/
theorem decoder_refuses_string :
    let v : Ty.string.Val := List.replicate (kMaxElementNum + 1) (97 : UInt8)
    let start : Buffer := ⟨4096, 2097152, by decide⟩
    let written := encode .string v (⟨fun _ => 0, .new start⟩ : Output)
    Ty.string.Within ⟨2 ^ 32 - 1, 2 ^ 32 - 1⟩ v ∧ written.stream.errno = .success ∧
      ∃ buffer : Buffer, buffer.start = 4096 ∧ buffer.size = written.stream.pos - 4096 ∧
        ((decode ⟨written.memory, fun _ bits _ => bits, fun _ _ => 0⟩ .string []).run
          (Session.new buffer)).2.stream.errno ≠ .success := by
  intro v start
  have length : List.length v = kMaxElementNum + 1 := List.length_replicate
  have countable : Ty.string.Within ⟨2 ^ 32 - 1, 2 ^ 32 - 1⟩ v := by
    change List.length v ≤ 2 ^ 32 - 1
    rw [length]
    decide
  have beyond : ¬Ty.string.Within decoderLimits v := by
    change ¬List.length v ≤ kMaxElementNum
    rw [length]
    exact Nat.not_succ_le_self _
  have spelled := Base128.length_unsigned_le (kMaxElementNum + 1) 4 (by decide)
  have size : (emitted .string v).length ≤ start.size.toNat := by
    rw [emitted_string (by decide) countable, length, List.length_append, length]
    exact Nat.le_trans (Nat.add_le_add_right spelled _) (by decide)
  exact ⟨countable, refused_of_beyond countable beyond (by decide) size⟩

end XProject.Base
