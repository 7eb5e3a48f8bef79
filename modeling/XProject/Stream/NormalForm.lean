import XProject.Stream.Decoded
import XProject.Stream.Hostile
import XProject.Stream.Output
import XProject.Stream.Truncation

/-!
# Any accepted message has a normal form

The decoders take sizes spelled with more groups than needed, any nonzero byte for
`true`, and the entries of sets and maps in any order, some of them twice. The value
they return is always one that can be written: within the limits, in no more bytes
than were read for it.
-/

namespace XProject.Base

open XProject.Std
open XProject.Std.Action
open Session

namespace Session

/-- No error is set, and the position is inside the buffer. -/
structure Sound (session : Session) : Prop where
  errno : session.stream.errno = .success
  inside : session.stream.pos.toNat ≤ session.stream.end_.toNat

/-- How many bytes there are left. -/
def left (session : Session) : Nat := session.stream.available

/-- The action ends in an error or takes from a sound session as many bytes as what it returns
is worth. -/
abbrev Buys {α : Type} (action : Decoder α) (worth : Nat → α → Prop) : Prop :=
  Pays Sound Spoiled left action worth

variable {environment : Environment}

theorem buys_read (size : Address) :
    Buys (read environment size) fun paid bytes =>
      paid = size.toNat ∧ ∃ content, bytes = some content ∧ content.length = size.toNat := by
  intro session sound
  change Spoiled (read environment size session).2 ∨ Sound (read environment size session).2 ∧ _
  have check := DataStream.read_check_iff size sound.inside
  change _ ∨ _ ∧ ∃ paid, left (read environment size session).2 + paid = left session ∧
    paid = size.toNat ∧ ∃ content, (read environment size session).1 = some content ∧ _
  rw [read, DataStream.read]
  by_cases enough : session.stream.end_ - session.stream.pos ≥ size
  · rw [if_pos enough]
    have fits := check.mp enough
    have moved := DataStream.toNat_pos_add fits
    rw [DataStream.available] at fits
    have inside := sound.inside
    refine .inr ⟨⟨sound.errno, ?_⟩, _, ?_, rfl, _, rfl, length_load ..⟩
    · change (session.stream.pos + size).toNat ≤ session.stream.end_.toNat
      omega
    · change session.stream.end_.toNat - (session.stream.pos + size).toNat + size.toNat =
        session.stream.end_.toNat - session.stream.pos.toNat
      omega
  · rw [if_neg enough]
    exact .inl ⟨ErrorCode.noConfusion, sound.inside⟩

theorem buys_get :
    Buys (get environment) fun paid byte => paid = 1 ∧ ∃ content, byte = some content := by
  intro session sound
  change Spoiled (get environment session).2 ∨ Sound (get environment session).2 ∧
    ∃ paid, left (get environment session).2 + paid = left session ∧
      paid = 1 ∧ ∃ content, (get environment session).1 = some content
  rw [get, DataStream.get]
  by_cases more : session.stream.pos < session.stream.end_
  · rw [if_pos more]
    have below := UInt64.lt_iff_toNat_lt.mp more
    have moved := DataStream.toNat_pos_succ more
    refine .inr ⟨⟨sound.errno, ?_⟩, 1, ?_, rfl, _, rfl⟩
    · change (session.stream.pos + 1).toNat ≤ session.stream.end_.toNat
      omega
    · change session.stream.end_.toNat - (session.stream.pos + 1).toNat + 1 =
        session.stream.end_.toNat - session.stream.pos.toNat
      omega
  · rw [if_neg more]
    exact .inl ⟨ErrorCode.noConfusion, sound.inside⟩

/-- What leaves the stream alone costs nothing. -/
theorem buys_aside {α : Type} {action : Decoder α} {worth : Nat → α → Prop}
    (aside : ∀ session, (action.run session).2.stream = session.stream)
    (free : ∀ session, worth 0 (action.run session).1) : Buys action worth := by
  intro session sound
  have same := aside session
  refine .inr ⟨⟨?_, ?_⟩, 0, ?_, free session⟩
  · rw [same]
    exact sound.errno
  · rw [same]
    exact sound.inside
  · rw [left, left, same, Nat.add_zero]

theorem buys_shift (operation : BitVec 32 → Nat → BitVec 32) (bits : BitVec 32) (count : Nat) :
    Buys (shift environment operation bits count) fun paid value =>
      paid = 0 ∧ (count < 32 → value = operation bits count) := by
  refine buys_aside shift_stream fun session => ⟨rfl, fun small => ?_⟩
  change (shift environment operation bits count session).1 = _
  have inside : 0 ≤ (count : Int) ∧ (count : Int) < 32 := by omega
  rw [shift, if_pos inside, Int.toNat_natCast]

end Session

variable {environment : Environment}

/-! ## Variable-length integers -/

theorem buys_getGroup (by_ : UInt8) :
    Buys (getGroup environment by_) fun paid group =>
      paid = 1 ∧ ∃ byte bits, group = some (byte, bits) ∧
        (by_.toNat < 32 → bits = placed byte by_) := by
  refine Pays.bind buys_get ?_ fun byte => ?_
  · rintro paid byte ⟨rfl, content, rfl⟩
    refine Pays.bind (buys_shift _ _ _) ?_ fun bits => .pure _
    rintro paid bits ⟨rfl, placed⟩
    exact .pure ⟨rfl, content, bits, rfl, placed⟩
  · cases byte with
    | none => exact .bind (spoils_of_advances advances_setErrno) fun _ => .pure none
    | some byte => exact .bind (spoils_of_advances (advances_shift environment _ _ _)) fun _ => .pure _

/-- `count` groups make a number below `128 ^ count`, as far as their shifts are defined. -/
def Gathered (count : Nat) (sum : BitVec 64) : Prop :=
  count < 5 → (sum.setWidth 32).toNat < 128 ^ count

/-- One more group is gathered. -/
theorem Gathered.next {count : Nat} {sum : BitVec 64} (gathered : Gathered count sum)
    {byte by_ : UInt8} {bits : BitVec 32} (shifted : count < 5 → by_.toNat = 7 * count)
    (placed_ : by_.toNat < 32 → bits = placed byte by_) :
    Gathered (count + 1) (sum ||| bits.setWidth 64) := by
  intro few
  have place := shifted (by omega)
  have before : (sum.setWidth 32).toNat < 2 ^ (7 * (count + 1)) := by
    have bound := gathered (by omega)
    rw [← Base128.two_pow_seven_mul] at bound
    exact lt_of_lt_of_le bound (Nat.pow_le_pow_right (by decide) (by omega))
  have here : bits.toNat < 2 ^ (7 * (count + 1)) := by
    rw [placed_ (by omega), placed_eq, BitVec.toNat_ofNat, Nat.shiftLeft_eq, place]
    have group := Base128.group_lt byte
    have scaled : 2 ^ (7 * (count + 1)) = 128 * 2 ^ (7 * count) := by
      rw [Nat.mul_succ, Nat.pow_add, Nat.mul_comm]
    rw [scaled]
    exact lt_of_le_of_lt (Nat.mod_le _ _)
      (Nat.mul_lt_mul_of_pos_right group (Nat.pow_pos (by decide)))
  have both := Nat.or_lt_two_pow before here
  rw [← Base128.two_pow_seven_mul, BitVec.setWidth_or,
    BitVec.setWidth_setWidth_of_le _ (by decide), BitVec.setWidth_eq, BitVec.toNat_or]
  exact both

/-- The loop of `VarUInt` gathers the groups it takes. -/
theorem buys_readGroups {count : Nat} {sum : BitVec 64} {by_ : UInt8}
    (gathered : Gathered count sum) (shifted : count < 5 → by_.toNat = 7 * count) :
    Buys (readGroups environment (fun v bits => v ||| bits.setWidth 64) sum by_)
      fun paid groups => 0 < paid ∧ ∃ total, groups.map Prod.fst = some total ∧
        Gathered (count + paid) total := by
  intro session
  change Sound session → Spoiled (readGroups environment _ sum by_ session).2 ∨
    Sound (readGroups environment _ sum by_ session).2 ∧ ∃ paid,
      left (readGroups environment _ sum by_ session).2 + paid = left session ∧ 0 < paid ∧
      ∃ total, (readGroups environment _ sum by_ session).1.map Prod.fst = some total ∧ _
  induction sum, by_, session using readGroups.induct environment
    (fun v bits => v ||| bits.setWidth 64) generalizing count with
  | case1 sum by_ session after failed =>
      intro sound
      have pass := @buys_getGroup environment by_ session sound
      rw [failed] at pass
      rw [readGroups, failed]
      rcases pass with spoiled | ⟨_, _, _, _, byte, bits, bad, _⟩
      · exact .inl spoiled
      · cases bad
  | case2 sum by_ session byte bits after passed continues ih =>
      intro sound
      have pass := @buys_getGroup environment by_ session sound
      rw [passed] at pass
      rw [readGroups, passed]
      simp only [continues, if_true]
      rcases pass with spoiled | ⟨soundAfter, _, used, rfl, _, _, got, placed_⟩
      · exact .inl (spoils_of_advances (advances_readGroups environment _ _ _) after spoiled)
      · cases got
        have next : count + 1 < 5 → (by_ + 7).toNat = 7 * (count + 1) := by
          intro few
          have place := shifted (by omega)
          rw [toNat_next (by omega), place]
          rfl
        have rest := ih (gathered.next shifted placed_) next soundAfter
        rcases rest with spoiled | ⟨final, more, usedMore, _, total, returned, all⟩
        · exact .inl spoiled
        · refine .inr ⟨final, 1 + more, ?_, by omega, total, returned, ?_⟩
          · rw [← used, ← usedMore, Nat.add_comm 1, Nat.add_assoc]
          · rwa [Nat.add_assoc] at all
  | case3 sum by_ session byte bits after passed stops =>
      intro sound
      have pass := @buys_getGroup environment by_ session sound
      rw [passed] at pass
      rw [readGroups, passed]
      simp only [stops]
      rcases pass with spoiled | ⟨soundAfter, _, used, rfl, _, _, got, placed_⟩
      · exact .inl spoiled
      · cases got
        exact .inr ⟨soundAfter, 1, used, Nat.one_pos, _, rfl, gathered.next shifted placed_⟩

/-- The number read is spelled in no more bytes than were read. -/
theorem buys_decodeVarUInt (var : BitVec 32) :
    Buys (decodeVarUInt environment var) fun paid value =>
      (Base128.unsigned value.toNat).length ≤ paid := by
  have empty : Gathered 0 0 := fun _ => by decide
  refine Pays.bind (buys_readGroups empty fun _ => rfl) ?_ fun groups => ?_
  · rintro paid groups ⟨positive, total, returned, gathered⟩
    cases groups with
    | none => cases returned
    | some groups =>
        cases returned
        refine .pure ?_
        rw [Nat.zero_add] at gathered
        have bound := (groups.1.setWidth 32).isLt
        have whole := Base128.length_unsigned_le (groups.1.setWidth 32).toNat 4 (by omega)
        rcases Nat.lt_or_ge paid 5 with few | many
        · obtain ⟨more, rfl⟩ := Nat.exists_eq_succ_of_ne_zero positive.ne'
          exact Base128.length_unsigned_le _ more (gathered few)
        · exact le_trans whole many
  · cases groups with
    | none => exact .pure var
    | some groups => exact .pure _

/-! ## Values -/

/-- The value is within the limits and written in at most so many bytes. -/
def Ty.Writable (type : Ty) (count : Nat) (v : type.Val) : Prop :=
  type.Within decoderLimits v ∧ (emitted type v).length ≤ count

theorem spoils_decode (type : Ty) (dest : type.Val) :
    Within (Spoils Spoiled) (decode environment type dest) :=
  spoils_of_advances (advances_decode environment type dest)

/-- A fixed-width integer is written in the bytes it was read from. -/
theorem buys_decodeInteger (width : IntWidth) (v : BitVec (8 * width.bytes)) :
    Buys (decodeInteger environment width v) fun paid _ => width.bytes ≤ paid := by
  refine Pays.bind (buys_read _) ?_ fun bytes => ?_
  · rintro paid bytes ⟨rfl, content, rfl, _⟩
    refine .pure ?_
    cases width <;> decide
  · cases bytes with
    | none => exact .pure v
    | some bytes => exact .pure _

theorem length_littleEndianBytes (count : Nat) {width : Nat} (v : BitVec width) :
    (littleEndianBytes count v).length = count := by
  rw [littleEndianBytes, List.length_map, List.length_range]

/-- A count is paid for with its spelling, and what follows pays for itself. -/
theorem buys_withCount {α : Type} {accepts : Nat → Bool} {dest : α} {body : Nat → Decoder α}
    {worth : Nat → α → Prop} (spoils : ∀ size, Within (Spoils Spoiled) (body size))
    (small : ∀ size, accepts size = true → size ≤ kMaxElementNum)
    (each : ∀ size paid, accepts size = true → (Base128.unsigned size).length ≤ paid →
      Buys (body size) fun more => worth (paid + more)) :
    Buys (withCount environment accepts dest body) worth := by
  refine Pays.bind (buys_decodeVarUInt 0) (fun paid size spelled => ?_) fun size => ?_
  · by_cases accepted : accepts size.toNat = true
    · rw [if_pos accepted]
      have noted : Buys (record (.sized size.toNat)) fun paid _ => paid = 0 :=
        buys_aside (fun _ => rfl) fun _ => rfl
      refine noted.bind ?_ fun _ => spoils _
      rintro nothing _ rfl
      exact (each size.toNat paid accepted spelled).mono fun more value final => by
        rwa [Nat.zero_add]
    · rw [if_neg accepted]
      intro session sound
      exact .inl ⟨ErrorCode.noConfusion, sound.inside⟩
  · by_cases accepted : accepts size.toNat = true
    · rw [if_pos accepted]
      exact .bind (spoils_of_advances (advances_record (small _ accepted))) fun _ => spoils _
    · rw [if_neg accepted]
      exact .bind (spoils_of_advances (advances_refuse _)) fun _ => .pure dest

/-- A string read into an empty destination is paid for with its size and its bytes. -/
theorem buys_decodeBytes :
    Buys (decodeBytes environment []) fun paid v =>
      v.length ≤ kMaxElementNum ∧ (Base128.unsigned v.length ++ v).length ≤ paid := by
  refine buys_withCount (fun size => ?_) withinCapacity_small fun size paid accepted spelled => ?_
  · refine .ite (fun _ => .bind (spoils_of_advances (advances_read environment _)) fun bytes => ?_)
      fun _ => .pure _
    cases bytes with
    | none => exact .pure _
    | some bytes => exact .pure bytes
  · have bound := withinCapacity_small size accepted
    by_cases some_ : size > 0
    · rw [if_pos some_]
      refine Pays.bind (buys_read _) ?_ fun bytes => ?_
      · rintro more bytes ⟨rfl, content, rfl, length⟩
        have size_ : (UInt64.ofNat (resized 0 size ([] : List UInt8)).length).toNat = size := by
          have small : kMaxElementNum < 2 ^ 64 := by decide
          rw [length_resized, UInt64.toNat_ofNat']
          omega
        rw [size_] at length ⊢
        refine .pure ⟨le_of_eq_of_le length bound, ?_⟩
        rw [List.length_append, length]
        omega
      · cases bytes with
        | none => exact .pure _
        | some bytes => exact .pure bytes
    · rw [if_neg some_]
      have none_ : size = 0 := by omega
      subst none_
      exact .pure ⟨Nat.zero_le _, by simpa using spelled⟩

/-- So many elements were read that fit, and the bytes of those kept are no more than paid for. -/
structure Collected {α : Type} (fits : α → Prop) (spell : α → List UInt8) (passes paid : Nat)
    (items : List α) : Prop where
  count : items.length ≤ passes
  fits : ∀ item ∈ items, fits item
  cost : (items.flatMap spell).length ≤ paid

/-- Emplacing one more element that was paid for. -/
theorem Collected.emplace {α κ : Type} [LinearOrder κ] {key : α → κ} {fits : α → Prop}
    {spell : α → List UInt8} {passes paid more : Nat} {container : Ascending key}
    (collected : Collected fits spell passes paid container.toList) {entry : α}
    (fit : fits entry) (bought : (spell entry).length ≤ more) :
    Collected fits spell (passes + 1) (paid + more) (container.emplace entry).toList := by
  have count := collected.count
  have cost := collected.cost
  rcases @Ascending.emplaceEntry_perm _ _ _ key entry container.toList with same | inserted
  · have kept : (container.emplace entry).toList = container.toList := same
    rw [kept]
    exact ⟨by omega, collected.fits, by omega⟩
  · have perm : (container.emplace entry).toList.Perm (entry :: container.toList) := inserted
    refine ⟨?_, fun item member => ?_, ?_⟩
    · rw [perm.length_eq, List.length_cons]
      omega
    · exact List.forall_mem_cons.mpr ⟨fit, collected.fits⟩ item (perm.mem_iff.mp member)
    · rw [(perm.flatMap_right spell).length_eq, List.flatMap_cons, List.length_append]
      omega

/-- Elements that are read and emplaced one after the other. -/
theorem buys_emplaced {α κ : Type} [LinearOrder κ] {key : α → κ} {fits : α → Prop}
    {spell : α → List UInt8} {step : Ascending key → Decoder (Ascending key)}
    (each : ∀ sofar, Buys (step sofar) fun paid next =>
      ∃ entry, next = sofar.emplace entry ∧ fits entry ∧ (spell entry).length ≤ paid)
    (spoils : ∀ sofar, Within (Spoils Spoiled) (step sofar)) (count : Nat) :
    Buys (iterate step count Ascending.empty) fun paid container =>
      Collected fits spell count paid container.toList := by
  let holds passes paid (sofar : Ascending key) := Collected fits spell passes paid sofar.toList
  have start : holds 0 0 Ascending.empty :=
    ⟨le_refl 0, fun _ member => absurd member List.not_mem_nil, le_refl 0⟩
  have pass : ∀ passes paid sofar, holds passes paid sofar →
      Buys (step sofar) fun more => holds (passes + 1) (paid + more) := by
    refine fun passes paid sofar collected => (each sofar).mono fun more next bought => ?_
    obtain ⟨entry, rfl, fit, cost⟩ := bought
    exact collected.emplace fit cost
  have loop := Pays.iterate pass spoils count start
  simpa only [Nat.zero_add] using loop

/-- A size in front of elements of which no more are kept. -/
theorem Collected.sized {α : Type} {fits : α → Prop} {spell : α → List UInt8} {size paid more : Nat}
    {items : List α} (collected : Collected fits spell size more items)
    (spelled : (Base128.unsigned size).length ≤ paid) :
    (Base128.unsigned items.length ++ items.flatMap spell).length ≤ paid + more := by
  have prefix_ := Base128.length_unsigned_mono collected.count
  have cost := collected.cost
  rw [List.length_append]
  omega

/-- One pass of the loop of a set. -/
theorem buys_setElement {element : Ty}
    (each : ∀ dest, element.Fresh dest → Buys (decode environment element dest) element.Writable)
    (s : Ascending (id : element.Val → element.Val)) :
    Buys (do
        let v ← declare environment element
        let v ← decode environment element v
        pure (s.emplace v))
      fun paid next => ∃ item, next = s.emplace item ∧ element.Within decoderLimits item ∧
        (emitted element item).length ≤ paid := by
  refine .after (declare_still element) (declare_fresh element) fun v fresh => ?_
  exact (each v fresh).bind (fun paid item bought => .pure ⟨item, rfl, bought⟩) fun v => .pure _

/-- One pass of the loop of a map. -/
theorem buys_mapEntry {key value : Ty}
    (eachKey : ∀ dest, key.Fresh dest → Buys (decode environment key dest) key.Writable)
    (eachValue : ∀ dest, value.Fresh dest → Buys (decode environment value dest) value.Writable)
    (m : Ascending (entryKey : key.Val ×ₗ value.Val → key.Val)) :
    Buys (do
        let k ← declare environment key
        let v ← declare environment value
        let k ← decode environment key k
        let v ← decode environment value v
        pure (m.emplace (toLex (k, v))))
      fun paid next => ∃ entry : key.Val ×ₗ value.Val, next = m.emplace entry ∧
        (key.Within decoderLimits (ofLex entry).1 ∧ value.Within decoderLimits (ofLex entry).2) ∧
        (emitted key (ofLex entry).1 ++ emitted value (ofLex entry).2).length ≤ paid := by
  refine .after (declare_still key) (declare_fresh key) fun k freshKey => ?_
  refine .after (declare_still value) (declare_fresh value) fun v freshValue => ?_
  refine (eachKey k freshKey).bind (fun paid k boughtKey => ?_) fun k =>
    .bind (spoils_decode value _) fun v => .pure _
  refine (eachValue v freshValue).bind (fun more v boughtValue => .pure ?_) fun v => .pure _
  refine ⟨toLex (k, v), rfl, ⟨boughtKey.1, boughtValue.1⟩, ?_⟩
  rw [List.length_append]
  exact Nat.add_le_add boughtKey.2 boughtValue.2

/-- Decoding into a fresh variable ends in an error or returns a value that can be written in no
more bytes than were read. -/
theorem buys_decode {type : Ty} (plain : type.withoutVarInt = true) {dest : type.Val}
    (fresh : type.Fresh dest) : Buys (decode environment type dest) type.Writable := by
  have small : decoderLimits.container < 2 ^ 32 := by decide
  have smallArray : decoderLimits.array < 2 ^ 32 := by decide
  induction type with
  | bool =>
      refine Pays.bind (buys_decodeInteger .one 0) (fun paid t bought => ?_) fun t => .pure _
      refine .pure ⟨trivial, ?_⟩
      exact le_trans (le_of_eq (length_littleEndianBytes ..)) bought
  | integer width signed =>
      refine (buys_decodeInteger width dest).mono fun paid v bought => ⟨trivial, ?_⟩
      exact le_trans (le_of_eq (length_littleEndianBytes ..)) bought
  | varUInt =>
      refine (buys_decodeVarUInt dest).mono fun paid v bought => ⟨trivial, ?_⟩
      have written : emitted .varUInt v = Base128.unsigned (BitVec.toNat v) :=
        encodeVarUInt_list v []
      rw [written]
      exact bought
  | varInt => exact Bool.noConfusion plain
  | string =>
      rw [show dest = ([] : List UInt8) from fresh]
      refine buys_decodeBytes.mono fun paid v bought => ⟨bought.1, ?_⟩
      rw [emitted_string small bought.1]
      exact bought.2
  | charVector =>
      rw [show dest = ([] : List UInt8) from fresh]
      refine buys_decodeBytes.mono fun paid v bought => ⟨bought.1, ?_⟩
      rw [emitted_charVector small bought.1]
      exact bought.2
  | vector element ih =>
      rw [show dest = ([] : List element.Val) from fresh]
      refine buys_withCount (fun size => .mapM (spoils_decode element) _) withinCapacity_small
        fun size paid accepted spelled => ?_
      have new : ∀ item ∈ resized element.zero size ([] : List element.Val), element.Fresh item := by
        intro item member
        simp only [resized, List.take_nil, List.nil_append] at member
        rw [List.eq_of_mem_replicate member]
        exact element.zero_fresh
      refine (Pays.mapM (fun item member => ih plain (new item member)) (spoils_decode element)).mono
        fun more v bought => ?_
      obtain ⟨length, fits, cost⟩ := bought
      rw [length_resized] at length
      have within : (Ty.vector element).Within decoderLimits v :=
        ⟨le_of_eq_of_le length (withinCapacity_small size accepted), fits⟩
      have collected : Collected (element.Within decoderLimits) (emitted element) size more v :=
        ⟨le_of_eq length, fits, cost⟩
      refine ⟨within, ?_⟩
      rw [emitted_vector small within]
      exact collected.sized spelled
  | set element ih =>
      have spoils := fun sofar => spoils_of_advances
        (advances_setElement environment (advances_decode environment element) sofar)
      refine buys_withCount (fun size => .iterate spoils size _) withinCapacity_small
        fun size paid accepted spelled => ?_
      have pass := fun sofar => buys_setElement (fun v new => ih plain new) sofar
      refine (buys_emplaced pass spoils size).mono fun more s collected => ?_
      have within : (Ty.set element).Within decoderLimits s :=
        ⟨le_trans collected.count (withinCapacity_small size accepted), collected.fits⟩
      refine ⟨within, ?_⟩
      rw [emitted_set small within]
      exact collected.sized spelled
  | map key value keyIh valueIh =>
      obtain ⟨plainKey, plainValue⟩ := Bool.and_eq_true_iff.mp plain
      have spoils := fun sofar => spoils_of_advances (advances_mapEntry environment
        (advances_decode environment key) (advances_decode environment value) sofar)
      refine buys_withCount (fun size => .iterate spoils size _) withinCapacity_small
        fun size paid accepted spelled => ?_
      have pass := fun sofar => buys_mapEntry (fun k new => keyIh plainKey new)
        (fun v new => valueIh plainValue new) sofar
      refine (buys_emplaced pass spoils size).mono fun more m collected => ?_
      have within : (Ty.map key value).Within decoderLimits m :=
        ⟨le_trans collected.count (withinCapacity_small size accepted), collected.fits⟩
      refine ⟨within, ?_⟩
      rw [emitted_map small within]
      exact collected.sized spelled
  | array element size ih =>
      refine buys_withCount (fun _ => .mmap (spoils_decode element) _)
        (fun count => sizeMatches_small size count) fun count paid accepted spelled => ?_
      simp only [Bool.and_eq_true, beq_iff_eq, decide_eq_true_eq] at accepted
      obtain ⟨rfl, below⟩ := accepted
      refine (Pays.mmap (fun item member => ih plain (fresh item member))
        (spoils_decode element)).mono fun more v bought => ?_
      obtain ⟨fits, cost⟩ := bought
      have within : (Ty.array element size).Within decoderLimits v := ⟨Nat.le_pred_of_lt below, fits⟩
      refine ⟨within, ?_⟩
      rw [emitted_array smallArray within, List.length_append]
      exact Nat.add_le_add spelled cost

/-! ## Writing back -/

/-- A buffer at whose front the bytes of a value lie is decoded to the value. -/
theorem decode_of_front {type : Ty} (plain : type.withoutVarInt = true) {v : type.Val}
    (within : type.Within decoderLimits v) {buffer : Buffer}
    (room : (emitted type v).length ≤ buffer.size.toNat)
    (front : load environment.memory buffer.start (emitted type v).length = emitted type v) :
    let decoded := (decode environment type type.zero).run (Session.new buffer)
    decoded.1 = v ∧ decoded.2.stream.errno = .success ∧
      decoded.2.stream.pos = buffer.start + UInt64.ofNat (emitted type v).length := by
  intro decoded
  have ahead := new_ahead environment buffer
  obtain ⟨behind, total⟩ := Nat.exists_eq_add_of_le room
  rw [total, load_add, front] at ahead
  have taken : Takes (Ahead environment (buffer.start + buffer.size)) _ _ _ :=
    takes_decoded plain within type.zero
  rw [(Ty.decoded_eq_iff type.zero v).mpr (type.zero_fresh.replaced v)] at taken
  obtain ⟨value, after⟩ := taken _ _ ahead
  exact ⟨value, after.errno, ahead.moved after⟩

/-- Whatever bytes are decoded with `SUCCESS`: the value is within the limits, and written back
over these bytes it fits without an error. Decoding the buffer again returns the value with
`SUCCESS` and ends where the writing ended, not behind where the first decoding did. -/
theorem normal_form {type : Ty} (plain : type.withoutVarInt = true) (environment : Environment)
    {buffer : Buffer} (object : buffer.size.toNat < 2 ^ 63) :
    let decoded := (decode environment type type.zero).run (Session.new buffer)
    decoded.2.stream.errno = .success →
      let written := encode type decoded.1 (⟨environment.memory, .new buffer⟩ : Output)
      type.Within decoderLimits decoded.1 ∧ written.stream.errno = .success ∧
        written.stream.pos ≤ decoded.2.stream.pos ∧
        ∀ environment' : Environment, environment'.memory = written.memory →
          let again := (decode environment' type type.zero).run (Session.new buffer)
          again.1 = decoded.1 ∧ again.2.stream.errno = .success ∧
            again.2.stream.pos = written.stream.pos := by
  intro decoded success written
  have fits := buffer.fits
  have start : (Session.new buffer).stream.pos.toNat = buffer.start.toNat := rfl
  have finish : (Session.new buffer).stream.end_.toNat =
      buffer.start.toNat + buffer.size.toNat := by
    change (buffer.start + buffer.size).toNat = _
    rw [UInt64.toNat_add]
    omega
  have sound : Sound (Session.new buffer) := ⟨rfl, by omega⟩
  have progress := advances_decode environment type type.zero _ sound.inside
  rcases buys_decode plain type.zero_fresh _ sound with spoiled | ⟨_, paid, used, within, short⟩
  · exact absurd success spoiled.errno
  · have behind := progress.inside
    simp only [left, DataStream.available, progress.end_] at used behind
    change _ - decoded.2.stream.pos.toNat + paid = _ at used
    change decoded.2.stream.pos.toNat ≤ _ at behind
    change (emitted type decoded.1).length ≤ paid at short
    have available : (DataStream.new buffer).available = buffer.size.toNat := by
      change (Session.new buffer).stream.end_.toNat - (Session.new buffer).stream.pos.toNat = _
      omega
    have room : (emitted type decoded.1).length ≤ buffer.size.toNat := by omega
    obtain ⟨stream, contents⟩ := Output.encode_wrote within ⟨environment.memory, .new buffer⟩
      sound.inside (lt_of_eq_of_lt available object) (le_of_le_of_eq room available.symm)
    have pos : written.stream.pos = buffer.start + UInt64.ofNat (emitted type decoded.1).length :=
      congrArg DataStream.pos stream
    refine ⟨within, congrArg DataStream.errno stream, ?_, fun environment' same => ?_⟩
    · rw [UInt64.le_iff_toNat_le, pos, UInt64.toNat_add, UInt64.toNat_ofNat']
      omega
    · have front : load environment'.memory buffer.start (emitted type decoded.1).length =
          emitted type decoded.1 := by
        rw [same]
        exact contents
      rw [pos]
      exact decode_of_front plain within room front

/-- A map in eight bytes: its size in two groups, `true` as 7, and a second entry for `true`.
Written back it takes four. -/
theorem normal_form_map :
    let type : Ty := .map .bool .string
    let environment := holding 4096 [0x82, 0x00, 7, 1, 97, 1, 1, 98]
    let buffer : Buffer := ⟨4096, 8, by decide⟩
    let decoded := (decode environment type type.zero).run (Session.new buffer)
    let written := encode type decoded.1 (⟨environment.memory, .new buffer⟩ : Output)
    decoded.2.stream.pos = 4104 ∧ written.stream.pos = 4100 ∧
      ∀ environment' : Environment, environment'.memory = written.memory →
        ((decode environment' type type.zero).run (Session.new buffer)).1 = decoded.1 := by
  intro type environment buffer decoded written
  obtain ⟨_, _, _, again⟩ := @normal_form type rfl environment buffer (by decide) (by decide +kernel)
  exact ⟨by decide +kernel, by decide +kernel, fun environment' same => (again environment' same).1⟩

end XProject.Base
