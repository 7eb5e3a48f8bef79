import XProject.Stream.Limits

/-!
# One format for three containers of bytes

A `std::string` and a `std::vector<char>` copy their bytes in one piece, a
`std::vector<uint8_t>` goes through them one by one. Behind an accepted count each
way takes as many bytes as the count says, and detects that fewer are left; so they
write the same bytes and agree on every input.
-/

namespace XProject.Base

open XProject.Std
open XProject.Std.Action
open Session

/-- `std::vector<uint8_t>`, whose elements are integers. -/
abbrev octetVector : Ty := .vector (.integer .one false)

/-- A byte as an integer of one byte. -/
def octet (byte : UInt8) : BitVec (8 * IntWidth.one.bytes) := byte.toBitVec

/-- Bytes as the elements of a `std::vector<uint8_t>`. -/
def octets (bytes : List UInt8) : octetVector.Val := bytes.map octet

/-! ## Writing -/

theorem littleEndianBytes_octet (byte : UInt8) :
    littleEndianBytes IntWidth.one.bytes (octet byte) = [byte] := by
  have shifted : octet byte >>> (8 * 0) = octet byte := BitVec.ushiftRight_zero _
  have single : List.range IntWidth.one.bytes = [0] := rfl
  rw [littleEndianBytes, single, List.map_singleton, shifted]
  rfl

/-- An octet is written as one byte. -/
theorem encodeInteger_octet (byte : UInt8) (written : List UInt8) :
    encodeInteger .one (octet byte) written = written ++ [byte] :=
  congrArg (written ++ ·) (littleEndianBytes_octet byte)

/-- A string is written whole behind its size, also when it is empty. -/
theorem emitted_string_eq (bytes : List UInt8) :
    emitted .string bytes = encodeSize bytes.length [] ++ bytes := by
  change (if bytes.length ≠ 0 then encodeSize bytes.length [] ++ bytes
    else encodeSize bytes.length []) = _
  split
  · rfl
  · rename_i empty
    rw [List.length_eq_zero_iff.mp (not_not.mp empty), List.append_nil]

/-- The octets of a vector are written behind its size. -/
theorem emitted_octets_eq (bytes : List UInt8) :
    emitted octetVector (octets bytes) = encodeSize bytes.length [] ++ bytes := by
  have length : (bytes.map octet).length = bytes.length := List.length_map ..
  have each : ∀ byte ∈ bytes, ∀ written : List UInt8,
      encodeInteger .one (octet byte) written = written ++ [byte] :=
    fun byte _ written => encodeInteger_octet byte written
  change (bytes.map octet).foldl (fun ds byte => encodeInteger .one byte ds)
    (encodeSize (bytes.map octet).length []) = _
  rw [List.foldl_map, foldl_list each, List.flatMap_singleton', length]

/-! ## Reading behind an accepted count -/

variable {environment : Environment} {end_ : Address}

/-- The position is determined by what is left. -/
theorem left_pos {bytes : List UInt8} {session : Session}
    (left : Left environment end_ bytes session) :
    session.stream.pos.toNat + bytes.length = end_.toNat :=
  left.ahead.pos

/-- What an action detects with nothing gone wrong it detects behind any history. -/
theorem detects_left {α : Type} {action : Environment → Decoder α} (resumes : Resumes action)
    {bytes : List UInt8}
    (detected : ∀ environment, Detects (Ahead environment end_) Spoiled (action environment) bytes) :
    Detects (Left environment end_) Spoiled (action environment) bytes := by
  intro cut part proper session left
  have spoiled := detected (environment.after session.trace) cut part proper _ left.ahead
  have resumed := resumes environment session.trace ⟨session.stream, []⟩
  have whole : onto session.trace ⟨session.stream, []⟩ = session := rfl
  rw [whole] at resumed
  rw [resumed]
  exact ⟨spoiled.errno, spoiled.inside⟩

/-- Behind an accepted count, as many bytes are taken as it says, and read as a value;
that fewer are left is detected. -/
structure Fetches (environment : Environment) (end_ : Address) {α : Type}
    (value : List UInt8 → α) (body : Nat → Decoder α) : Prop where
  takes : ∀ bytes, bytes.length ≤ kMaxElementNum →
    Takes (Left environment end_) (body bytes.length) bytes (value bytes)
  detects : ∀ bytes, bytes.length ≤ kMaxElementNum →
    Detects (Left environment end_) Spoiled (body bytes.length) bytes
  spoils : ∀ size, Within (Spoils Spoiled) (body size)

/-- The loop body of `decodeBytes` on an empty destination. -/
def fetchBytes (environment : Environment) (size : Nat) : Decoder (List UInt8) :=
  if size > 0 then do
    let v := resized 0 size []
    match ← Session.read environment (UInt64.ofNat v.length) with
    | none => pure v
    | some bytes => pure bytes
  else pure []

/-- In one piece. -/
theorem fetches_bytes : Fetches environment end_ id (fetchBytes environment) := by
  have length : ∀ bytes : List UInt8, bytes.length ≤ kMaxElementNum →
      bytes.length = (UInt64.ofNat (resized (0 : UInt8) bytes.length []).length).toNat := by
    intro bytes small
    have bound : bytes.length < 2 ^ 64 := lt_of_le_of_lt small (by decide)
    rw [length_resized, UInt64.toNat_ofNat', Nat.mod_eq_of_lt bound]
  constructor
  · intro bytes small
    unfold fetchBytes
    by_cases empty : bytes = []
    · rw [if_neg (by simp [empty]), empty]
      exact .pure []
    · rw [if_pos (List.length_pos_iff.mpr empty)]
      have taken : Takes (Left environment end_) _ _ _ :=
        takes_left (resumes_read _) fun _ => takes_read (length bytes small)
      exact taken.finish rfl
  · intro bytes small
    unfold fetchBytes
    by_cases empty : bytes = []
    · rw [empty]
      exact .nil _
    · rw [if_pos (List.length_pos_iff.mpr empty)]
      have detected : Detects (Left environment end_) Spoiled _ _ :=
        detects_left (resumes_read _) fun _ => detects_read (length bytes small)
      refine detected.finish fun read => ?_
      cases read with
      | none => exact .pure _
      | some bytes => exact .pure bytes
  · intro size
    exact spoils_of_advances (.ite (fun _ => advances_readBytes environment _) fun _ => .pure _)

/-- The loop of `std::vector<uint8_t>` on an empty destination. -/
def fetchOctets (environment : Environment) (size : Nat) : Decoder octetVector.Val :=
  (resized (0 : BitVec (8 * IntWidth.one.bytes)) size []).mapM (decodeInteger environment .one)

/-- One by one. -/
theorem fetches_octets : Fetches environment end_ octets (fetchOctets environment) := by
  have takes : ∀ (byte : UInt8) (dest : BitVec (8 * IntWidth.one.bytes)),
      Takes (Left environment end_) (decodeInteger environment .one dest) [byte] (octet byte) := by
    intro byte dest
    have taken : Takes (Left environment end_) _ _ _ := left_integer .one (octet byte) dest
    rwa [littleEndianBytes_octet] at taken
  have detects : ∀ (byte : UInt8) (dest : BitVec (8 * IntWidth.one.bytes)),
      Detects (Left environment end_) Spoiled (decodeInteger environment .one dest) [byte] := by
    intro byte dest
    have detected : Detects (Left environment end_) Spoiled _ _ :=
      detects_left (resumes_decodeInteger .one dest) fun _ =>
        detects_decodeInteger .one (octet byte) dest
    rwa [littleEndianBytes_octet] at detected
  have spoils : ∀ dest, Within (Spoils Spoiled) (decodeInteger environment .one dest) :=
    fun dest => spoils_of_advances (advances_decodeInteger environment .one dest)
  have length : ∀ bytes : List UInt8, (resized (0 : BitVec (8 * IntWidth.one.bytes)) bytes.length
      []).length = bytes.length := fun bytes => length_resized ..
  constructor
  · intro bytes small
    have taken := @Takes.mapM _ _ _ _ _ _ _ (fun byte => [byte]) (fun _ byte => octet byte) bytes _
      (fun byte _ dest _ => takes byte dest) (length bytes)
    have stored : List.zipWith (fun _ byte => octet byte)
        (resized (0 : BitVec (8 * IntWidth.one.bytes)) bytes.length []) bytes =
        bytes.map octet := by
      apply List.ext_getElem
      · rw [List.length_zipWith, length, List.length_map, Nat.min_self]
      · intro index _ _
        rw [List.getElem_zipWith, List.getElem_map]
    rw [List.flatMap_singleton', stored] at taken
    exact taken
  · intro bytes small
    have detected := @Detects.mapM _ _ _ _ _ _ _ _ (fun byte => [byte]) (fun _ byte => octet byte)
      bytes _ (fun byte _ dest _ => takes byte dest) (fun byte _ dest _ => detects byte dest) spoils
      (length bytes)
    rw [List.flatMap_singleton'] at detected
    exact detected
  · intro size
    exact .mapM spoils _

/-! ## Every input -/

/-- A count that was read is refused, or noted and obeyed. -/
theorem withCount_run {α : Type} {dest : α} {body : Nat → Decoder α} {session after : Session}
    {size : BitVec 32} (counted : (decodeVarUInt environment 0).run session = (size, after)) :
    (withCount environment withinCapacity dest body).run session =
      if withinCapacity size.toNat = true then
        (body size.toNat).run { after with trace := .sized size.toNat :: after.trace }
      else (dest, ⟨after.stream.setErrno .trapOutOfCapacity,
        .refused size.toNat :: after.trace⟩) := by
  rw [withCount, StateT.run_bind, counted]
  by_cases accepted : withinCapacity size.toNat = true
  · rw [if_pos accepted]
    change ((if withinCapacity size.toNat = true then
      record (.sized size.toNat) >>= fun _ => body size.toNat
      else refuse size.toNat >>= fun _ => pure dest) : Decoder α).run after = _
    rw [if_pos accepted]
    rfl
  · rw [if_neg accepted]
    change ((if withinCapacity size.toNat = true then
      record (.sized size.toNat) >>= fun _ => body size.toNat
      else refuse size.toNat >>= fun _ => pure dest) : Decoder α).run after = _
    rw [if_neg accepted]
    rfl

/-- The decoder of a container whose elements are fetched by `body`. -/
structure Container (environment : Environment) (end_ : Address) where
  {α : Type}
  dest : α
  value : List UInt8 → α
  body : Nat → Decoder α
  fetches : Fetches environment end_ value body

/-- The decoding of a container from a session. -/
def Container.decoded (container : Container environment end_) (session : Session) :
    container.α × Session :=
  (withCount environment withinCapacity container.dest container.body).run session

/-- What is left behind an accepted count decides for all containers. -/
theorem fetch_outcome {size : Nat} (small : size ≤ kMaxElementNum) {unread : List UInt8}
    {session : Session} (left : Left environment end_ unread session) :
    (∀ container : Container environment end_,
      ((container.body size).run session).2.stream.errno ≠ .success) ∨
    ∃ bytes pos, ∀ container : Container environment end_,
      ((container.body size).run session).2.stream.errno = .success ∧
      ((container.body size).run session).1 = container.value bytes ∧
      ((container.body size).run session).2.stream.pos.toNat = pos := by
  by_cases enough : size ≤ unread.length
  · right
    have length : (unread.take size).length = size := by
      rw [List.length_take, Nat.min_eq_left enough]
    rw [← List.take_append_drop size unread] at left
    refine ⟨unread.take size, end_.toNat - (unread.drop size).length, fun container => ?_⟩
    have taken := container.fetches.takes _ (length.trans_le small)
    rw [length] at taken
    obtain ⟨value, rest⟩ := taken _ session left
    have position := left_pos rest
    exact ⟨rest.errno, value, by omega⟩
  · refine .inl fun container => ?_
    have more : (unread ++ List.replicate (size - unread.length) 0).length = size := by
      rw [List.length_append, List.length_replicate]
      omega
    have detected := container.fetches.detects _ (more.trans_le small)
    rw [more] at detected
    have proper : unread ≠ unread ++ List.replicate (size - unread.length) 0 := by
      intro same
      rw [← same] at more
      omega
    exact (detected unread (List.prefix_append ..) proper session left).errno

/-- What the input decides alone: whether there is an error, and which bytes are in the
container and where the stream stands if not. -/
theorem container_outcome (buffer : Buffer) :
    (∀ container : Container environment (buffer.start + buffer.size),
      (container.decoded (Session.new buffer)).2.stream.errno ≠ .success) ∨
    ∃ bytes pos, ∀ container : Container environment (buffer.start + buffer.size),
      (container.decoded (Session.new buffer)).2.stream.errno = .success ∧
      (container.decoded (Session.new buffer)).1 = container.value bytes ∧
      (container.decoded (Session.new buffer)).2.stream.pos.toNat = pos := by
  have start := (new_ahead environment buffer).inside
  have progress := advances_decodeVarUInt environment 0 (Session.new buffer) start
  cases counted : (decodeVarUInt environment 0).run (Session.new buffer) with
  | mk size after =>
      rw [counted] at progress
      have ran := fun container : Container environment (buffer.start + buffer.size) =>
        @withCount_run environment container.α container.dest container.body _ _ _ counted
      by_cases accepted : withinCapacity size.toNat = true
      · simp only [if_pos accepted] at ran
        generalize noted : ({ after with trace := .sized size.toNat :: after.trace } : Session) =
          session at ran
        have stream : session.stream = after.stream := by rw [← noted]
        have inside : session.stream.pos.toNat ≤ session.stream.end_.toNat := by
          rw [stream]
          exact progress.inside
        simp only [Container.decoded, ran]
        by_cases clean : session.stream.errno = .success
        · have left : Left environment (buffer.start + buffer.size)
              (session.stream.unread environment.memory) session :=
            ⟨by rw [stream]; exact progress.end_, inside, rfl, clean⟩
          exact fetch_outcome (withinCapacity_small size.toNat accepted) left
        · exact .inl fun container =>
            (container.fetches.spoils _ session ⟨clean, inside⟩).errno
      · left
        intro container
        rw [Container.decoded, ran, if_neg accepted]
        exact ErrorCode.noConfusion

/-- The decoder shared by `std::string` and `std::vector<char>`. -/
def bytesContainer (environment : Environment) (end_ : Address) : Container environment end_ :=
  ⟨([] : List UInt8), id, fetchBytes environment, fetches_bytes⟩

/-- The decoder of `std::vector<uint8_t>`. -/
def octetsContainer (environment : Environment) (end_ : Address) : Container environment end_ :=
  ⟨(Ty.zero octetVector : octetVector.Val), octets, fetchOctets environment, fetches_octets⟩

/-- The three containers write the same bytes, and from any input, decoded into fresh
variables, they all end in an error or all hold the same bytes at the same position. -/
theorem byte_containers_agree :
    (∀ bytes : List UInt8, emitted .charVector bytes = emitted .string bytes ∧
      emitted octetVector (octets bytes) = emitted .string bytes) ∧
    ∀ (environment : Environment) (buffer : Buffer),
      let string := (decode environment .string (Ty.zero .string)).run (Session.new buffer)
      let chars := (decode environment .charVector (Ty.zero .charVector)).run (Session.new buffer)
      let vector := (decode environment octetVector (Ty.zero octetVector)).run (Session.new buffer)
      (string.2.stream.errno = .success ∧ chars.2.stream.errno = .success ∧
        vector.2.stream.errno = .success ∧ chars.1 = string.1 ∧ vector.1 = octets string.1 ∧
        chars.2.stream.pos = string.2.stream.pos ∧ vector.2.stream.pos = string.2.stream.pos) ∨
      (string.2.stream.errno ≠ .success ∧ chars.2.stream.errno ≠ .success ∧
        vector.2.stream.errno ≠ .success) := by
  constructor
  · intro bytes
    rw [emitted_string_eq, emitted_octets_eq]
    exact ⟨rfl, rfl⟩
  · intro environment buffer string chars vector
    let end_ := buffer.start + buffer.size
    have bulk : string = (bytesContainer environment end_).decoded (Session.new buffer) := rfl
    have looped : vector = (octetsContainer environment end_).decoded (Session.new buffer) := rfl
    have same : chars = string := rfl
    rw [same]
    rcases @container_outcome environment buffer with failed | ⟨bytes, pos, agreed⟩
    · right
      rw [bulk, looped]
      exact ⟨failed _, failed _, failed _⟩
    · left
      obtain ⟨errno, value, position⟩ := agreed (bytesContainer environment _)
      obtain ⟨errno', value', position'⟩ := agreed (octetsContainer environment _)
      rw [← bulk] at errno value position
      rw [← looped] at errno' value' position'
      refine ⟨errno, errno, errno', rfl, ?_, rfl, ?_⟩
      · rw [value', value]
        rfl
      · exact UInt64.toNat_inj.mp (position'.trans position.symm)

end XProject.Base
