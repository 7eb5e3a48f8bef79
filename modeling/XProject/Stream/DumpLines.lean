import XProject.Stream.MemoryDump

/-!
# What a memory dump says

Without a prefix a dump has one line for every sixteen bytes. A line gives the
offset of its bytes, their digits in forty columns with blanks between and behind
them, and then, if wanted, their characters; the last line ends in the description.
The columns are judged piece by piece, the lines by induction on the outer loop.
-/

namespace XProject.Base

open XProject.Std

/-- What a call writes when its text fits the buffer. -/
def DumpCall.text : DumpCall → List UInt8
  | .writef text => text
  | .writeChar c => [c]

/-- Everything some calls write. -/
def written (calls : List DumpCall) : List UInt8 := calls.flatMap DumpCall.text

@[simp] theorem written_cons (call : DumpCall) (calls : List DumpCall) :
    written (call :: calls) = call.text ++ written calls := rfl

@[simp] theorem written_append (front back : List DumpCall) :
    written (front ++ back) = written front ++ written back := List.flatMap_append

/-! ## Columns -/

/-- Columns of a line: as wide as said, without a newline, and but for the blanks the
digits of `bytes`. -/
structure Columns (text bytes : List UInt8) (width : Nat) : Prop where
  length : text.length = width
  digits : text.filter (· ≠ 32) = Hex.spell bytes
  clean : (10 : UInt8) ∉ text

theorem Columns.nil : Columns [] [] 0 := ⟨rfl, rfl, List.not_mem_nil⟩

theorem Columns.blank : Columns [32] [] 1 := ⟨rfl, rfl, by decide⟩

theorem Columns.append {front back bytes rest : List UInt8} {width more : Nat}
    (first : Columns front bytes width) (second : Columns back rest more) :
    Columns (front ++ back) (bytes ++ rest) (width + more) where
  length := by rw [List.length_append, first.length, second.length]
  digits := by
    rw [List.filter_append, first.digits, second.digits]
    exact List.flatMap_append.symm
  clean := by
    rw [List.mem_append]
    rintro (inside | inside)
    · exact first.clean inside
    · exact second.clean inside

/-- A digit is neither a blank nor a newline. -/
theorem digit_ne {value : Nat} (small : value < 16) :
    Hex.digit value ≠ 32 ∧ Hex.digit value ≠ 10 := by
  have code := Hex.toNat_digit small
  have blank : (32 : UInt8).toNat = 32 := rfl
  have newline : (10 : UInt8).toNat = 10 := rfl
  constructor
  · intro same
    rw [same] at code
    split at code <;> omega
  · intro same
    rw [same] at code
    split at code <;> omega

theorem Columns.pair (byte : UInt8) : Columns (Hex.pair byte) [byte] 2 := by
  have bound := byte.toNat_lt
  obtain ⟨blankHigh, lineHigh⟩ := @digit_ne (byte.toNat / 16) (by omega)
  obtain ⟨blankLow, lineLow⟩ := @digit_ne (byte.toNat % 16) (by omega)
  refine ⟨rfl, ?_, ?_⟩
  · simp [Hex.pair, Hex.spell, blankHigh, blankLow]
  · simp [Hex.pair, lineHigh.symm, lineLow.symm]

theorem getD_inside {src : List UInt8} {p : Nat} (inside : p < src.length) :
    src.getD p 0 = src[p] := by
  rw [List.getD_eq_getElem?_getD, List.getElem?_eq_getElem inside, Option.getD_some]

/-- A group shows its bytes, and blanks beyond the end. -/
theorem dumpOctets_columns (src : List UInt8) (count p : Nat) :
    Columns (written (dumpOctets src count p).2) ((src.drop p).take count) (2 * count) := by
  induction count generalizing p with
  | zero => exact Columns.nil
  | succ count ih =>
      have rest := ih (p + 1)
      have width : 2 * (count + 1) = 2 + 2 * count := by omega
      rw [dumpOctets, written_append, width]
      by_cases inside : p < src.length
      · have taken : (src.drop p).take (count + 1) = [src[p]] ++ (src.drop (p + 1)).take count := by
          rw [List.drop_eq_getElem_cons inside]
          rfl
        rw [if_pos inside, getD_inside inside, taken, Hex.padded_two]
        exact (Columns.pair src[p]).append rest
      · have taken : (src.drop p).take (count + 1) = [] ++ [] ++ (src.drop (p + 1)).take count := by
          rw [List.drop_of_length_le (by omega), List.drop_of_length_le (by omega), List.take_nil,
            List.take_nil]
          rfl
        rw [if_neg inside, taken]
        exact (Columns.blank.append Columns.blank).append rest

theorem dumpGroups_columns {src : List UInt8} {lineEnd p : Nat} (groups : Nat)
    (whole : lineEnd = p + groups * dumpOctetsPerGroup) :
    Columns (written (dumpGroups src lineEnd p).2) ((src.drop p).take (groups * 2))
      (groups * 5) := by
  unfold dumpOctetsPerGroup at whole
  induction groups generalizing p with
  | zero =>
      rw [dumpGroups, if_neg (by omega), Nat.zero_mul, List.take_zero]
      exact Columns.nil
  | succ groups ih =>
      have next : lineEnd = p + 2 + groups * 2 := by omega
      have taken : (src.drop p).take ((groups + 1) * 2) =
          (src.drop p).take 2 ++ [] ++ (src.drop (p + 2)).take (groups * 2) := by
        rw [Nat.add_mul, Nat.one_mul, Nat.add_comm, List.take_add, List.drop_drop, List.append_nil]
      have width : (groups + 1) * 5 = 2 * 2 + 1 + groups * 5 := by omega
      rw [dumpGroups, if_pos (by omega), taken, width]
      simp only [dumpOctets_cursor, written_append]
      exact ((dumpOctets_columns src 2 p).append Columns.blank).append (ih next)

/-! ## Characters -/

/-- The character shown for a byte. -/
def shown (c : UInt8) : UInt8 := if isPrint c then c else 46

theorem shown_ne (c : UInt8) : shown c ≠ 10 := by
  unfold shown isPrint
  intro newline
  split at newline
  · rename_i printable
    have bounds := of_decide_eq_true printable
    rw [newline] at bounds
    exact absurd bounds (by decide)
  · cases newline

theorem dumpChars_written (src : List UInt8) (count p : Nat) :
    written (dumpChars src count p).2 = ((src.drop p).take count).map shown := by
  induction count generalizing p with
  | zero => rfl
  | succ count ih =>
      rw [dumpChars]
      by_cases inside : p < src.length
      · rw [if_pos inside, getD_inside inside, List.drop_eq_getElem_cons inside, List.take_succ_cons,
          List.map_cons, ← ih (p + 1)]
        rfl
      · rw [if_neg inside, List.drop_of_length_le (by omega)]
        rfl

/-! ## Lines -/

/-- The bytes shown on line `k`. -/
def row (src : List UInt8) (k : Nat) : List UInt8 := (src.drop (16 * k)).take 16

/-- The description as it stands behind a line. -/
def described (desc : Desc) : List UInt8 := desc.elim [] fun words => literal "  ; " ++ words

/-- Line `k` with `tail` behind it: the offset of its first byte, columns from whose
digits its bytes are read back, and their characters where these are wanted. -/
def IsDumpLine (src : List UInt8) (offset : Address) (printChars : PrintChars) (k : Nat)
    (tail line : List UInt8) : Prop :=
  ∃ columns : List UInt8,
    line = Hex.padded 7 (offset.toNat + 16 * k) ++ literal ": " ++ columns ++
      (if printChars = .yes then 32 :: (row src k).map shown else []) ++ tail ∧
    columns.length = 40 ∧ Hex.decode (columns.filter (· ≠ 32)) = some (row src k)

/-- The characters of a line are printable. -/
theorem characters_clean (src : List UInt8) (printChars : PrintChars) (k : Nat) :
    (10 : UInt8) ∉ (if printChars = .yes then 32 :: (row src k).map shown else []) := by
  intro inside
  split at inside
  · rcases List.mem_cons.mp inside with blank | later
    · cases blank
    · obtain ⟨c, _, same⟩ := List.mem_map.mp later
      exact shown_ne c same
  · cases inside

theorem described_clean {desc : Desc} (oneLine : ∀ words ∈ desc, (10 : UInt8) ∉ words) :
    (10 : UInt8) ∉ described desc := by
  cases desc with
  | none => exact List.not_mem_nil
  | some words =>
      intro inside
      rcases List.mem_append.mp inside with mark | later
      · exact absurd mark (by decide)
      · exact oneLine words rfl later

/-- A line has no newline inside. -/
theorem dumpLine_clean {src : List UInt8} {offset : Address} {printChars : PrintChars} {k : Nat}
    {columns tail : List UInt8} (cleanColumns : (10 : UInt8) ∉ columns)
    (cleanTail : (10 : UInt8) ∉ tail) :
    (10 : UInt8) ∉ Hex.padded 7 (offset.toNat + 16 * k) ++ literal ": " ++ columns ++
      (if printChars = .yes then 32 :: (row src k).map shown else []) ++ tail := by
  have number : (10 : UInt8) ∉ Hex.padded 7 (offset.toNat + 16 * k) := by
    intro inside
    obtain ⟨value, small, same⟩ := Hex.mem_padded inside
    exact (digit_ne small).2 same.symm
  have colon : (10 : UInt8) ∉ literal ": " := by decide
  have chars := characters_clean src printChars k
  simp only [List.mem_append, not_or]
  exact ⟨⟨⟨⟨number, colon⟩, cleanColumns⟩, chars⟩, cleanTail⟩

/-- The cursor has come to the end on the last line, and there the description is written. -/
theorem written_description {src : List UInt8} {offset : Address} {printChars : PrintChars}
    {desc : Desc} {k : Nat} (inside : 16 * k < src.length) :
    written (if (dumpLine src offset printChars none desc (16 * k)).1 ≥ src.length then
      desc.toList.map fun words => .writef (literal "  ; " ++ words) else []) =
    if src.length ≤ 16 * (k + 1) then described desc else [] := by
  have cursor := @dumpLine_cursor src offset printChars none desc _ inside
  have last : (dumpLine src offset printChars none desc (16 * k)).1 ≥ src.length ↔
      src.length ≤ 16 * (k + 1) := by
    rw [cursor, dumpOctetsPerLine]
    split <;> omega
  by_cases ends : src.length ≤ 16 * (k + 1)
  · rw [if_pos (last.mpr ends), if_pos ends]
    cases desc with
    | none => rfl
    | some words => exact List.append_nil _
  · rw [if_neg fun atEnd => ends (last.mp atEnd), if_neg ends]
    rfl

theorem written_characters (src : List UInt8) (printChars : PrintChars) (k cursor : Nat) :
    written (if printChars = .yes then
      ((dumpChars src 16 (16 * k)).1, DumpCall.writeChar 32 :: (dumpChars src 16 (16 * k)).2)
      else (cursor, [])).2 =
    if printChars = .yes then 32 :: (row src k).map shown else [] := by
  split
  · rw [written_cons, dumpChars_written]
    rfl
  · rfl

/-- One iteration writes its line and a newline; the description stands where the cursor
has come to the end. -/
theorem dumpLine_written {src : List UInt8} {offset : Address} (printChars : PrintChars)
    {desc : Desc} {k : Nat} (fits : offset.toNat + src.length < 2 ^ 64)
    (oneLine : ∀ words ∈ desc, (10 : UInt8) ∉ words) (inside : 16 * k < src.length) :
    ∃ line, written (dumpLine src offset printChars none desc (16 * k)).2 = line ++ [10] ∧
      (10 : UInt8) ∉ line ∧
      IsDumpLine src offset printChars k
        (if src.length ≤ 16 * (k + 1) then described desc else []) line := by
  have address : (UInt64.ofNat (16 * k) + offset).toNat = offset.toNat + 16 * k := by
    rw [UInt64.toNat_add, UInt64.toNat_ofNat']
    omega
  have columns := @dumpGroups_columns src (16 * k + 16) (16 * k) 8 rfl
  have decoded : Hex.decode ((written (dumpGroups src (16 * k + 16) (16 * k)).2).filter (· ≠ 32)) =
      some (row src k) := by
    rw [columns.digits]
    exact Hex.decode_spell _
  have cleanTail : (10 : UInt8) ∉ (if src.length ≤ 16 * (k + 1) then described desc else []) := by
    split
    · exact described_clean oneLine
    · exact List.not_mem_nil
  have shape : written (dumpLine src offset printChars none desc (16 * k)).2 =
      [] ++ (Hex.padded 7 (UInt64.ofNat (16 * k) + offset).toNat ++ literal ": " ++ []) ++
      written (dumpGroups src (16 * k + 16) (16 * k)).2 ++
      written (if printChars = .yes then
        ((dumpChars src 16 (16 * k)).1, DumpCall.writeChar 32 :: (dumpChars src 16 (16 * k)).2)
        else ((dumpGroups src (16 * k + 16) (16 * k)).1, [])).2 ++
      written (if (dumpLine src offset printChars none desc (16 * k)).1 ≥ src.length then
        desc.toList.map fun words => .writef (literal "  ; " ++ words) else []) ++ [10] := by
    simp only [dumpLine, written_append]
    rfl
  refine ⟨_, ?_, dumpLine_clean columns.clean cleanTail, _, rfl, columns.length, decoded⟩
  rw [shape, written_characters, written_description inside, address, List.nil_append,
    List.append_nil]

/-- The text of the lines from `first` on: one for every sixteen bytes left, and only the
one that comes to the end has the description. -/
structure DumpText (src : List UInt8) (offset : Address) (printChars : PrintChars) (desc : Desc)
    (first : Nat) (text : List UInt8) (lines : List (List UInt8)) : Prop where
  joined : text = lines.flatMap (· ++ [10])
  clean : ∀ line ∈ lines, (10 : UInt8) ∉ line
  count : lines.length = (src.length - 16 * first + 15) / 16
  each : ∀ k (inside : k < lines.length), IsDumpLine src offset printChars (first + k)
    (if src.length ≤ 16 * (first + k + 1) then described desc else []) lines[k]

theorem DumpText.nil {src : List UInt8} {offset : Address} {printChars : PrintChars} {desc : Desc}
    {first : Nat} (ended : src.length ≤ 16 * first) :
    DumpText src offset printChars desc first [] [] where
  joined := rfl
  clean := fun _ bad => absurd bad List.not_mem_nil
  count := by
    rw [List.length_nil]
    omega
  each := fun k bad => absurd bad (Nat.not_lt_zero k)

theorem DumpText.cons {src : List UInt8} {offset : Address} {printChars : PrintChars} {desc : Desc}
    {first : Nat} {line text : List UInt8} {lines : List (List UInt8)}
    (inside : 16 * first < src.length) (clean : (10 : UInt8) ∉ line)
    (isLine : IsDumpLine src offset printChars first
      (if src.length ≤ 16 * (first + 1) then described desc else []) line)
    (rest : DumpText src offset printChars desc (first + 1) text lines) :
    DumpText src offset printChars desc first (line ++ [10] ++ text) (line :: lines) where
  joined := by
    rw [rest.joined]
    rfl
  clean := List.forall_mem_cons.mpr ⟨clean, rest.clean⟩
  count := by
    rw [List.length_cons, rest.count]
    omega
  each := by
    intro k within
    cases k with
    | zero => exact isLine
    | succ k =>
        have later := rest.each k (Nat.lt_of_succ_lt_succ within)
        have shifted : first + 1 + k = first + (k + 1) := by omega
        rwa [shifted] at later

/-- The loop writes the lines from the one its cursor stands at. -/
theorem dumpLines_written {src : List UInt8} {offset : Address} (printChars : PrintChars)
    {desc : Desc} (fits : offset.toNat + src.length < 2 ^ 64)
    (oneLine : ∀ words ∈ desc, (10 : UInt8) ∉ words) {p : Nat} :
    ∀ {first : Nat}, p = 16 * first → ∃ lines, DumpText src offset printChars desc first
      (written (dumpLines src offset printChars none desc p)) lines := by
  induction p using dumpLines.induct src offset printChars none desc with
  | case1 p inside line =>
      rename_i ih
      rintro first rfl
      obtain ⟨here, isHere, clean, isLine⟩ := dumpLine_written printChars fits oneLine inside
      have cursor := @dumpLine_cursor src offset printChars none desc _ inside
      have rest : ∃ lines, DumpText src offset printChars desc (first + 1)
          (written (dumpLines src offset printChars none desc
            (dumpLine src offset printChars none desc (16 * first)).1)) lines := by
        unfold dumpOctetsPerLine at cursor
        rcases Nat.lt_or_ge (dumpLine src offset printChars none desc (16 * first)).1
          src.length with more | ended
        · have next : (dumpLine src offset printChars none desc (16 * first)).1 =
              16 * (first + 1) := by
            split at cursor <;> omega
          exact ih next
        · rw [dumpLines, if_neg (Nat.not_lt.mpr ended)]
          refine ⟨[], DumpText.nil ?_⟩
          split at cursor <;> omega
      obtain ⟨lines, isText⟩ := rest
      refine ⟨here :: lines, ?_⟩
      rw [dumpLines, if_pos inside, written_append, isHere]
      exact DumpText.cons inside clean isLine isText
  | case2 p outside =>
      rintro first rfl
      rw [dumpLines, if_neg outside]
      exact ⟨[], DumpText.nil (by omega)⟩

/-! ## On a stream -/

variable {Impl Log : Type} [StreamImpl Impl] [LogStream Log]

/-- Writes of some pieces, one after the other. -/
def writePieces (pieces : List (List UInt8)) (stream : Stream Impl Log) :
    Option (Stream Impl Log) :=
  pieces.foldlM (fun stream piece => stream.writeData piece none .no) stream

/-- Calls whose texts fit write their texts. -/
theorem perform_eq_writePieces {calls : List DumpCall}
    (fits : ∀ text, .writef text ∈ calls → FitsBuffer text) (stream : Stream Impl Log) :
    calls.foldlM DumpCall.perform stream = writePieces (calls.map DumpCall.text) stream := by
  induction calls generalizing stream with
  | nil => rfl
  | cons call calls ih =>
      have one : DumpCall.perform stream call = stream.writeData call.text none .no := by
        cases call with
        | writef text => exact writef_eq_writeData (fits text List.mem_cons_self) stream
        | writeChar c => rfl
      rw [List.map_cons, writePieces, List.foldlM_cons, List.foldlM_cons, one]
      cases stream.writeData call.text none .no with
      | none => rfl
      | some next => exact ih (fun text inside => fits text (List.mem_cons_of_mem _ inside)) next

/-- A memory stream with room holds the pieces behind what it held. -/
theorem MemoryStream.Holds.writePieces {stream : Stream MemoryStream Log} {data : List UInt8}
    (holds : Holds stream data) {pieces : List (List UInt8)}
    (room : data.length + pieces.flatten.length < 2 ^ 64) :
    ∃ next, Base.writePieces pieces stream = some next ∧ Holds next (data ++ pieces.flatten) := by
  induction pieces generalizing stream data with
  | nil => exact ⟨stream, rfl, by rwa [List.flatten_nil, List.append_nil]⟩
  | cons piece pieces ih =>
      rw [List.flatten_cons, List.length_append] at room
      obtain ⟨next, isNext, nextHolds⟩ := holds.writeData piece none .no (by omega)
      obtain ⟨final, isFinal, finalHolds⟩ := ih nextHolds (by rw [List.length_append]; omega)
      refine ⟨final, ?_, by rwa [List.flatten_cons, ← List.append_assoc]⟩
      rw [Base.writePieces, List.foldlM_cons, isNext]
      exact isFinal

/-- A dump without a prefix reaches every stream as one text: nothing for no bytes, and
otherwise a line for every sixteen, with its offset, columns that read back as its bytes
and their characters where these are wanted. The description ends the last line. -/
theorem memory_dump_decodable {src : List UInt8} {offset : Address} {printChars : PrintChars}
    {desc : Desc} (fits : offset.toNat + src.length < 2 ^ 64)
    (short : ∀ words ∈ desc, words.length < 500)
    (oneLine : ∀ words ∈ desc, (10 : UInt8) ∉ words) :
    ∃ pieces lines : List (List UInt8),
      (∀ {Impl Log : Type} [StreamImpl Impl] [LogStream Log] (stream : Stream Impl Log),
        writeMemoryDump src offset printChars none desc stream = writePieces pieces stream) ∧
      (∀ {Log : Type} [LogStream Log] (stream : Stream MemoryStream Log) (data : List UInt8),
        MemoryStream.Holds stream data → data.length + pieces.flatten.length < 2 ^ 64 →
        ∃ next, writeMemoryDump src offset printChars none desc stream = some next ∧
          MemoryStream.Holds next (data ++ pieces.flatten)) ∧
      (src = [] → pieces = []) ∧ pieces.flatten = lines.flatMap (· ++ [10]) ∧
      (∀ line ∈ lines, (10 : UInt8) ∉ line) ∧ lines.length = (src.length + 15) / 16 ∧
      ∀ k (inside : k < lines.length), IsDumpLine src offset printChars k
        (if k + 1 = lines.length then described desc else []) lines[k] := by
  have fitting : ∀ text, .writef text ∈ dumpCalls src offset printChars none desc →
      FitsBuffer text := by
    intro text called
    refine .inl ?_
    unfold streamLoggerBufferSize
    rcases mem_dumpLines called with small | bad | ⟨words, given, rfl⟩
    · omega
    · cases bad
    · have bound := short words given
      have mark : (literal "  ; ").length = 4 := rfl
      rw [List.length_append, mark]
      omega
  obtain ⟨lines, joined, clean, count, each⟩ := dumpLines_written printChars fits oneLine
    (Nat.mul_zero 16).symm
  have same : ∀ {Impl Log : Type} [StreamImpl Impl] [LogStream Log] (stream : Stream Impl Log),
      writeMemoryDump src offset printChars none desc stream =
        writePieces ((dumpCalls src offset printChars none desc).map DumpCall.text) stream :=
    fun stream => perform_eq_writePieces fitting stream
  refine ⟨_, lines, same, ?_, ?_, ?_, clean, count, ?_⟩
  · intro Log _ stream data holds room
    rw [same]
    exact holds.writePieces room
  · rintro rfl
    rw [dumpCalls, dumpLines]
    rfl
  · rw [← List.flatMap_def]
    exact joined
  · intro k inside
    have line := each k inside
    have ends : src.length ≤ 16 * (0 + k + 1) ↔ k + 1 = lines.length := by omega
    rw [Nat.zero_add] at line ends
    simpa only [ends] using line

/-- Seventeen bytes with a description take two lines. -/
theorem memory_dump_decodable_two : ∃ lines : List (List UInt8), lines.length = 2 ∧
    ∀ k (inside : k < lines.length), IsDumpLine (List.replicate 17 65) 16 .yes k
      (if k + 1 = lines.length then described (some (literal "data")) else []) lines[k] := by
  obtain ⟨_, lines, _, _, _, _, _, count, each⟩ := @memory_dump_decodable (List.replicate 17 65)
    16 .yes (some (literal "data")) (by decide) (by rintro _ ⟨⟩; decide) (by rintro _ ⟨⟩; decide)
  exact ⟨lines, count, each⟩

end XProject.Base
