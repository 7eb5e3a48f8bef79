import XProject.Std.Hex
import XProject.Stream.Writef

/-!
# `WriteMemoryDump`

The dump is a text like that of `xxd`. The calls it makes on its stream depend on
what it is given and not on the stream, so the loops yield the calls in order. One
cursor serves all loops; here it counts from `start`.
-/

namespace XProject.Base

open XProject.Std

/-- `DUMP_OCTETS_PER_LINE`. -/
def dumpOctetsPerLine : Nat := 16

/-- `DUMP_OCTETS_PER_GROUP`. -/
def dumpOctetsPerGroup : Nat := 2

/-- The characters of a string literal. -/
def literal (text : String) : List UInt8 := text.toList.map fun char => UInt8.ofNat char.toNat

/-- `isprint` of the C locale. -/
def isPrint (c : UInt8) : Bool := decide (32 ≤ c.toNat ∧ c.toNat ≤ 126)

/-- A call a dump makes on its stream; a format is rendered. -/
inductive DumpCall where
  | writef (text : List UInt8)
  | writeChar (c : UInt8)
deriving DecidableEq

/-- The loop over a group of `count` octets at cursor `p`. -/
def dumpOctets (src : List UInt8) : Nat → Nat → Nat × List DumpCall
  | 0, p => (p, [])
  | count + 1, p =>
      let calls :=
        if p < src.length then [DumpCall.writef (Hex.padded 2 (src.getD p 0).toNat)]
        else [.writeChar 32, .writeChar 32]
      let rest := dumpOctets src count (p + 1)
      (rest.1, calls ++ rest.2)

/-- A group moves the cursor on, past the end too. -/
@[simp] theorem dumpOctets_cursor (src : List UInt8) (count p : Nat) :
    (dumpOctets src count p).1 = p + count := by
  induction count generalizing p with
  | zero => rfl
  | succ count ih =>
      rw [dumpOctets, ih]
      omega

/-- The loop over the groups of a line, each with a blank behind it. -/
def dumpGroups (src : List UInt8) (lineEnd p : Nat) : Nat × List DumpCall :=
  if p < lineEnd then
    let group := dumpOctets src dumpOctetsPerGroup p
    let rest := dumpGroups src lineEnd group.1
    (rest.1, group.2 ++ [.writeChar 32] ++ rest.2)
  else (p, [])
termination_by lineEnd - p
decreasing_by
  rw [dumpOctets_cursor, dumpOctetsPerGroup]
  omega

/-- The loop over the characters of a line. -/
def dumpChars (src : List UInt8) : Nat → Nat → Nat × List DumpCall
  | 0, p => (p, [])
  | count + 1, p =>
      if p < src.length then
        let c := src.getD p 0
        let rest := dumpChars src count (p + 1)
        (rest.1, .writeChar (if isPrint c then c else 46) :: rest.2)
      else (p, [])

/-- One iteration of the outer loop at cursor `p`. -/
def dumpLine (src : List UInt8) (offset : Address) (printChars : PrintChars)
    (prefix_ desc : Desc) (p : Nat) : Nat × List DumpCall :=
  let line := p
  let lineEnd := p + dumpOctetsPerLine
  let address := Hex.padded 7 (UInt64.ofNat p + offset).toNat ++ literal ": "
  let octets := dumpGroups src lineEnd p
  let chars :=
    if printChars = .yes then
      -- the cursor returns to the start of the line
      let chars := dumpChars src dumpOctetsPerLine line
      (chars.1, DumpCall.writeChar 32 :: chars.2)
    else (octets.1, [])
  let description :=
    if chars.1 ≥ src.length then desc.toList.map fun text => .writef (literal "  ; " ++ text)
    else []
  (chars.1, prefix_.toList.map .writef ++ [.writef address] ++ octets.2 ++ chars.2 ++
    description ++ [.writeChar 10])

theorem dumpGroups_cursor {src : List UInt8} {lineEnd p : Nat} (groups : Nat)
    (whole : lineEnd = p + groups * dumpOctetsPerGroup) :
    (dumpGroups src lineEnd p).1 = lineEnd := by
  unfold dumpOctetsPerGroup at whole
  induction groups generalizing p with
  | zero =>
      rw [dumpGroups, if_neg (by omega)]
      exact (whole.trans (by omega)).symm
  | succ groups ih =>
      rw [dumpGroups, if_pos (by omega)]
      exact ih (by rw [dumpOctets_cursor, dumpOctetsPerGroup]; omega)

theorem dumpChars_cursor (src : List UInt8) (count p : Nat) :
    (dumpChars src count p).1 = max p (min (p + count) src.length) := by
  induction count generalizing p with
  | zero =>
      rw [dumpChars]
      omega
  | succ count ih =>
      rw [dumpChars]
      by_cases inside : p < src.length
      · rw [if_pos inside, ih]
        omega
      · rw [if_neg inside]
        omega

/-- Behind a line the cursor stands at the next one, or at or past the end. -/
theorem dumpLine_cursor {src : List UInt8} {offset : Address} {printChars : PrintChars}
    {prefix_ desc : Desc} {p : Nat} (inside : p < src.length) :
    (dumpLine src offset printChars prefix_ desc p).1 =
      if printChars = .yes then min (p + dumpOctetsPerLine) src.length
      else p + dumpOctetsPerLine := by
  simp only [dumpLine]
  cases printChars with
  | no => exact dumpGroups_cursor 8 rfl
  | yes =>
      rw [if_pos rfl, if_pos rfl]
      refine (dumpChars_cursor src _ p).trans ?_
      unfold dumpOctetsPerLine
      omega

/-- The outer loop from cursor `p` on. -/
def dumpLines (src : List UInt8) (offset : Address) (printChars : PrintChars)
    (prefix_ desc : Desc) (p : Nat) : List DumpCall :=
  if p < src.length then
    let line := dumpLine src offset printChars prefix_ desc p
    line.2 ++ dumpLines src offset printChars prefix_ desc line.1
  else []
termination_by src.length - p
decreasing_by
  rename_i inside
  rw [dumpLine_cursor inside, dumpOctetsPerLine]
  split <;> omega

/-- The calls of `WriteMemoryDump`, in order. -/
def dumpCalls (src : List UInt8) (offset : Address) (printChars : PrintChars)
    (prefix_ desc : Desc) : List DumpCall :=
  dumpLines src offset printChars prefix_ desc 0

variable {Impl Log : Type} [StreamImpl Impl] [LogStream Log]

/-- A call on a stream. -/
def DumpCall.perform (stream : Stream Impl Log) : DumpCall → Option (Stream Impl Log)
  | .writef text => Base.writef text stream
  | .writeChar c => Base.writeChar c stream

/-- `WriteMemoryDump`. -/
def writeMemoryDump (src : List UInt8) (offset : Address) (printChars : PrintChars)
    (prefix_ desc : Desc) (stream : Stream Impl Log) : Option (Stream Impl Log) :=
  (dumpCalls src offset printChars prefix_ desc).foldlM DumpCall.perform stream

/-! ## The formatted texts of a dump -/

theorem mem_dumpOctets {src text : List UInt8} {count p : Nat}
    (called : .writef text ∈ (dumpOctets src count p).2) : text.length ≤ 2 := by
  induction count generalizing p with
  | zero => cases called
  | succ count ih =>
      rcases List.mem_append.mp called with here | later
      · split at here
        · cases List.mem_singleton.mp here
          rw [Hex.padded_two]
          exact Nat.le_refl 2
        · rcases List.mem_cons.mp here with first | second
          · cases first
          · cases List.mem_singleton.mp second
      · exact ih later

theorem mem_dumpGroups {src text : List UInt8} {lineEnd p : Nat}
    (called : .writef text ∈ (dumpGroups src lineEnd p).2) : text.length ≤ 2 := by
  induction p using dumpGroups.induct src lineEnd with
  | case1 p inside group ih =>
      rw [dumpGroups, if_pos inside, List.mem_append, List.mem_append] at called
      rcases called with (octets | blank) | later
      · exact mem_dumpOctets octets
      · cases List.mem_singleton.mp blank
      · exact ih later
  | case2 p outside =>
      rw [dumpGroups, if_neg outside] at called
      cases called

theorem mem_dumpChars {src text : List UInt8} {count p : Nat} :
    .writef text ∉ (dumpChars src count p).2 := by
  induction count generalizing p with
  | zero => exact List.not_mem_nil
  | succ count ih =>
      rw [dumpChars]
      split
      · intro called
        rcases List.mem_cons.mp called with here | later
        · cases here
        · exact ih later
      · exact List.not_mem_nil

/-- The formatted calls of a line are short but for the prefix and the description. -/
theorem mem_dumpLine {src text : List UInt8} {offset : Address} {printChars : PrintChars}
    {prefix_ desc : Desc} {p : Nat}
    (called : .writef text ∈ (dumpLine src offset printChars prefix_ desc p).2) :
    text.length ≤ 18 ∨ text ∈ prefix_ ∨ ∃ words ∈ desc, text = literal "  ; " ++ words := by
  have described : ∀ cursor, .writef text ∈ (if cursor ≥ src.length then
      desc.toList.map fun words => DumpCall.writef (literal "  ; " ++ words) else []) →
      ∃ words ∈ desc, text = literal "  ; " ++ words := by
    intro cursor inside
    split at inside
    · obtain ⟨words, given, same⟩ := List.mem_map.mp inside
      cases same
      exact ⟨words, Option.mem_toList.mp given, rfl⟩
    · cases inside
  simp only [dumpLine, List.mem_append] at called
  rcases called with ((((front | address) | octets) | chars) | description) | newline
  · obtain ⟨given, inside, same⟩ := List.mem_map.mp front
    cases same
    exact .inr (.inl (Option.mem_toList.mp inside))
  · cases List.mem_singleton.mp address
    have bound := (UInt64.ofNat p + offset).toNat_lt
    have digits := @Hex.length_padded 7 _ 15 bound (by decide)
    refine .inl ?_
    rw [List.length_append]
    exact Nat.add_le_add_right digits 2
  · have short := mem_dumpGroups octets
    exact .inl (by omega)
  · split at chars
    · rcases List.mem_cons.mp chars with blank | later
      · cases blank
      · exact absurd later mem_dumpChars
    · cases chars
  · exact .inr (.inr (described _ description))
  · cases List.mem_singleton.mp newline

theorem mem_dumpLines {src text : List UInt8} {offset : Address} {printChars : PrintChars}
    {prefix_ desc : Desc} {p : Nat}
    (called : .writef text ∈ dumpLines src offset printChars prefix_ desc p) :
    text.length ≤ 18 ∨ text ∈ prefix_ ∨ ∃ words ∈ desc, text = literal "  ; " ++ words := by
  induction p using dumpLines.induct src offset printChars prefix_ desc with
  | case1 p inside line ih =>
      rw [dumpLines, if_pos inside, List.mem_append] at called
      rcases called with here | later
      · exact mem_dumpLine here
      · exact ih later
  | case2 p outside =>
      rw [dumpLines, if_neg outside] at called
      cases called

/-- A dump that writes a line writes the prefix. -/
theorem prefix_mem_dumpLines {src text : List UInt8} {offset : Address} {printChars : PrintChars}
    {prefix_ desc : Desc} {p : Nat} (inside : p < src.length) (given : text ∈ prefix_) :
    .writef text ∈ dumpLines src offset printChars prefix_ desc p := by
  rw [dumpLines, if_pos inside]
  apply List.mem_append_left
  simp only [dumpLine, List.mem_append]
  exact .inl (.inl (.inl (.inl (.inl (List.mem_map.mpr ⟨text, Option.mem_toList.mpr given, rfl⟩)))))

/-- A dump that writes a line comes to one that ends it, with the description. -/
theorem desc_mem_dumpLines {src words : List UInt8} {offset : Address} {printChars : PrintChars}
    {prefix_ desc : Desc} {p : Nat} (inside : p < src.length) (given : words ∈ desc) :
    .writef (literal "  ; " ++ words) ∈ dumpLines src offset printChars prefix_ desc p := by
  induction p using dumpLines.induct src offset printChars prefix_ desc with
  | case1 p inside line ih =>
      rw [dumpLines, if_pos inside]
      rcases Nat.lt_or_ge line.1 src.length with more | last
      · exact List.mem_append_right _ (ih more)
      · apply List.mem_append_left
        simp only [line, dumpLine] at last
        simp only [dumpLine, List.mem_append, if_pos last]
        exact .inl (.inr (List.mem_map.mpr ⟨words, Option.mem_toList.mpr given, rfl⟩))
  | case2 p outside => exact absurd inside outside

/-- `Writef` emits exactly the texts that fit its buffer; all formatted texts of a dump do
exactly when it has no line or its prefix and its description with the mark before it fit. -/
theorem writef_exact_iff (text src : List UInt8) (offset : Address) (printChars : PrintChars)
    (prefix_ desc : Desc) :
    (EmitsExactly text ↔ FitsBuffer text) ∧
      ((∀ text, .writef text ∈ dumpCalls src offset printChars prefix_ desc → EmitsExactly text) ↔
        src = [] ∨ ((∀ text ∈ prefix_, FitsBuffer text) ∧
          ∀ text ∈ desc, FitsBuffer (literal "  ; " ++ text))) := by
  refine ⟨emitsExactly_iff, ?_⟩
  constructor
  · intro exact_
    by_cases empty : src = []
    · exact .inl empty
    · have inside : 0 < src.length := List.length_pos_iff.mpr empty
      exact .inr ⟨fun text given => emitsExactly_iff.mp (exact_ _ (prefix_mem_dumpLines inside given)),
        fun words given => emitsExactly_iff.mp (exact_ _ (desc_mem_dumpLines inside given))⟩
  · rintro fits text called
    apply emitsExactly_iff.mpr
    rcases fits with rfl | ⟨fitsPrefix, fitsDesc⟩
    · have none_ : dumpCalls [] offset printChars prefix_ desc = [] := by
        rw [dumpCalls, dumpLines]
        rfl
      rw [none_] at called
      cases called
    · rcases mem_dumpLines called with short | given | ⟨words, given, rfl⟩
      · exact .inl (by unfold streamLoggerBufferSize; omega)
      · exact fitsPrefix text given
      · exact fitsDesc words given

/-- A text of the buffer's length loses its last byte, and a dump with a longer description
reads beyond the buffer. -/
theorem writef_inexact :
    ¬ EmitsExactly (List.replicate 512 97) ∧
      ¬ ∀ text, .writef text ∈ dumpCalls [0] 0 .no none (some (List.replicate 600 97)) →
        EmitsExactly text := by
  have full : ¬ FitsBuffer (List.replicate 512 97) := by
    rw [FitsBuffer, List.length_replicate, List.getLast?_replicate]
    rintro (short | ⟨_, zero⟩)
    · exact absurd short (by decide)
    · exact absurd zero (by decide)
  have long : ¬ FitsBuffer (literal "  ; " ++ List.replicate 600 97) := by
    rw [FitsBuffer, List.length_append, List.length_replicate]
    rintro (short | ⟨whole, _⟩)
    · exact absurd short (by decide)
    · exact absurd whole (by decide)
  refine ⟨fun emits => full (emitsExactly_iff.mp emits), fun exact_ => long ?_⟩
  exact emitsExactly_iff.mp (exact_ _ (desc_mem_dumpLines (by decide) rfl))

end XProject.Base
