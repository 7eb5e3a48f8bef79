import Mathlib.Data.List.Basic

/-!
# Texts made of lines

A line ends in a terminator and has none inside. A text made of lines is cut into
them again, and read line by line; reading goes on over texts put one after another.
-/

namespace XProject.Std.Lines

universe u

variable {α : Type u} (nl : α)

/-- The lines of a text, each with its terminator. -/
def join (lines : List (List α)) : List α := lines.flatMap (· ++ [nl])

/-- A text made of clean lines that read as these entries. -/
def Reads {Entry : Type u} (read : List α → Option Entry) (text : List α)
    (found : List Entry) : Prop :=
  ∃ lines, text = join nl lines ∧ (∀ line ∈ lines, nl ∉ line) ∧ lines.mapM read = some found

section

variable {nl} {Entry : Type u} {read : List α → Option Entry}

theorem Reads.nil : Reads nl read [] [] := ⟨[], rfl, fun _ bad => absurd bad List.not_mem_nil, rfl⟩

theorem Reads.single {line : List α} {entry : Entry} (clean : nl ∉ line)
    (is_ : read line = some entry) : Reads nl read (line ++ [nl]) [entry] := by
  refine ⟨[line], (List.append_nil _).symm, ?_, ?_⟩
  · intro other inside
    rwa [List.mem_singleton.mp inside]
  · rw [List.mapM_cons, is_, List.mapM_nil]
    rfl

theorem Reads.append {front back : List α} {first second : List Entry}
    (one : Reads nl read front first) (two : Reads nl read back second) :
    Reads nl read (front ++ back) (first ++ second) := by
  obtain ⟨lines, rfl, clean, found⟩ := one
  obtain ⟨more, rfl, cleanMore, foundMore⟩ := two
  refine ⟨lines ++ more, List.flatMap_append.symm, ?_, ?_⟩
  · intro line inside
    rcases List.mem_append.mp inside with early | late
    · exact clean line early
    · exact cleanMore line late
  · rw [List.mapM_append, found, foundMore]
    rfl

/-- Lines that read as the values of a function, one after another. -/
theorem mapM_range {lines : List (List α)} {entry : Nat → Entry}
    (each : ∀ index (inside : index < lines.length), read lines[index] = some (entry index)) :
    lines.mapM read = some ((List.range lines.length).map entry) := by
  induction lines generalizing entry with
  | nil => rfl
  | cons line lines ih =>
      have here : read line = some (entry 0) := each 0 (Nat.zero_lt_succ _)
      have later := @ih (fun index => entry (index + 1)) fun index inside =>
        each (index + 1) (Nat.succ_lt_succ inside)
      rw [List.mapM_cons, here, later, List.length_cons, List.range_succ_eq_map, List.map_cons,
        List.map_map]
      rfl

end

/-! ## Cutting a text into its lines -/

variable [DecidableEq α]

/-- The lines of a text; none if something is left behind the last terminator. -/
def split : List α → Option (List (List α))
  | [] => some []
  | char :: rest =>
      if char = nl then (split rest).map ([] :: ·)
      else
        match split rest with
        | some (line :: lines) => some ((char :: line) :: lines)
        | _ => none

/-- The entries of a text, one for every line. -/
def entries {Entry : Type u} (read : List α → Option Entry) (text : List α) :
    Option (List Entry) := do
  let lines ← split nl text
  lines.mapM read

variable {nl}

theorem split_append {line : List α} (clean : nl ∉ line) (rest : List α) :
    split nl (line ++ nl :: rest) = (split nl rest).map (line :: ·) := by
  induction line with
  | nil => rw [List.nil_append, split, if_pos rfl]
  | cons char line ih =>
      rw [List.mem_cons, not_or] at clean
      rw [List.cons_append, split, if_neg (Ne.symm clean.1), ih clean.2]
      cases split nl rest with
      | none => rfl
      | some lines => rfl

/-- Clean lines are found again. -/
theorem split_join {lines : List (List α)} (clean : ∀ line ∈ lines, nl ∉ line) :
    split nl (join nl lines) = some lines := by
  induction lines with
  | nil => rfl
  | cons line lines ih =>
      obtain ⟨here, later⟩ := List.forall_mem_cons.mp clean
      have text : join nl (line :: lines) = line ++ nl :: join nl lines := by
        rw [join, List.flatMap_cons, List.append_assoc]
        rfl
      rw [text, split_append here, ih later]
      rfl

/-- What such a text reads as is found by cutting it into lines. -/
theorem Reads.entries {Entry : Type u} {read : List α → Option Entry} {text : List α}
    {found : List Entry} (reads : Reads nl read text found) :
    Lines.entries nl read text = some found := by
  obtain ⟨lines, rfl, clean, all⟩ := reads
  rw [Lines.entries, split_join clean]
  exact all

/-! ## Literals in a line -/

/-- What follows a literal at the start of a text. -/
def skip : (word text : List α) → Option (List α)
  | [], text => some text
  | _ :: _, [] => none
  | char :: word, first :: text => if first = char then skip word text else none

@[simp] theorem skip_append (word text : List α) : skip word (word ++ text) = some text := by
  induction word with
  | nil => cases text <;> rfl
  | cons char word ih => rw [List.cons_append, skip, if_pos rfl, ih]

/-- A text that starts otherwise does not start with a literal. -/
theorem skip_other {char first : α} (different : first ≠ char) (word text : List α) :
    skip (char :: word) (first :: text) = none := if_neg different

end XProject.Std.Lines
