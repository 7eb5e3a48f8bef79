import Mathlib.Data.List.Basic

/-!
# Terminated strings

The library routines on strings get a pointer and go on to a terminator. Here
each gets the characters from its pointer to the end of the object instead, and
has no result when it needs a character behind that end. For each it is shown on
which characters that happens.
-/

namespace XProject.Std.CString

variable {α : Type} [DecidableEq α] (nul : α)

/-- The number of characters before the terminator. -/
def strlen : List α → Option Nat
  | [] => none
  | char :: rest => if char = nul then some 0 else (strlen rest).map (· + 1)

/-- The index of a character in the string, terminator included, if it occurs. -/
def strchr (ch : α) : List α → Option (Option Nat)
  | [] => none
  | char :: rest =>
      if char = ch then some (some 0)
      else if char = nul then some none
      else (strchr ch rest).map (Option.map (· + 1))

/-- The characters that decide between two strings: the first that differ, or
the terminators of both. -/
def strcmp : List α → List α → Option (α × α)
  | left :: lefts, right :: rights =>
      if left = right ∧ left ≠ nul then strcmp lefts rights else some (left, right)
  | _, _ => none

/-- The first pair among the first `n` that decides, if any. -/
def strncmp : (n : Nat) → List α → List α → Option (Option (α × α))
  | 0, _, _ => some none
  | n + 1, left :: lefts, right :: rights =>
      if left = right ∧ left ≠ nul then strncmp n lefts rights else some (some (left, right))
  | _ + 1, _, _ => none

/-- The index of a character among the first `n`, if it occurs there. -/
def memchr (ch : α) : (n : Nat) → List α → Option (Option Nat)
  | 0, _ => some none
  | _ + 1, [] => none
  | n + 1, char :: rest =>
      if char = ch then some (some 0) else (memchr ch n rest).map (Option.map (· + 1))

/-- The first pair among the first `n` that differs, if any. -/
def memcmp : (n : Nat) → List α → List α → Option (Option (α × α))
  | 0, _, _ => some none
  | n + 1, left :: lefts, right :: rights =>
      if left = right then memcmp n lefts rights else some (some (left, right))
  | _ + 1, _, _ => none

/-- The first characters of a string, at most `n`. -/
def taken : (n : Nat) → List α → Option (List α)
  | 0, _ => some []
  | _ + 1, [] => none
  | n + 1, char :: rest => if char = nul then some [] else (taken n rest).map (char :: ·)

/-- The `n` characters stored for a string, filled up with terminators. -/
def strncpy (n : Nat) (chars : List α) : Option (List α) :=
  (taken nul n chars).map fun copied => copied ++ List.replicate (n - copied.length) nul

/-- The characters appended for a string, a terminator behind them. -/
def strncat (n : Nat) (chars : List α) : Option (List α) := (taken nul n chars).map (· ++ [nul])

variable {nul}

theorem strlen_eq_none_iff {chars : List α} : strlen nul chars = none ↔ nul ∉ chars := by
  induction chars with
  | nil => simp [strlen]
  | cons char rest ih =>
      by_cases last : char = nul
      · simp [strlen, last]
      · simp [strlen, last, ih, Ne.symm last]

/-- The length of a string is the index of its first terminator. -/
theorem strlen_eq_idxOf? (chars : List α) : strlen nul chars = chars.idxOf? nul := by
  induction chars with
  | nil => rfl
  | cons char rest ih =>
      rw [strlen, List.idxOf?_cons, ih]
      by_cases last : char = nul
      · rw [if_pos last, if_pos (beq_iff_eq.mpr last)]
      · rw [if_neg last, if_neg fun same => last (beq_iff_eq.mp same)]

theorem strchr_eq_none_iff {ch : α} {chars : List α} :
    strchr nul ch chars = none ↔ ch ∉ chars ∧ nul ∉ chars := by
  induction chars with
  | nil => simp [strchr]
  | cons char rest ih =>
      by_cases found : char = ch
      · simp [strchr, found]
      · by_cases last : char = nul
        · simp [strchr, last, last ▸ found]
        · simp [strchr, found, last, ih, Ne.symm found, Ne.symm last]

/-- A string in which the character does not occur has a terminator. -/
theorem nul_mem_of_strchr {ch : α} {chars : List α} (absent : strchr nul ch chars = some none) :
    nul ∈ chars := by
  induction chars with
  | nil => cases absent
  | cons char rest ih =>
      rw [strchr] at absent
      by_cases found : char = ch
      · rw [if_pos found] at absent
        cases absent
      · rw [if_neg found] at absent
        by_cases last : char = nul
        · exact last ▸ List.mem_cons_self ..
        · rw [if_neg last, Option.map_eq_some_iff] at absent
          obtain ⟨index, tail, none_⟩ := absent
          rw [Option.map_eq_none_iff.mp none_] at tail
          exact List.mem_cons_of_mem _ (ih tail)

theorem strcmp_eq_none_iff {lefts rights : List α} :
    strcmp nul lefts rights = none ↔
      ∀ pair ∈ lefts.zip rights, pair.1 = pair.2 ∧ pair.1 ≠ nul := by
  induction lefts generalizing rights with
  | nil => simp [strcmp]
  | cons left lefts ih =>
      cases rights with
      | nil => simp [strcmp]
      | cons right rights =>
          rw [strcmp, List.zip_cons_cons, List.forall_mem_cons, ← ih]
          by_cases goesOn : left = right ∧ left ≠ nul
          · rw [if_pos goesOn]
            exact (and_iff_right goesOn).symm
          · rw [if_neg goesOn]
            exact iff_of_false (Option.some_ne_none _) fun both => goesOn both.1

/-- Nothing behind the terminator is needed. -/
theorem taken_ne_none {chars : List α} (terminated : nul ∈ chars) (n : Nat) :
    taken nul n chars ≠ none := by
  induction chars generalizing n with
  | nil => cases terminated
  | cons char rest ih =>
      cases n with
      | zero => exact Option.some_ne_none _
      | succ n =>
          rw [taken]
          by_cases last : char = nul
          · rw [if_pos last]
            exact Option.some_ne_none _
          · rw [if_neg last, Ne, Option.map_eq_none_iff]
            exact ih ((List.mem_cons.mp terminated).resolve_left (Ne.symm last)) n

theorem strncpy_ne_none {chars : List α} (terminated : nul ∈ chars) (n : Nat) :
    strncpy nul n chars ≠ none := by
  rw [strncpy, Ne, Option.map_eq_none_iff]
  exact taken_ne_none terminated n

theorem strncat_ne_none {chars : List α} (terminated : nul ∈ chars) (n : Nat) :
    strncat nul n chars ≠ none := by
  rw [strncat, Ne, Option.map_eq_none_iff]
  exact taken_ne_none terminated n

/-- Among characters that are all there a search finds the first that is equal. -/
theorem memchr_eq (ch : α) {n : Nat} {chars : List α} (enough : n ≤ chars.length) :
    memchr ch n chars = some ((chars.idxOf? ch).filter fun index => decide (index < n)) := by
  induction chars generalizing n with
  | nil =>
      cases Nat.le_zero.mp enough
      rfl
  | cons char rest ih =>
      rw [List.idxOf?_cons]
      cases n with
      | zero =>
          cases found : (if char == ch then some 0 else (rest.idxOf? ch).map (· + 1)) with
          | none => rfl
          | some index => rfl
      | succ n =>
          rw [memchr]
          by_cases here : char = ch
          · rw [if_pos here, if_pos (beq_iff_eq.mpr here)]
            rfl
          · rw [if_neg here, if_neg fun same => here (beq_iff_eq.mp same),
              ih (Nat.le_of_succ_le_succ enough)]
            cases rest.idxOf? ch with
            | none => rfl
            | some index =>
                by_cases before : index < n
                · simp [Option.filter, before]
                · simp [Option.filter, before]

/-- A search for no more characters than there are is one through the first of them. -/
theorem memchr_take (ch : α) {n : Nat} {chars : List α} (enough : n ≤ chars.length) :
    memchr ch n chars = some ((chars.take n).idxOf? ch) := by
  induction chars generalizing n with
  | nil =>
      cases Nat.le_zero.mp enough
      rfl
  | cons char rest ih =>
      cases n with
      | zero => rfl
      | succ n =>
          rw [memchr, List.take_succ_cons, List.idxOf?_cons, ih (Nat.le_of_succ_le_succ enough)]
          by_cases here : char = ch
          · rw [if_pos here, if_pos (beq_iff_eq.mpr here)]
          · rw [if_neg here, if_neg fun same => here (beq_iff_eq.mp same)]
            rfl

/-- A comparison of no more characters than there are tells where the first of them differ. -/
theorem memcmp_take {n : Nat} {lefts rights : List α} (enoughLeft : n ≤ lefts.length)
    (enoughRight : n ≤ rights.length) :
    memcmp n lefts rights =
      some (((lefts.take n).zip (rights.take n)).find? fun pair => pair.1 ≠ pair.2) := by
  induction n generalizing lefts rights with
  | zero => rfl
  | succ n ih =>
      obtain ⟨left, lefts, rfl⟩ := List.exists_cons_of_length_pos (Nat.zero_lt_of_lt enoughLeft)
      obtain ⟨right, rights, rfl⟩ := List.exists_cons_of_length_pos (Nat.zero_lt_of_lt enoughRight)
      have tail := ih (Nat.le_of_succ_le_succ enoughLeft) (Nat.le_of_succ_le_succ enoughRight)
      by_cases same : left = right
      · simp [memcmp, same, tail]
      · simp [memcmp, same]

/-! ## Characters that begin with a text and its terminator -/

theorem strlen_text {text : List α} (plain : nul ∉ text) (rest : List α) :
    strlen nul (text ++ nul :: rest) = some text.length := by
  induction text with
  | nil => simp [strlen]
  | cons char text ih =>
      obtain ⟨other, plain⟩ := not_or.mp (mt List.mem_cons.mpr plain)
      simp [strlen, Ne.symm other, ih plain]

theorem taken_text {text : List α} (plain : nul ∉ text) (rest : List α) (n : Nat) :
    taken nul n (text ++ nul :: rest) = some (text.take n) := by
  induction text generalizing n with
  | nil => cases n <;> simp [taken]
  | cons char text ih =>
      obtain ⟨other, plain⟩ := not_or.mp (mt List.mem_cons.mpr plain)
      cases n with
      | zero => rfl
      | succ n => simp [taken, Ne.symm other, ih plain n]

/-- With room for the terminator the text is copied with it. -/
theorem strncpy_text {text : List α} (plain : nul ∉ text) (rest : List α) :
    strncpy nul (text.length + 1) (text ++ nul :: rest) = some (text ++ [nul]) := by
  rw [strncpy, taken_text plain, List.take_of_length_le (Nat.le_succ _), Option.map_some,
    Nat.add_sub_cancel_left]
  rfl

theorem strncat_text {text : List α} (plain : nul ∉ text) (rest : List α) (n : Nat) :
    strncat nul n (text ++ nul :: rest) = some (text.take n ++ [nul]) := by
  rw [strncat, taken_text plain, Option.map_some]

/-- The characters that decide are equal exactly when the texts are. -/
theorem strcmp_text {left right : List α} (plainLeft : nul ∉ left) (plainRight : nul ∉ right)
    (leftRest rightRest : List α) :
    ∃ first second,
      strcmp nul (left ++ nul :: leftRest) (right ++ nul :: rightRest) = some (first, second) ∧
        (first = second ↔ left = right) := by
  induction left generalizing right with
  | nil =>
      cases right with
      | nil => exact ⟨nul, nul, by simp [strcmp], iff_of_true rfl rfl⟩
      | cons char right =>
          obtain ⟨other, _⟩ := not_or.mp (mt List.mem_cons.mpr plainRight)
          exact ⟨nul, char, by simp [strcmp], iff_of_false other nofun⟩
  | cons char left ih =>
      obtain ⟨otherLeft, plainLeft⟩ := not_or.mp (mt List.mem_cons.mpr plainLeft)
      cases right with
      | nil => exact ⟨char, nul, by simp [strcmp, Ne.symm otherLeft],
          iff_of_false (Ne.symm otherLeft) nofun⟩
      | cons other right =>
          have plainTail : nul ∉ right := fun member => plainRight (List.mem_cons_of_mem _ member)
          by_cases same : char = other
          · subst same
            obtain ⟨first, second, decided, equal⟩ := ih plainLeft plainTail
            refine ⟨first, second, ?_, equal.trans (by simp)⟩
            rw [List.cons_append, List.cons_append, strcmp, if_pos ⟨rfl, Ne.symm otherLeft⟩]
            exact decided
          · refine ⟨char, other, ?_, iff_of_false same (by simp [same])⟩
            simp [strcmp, same]

end XProject.Std.CString
