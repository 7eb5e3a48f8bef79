import Mathlib.Data.BitVec
import Mathlib.Data.List.Basic

/-!
# Integers in strings

What the `strtol` family reads: white space, a sign, for some bases a prefix, and
digits. The reader stops behind the last digit, so it needs one character more
than the integer has. As in `CString` it gets the characters up to the end of
the object, and has no result when it needs one behind that end. `Unfinished`
says without the reader on which characters that happens.
-/

namespace XProject.Std

/-- A sign, a magnitude and the number of characters up to the last digit. -/
structure Numeral where
  negative : Bool
  magnitude : Nat
  length : Nat

namespace Numeral

/-! ## Characters -/

/-- `isspace` in the C locale. -/
def isSpace (char : BitVec 8) : Bool := char == 0x20 || (0x09 ≤ char && char ≤ 0x0d)

def digitValue (char : BitVec 8) : Option Nat :=
  if 0x30 ≤ char.toNat ∧ char.toNat ≤ 0x39 then some (char.toNat - 0x30)
  else if 0x61 ≤ char.toNat ∧ char.toNat ≤ 0x7a then some (char.toNat - 0x61 + 10)
  else if 0x41 ≤ char.toNat ∧ char.toNat ≤ 0x5a then some (char.toNat - 0x41 + 10)
  else none

def isDigit (base : Nat) (char : BitVec 8) : Bool := (digitValue char).any (· < base)

def zero : BitVec 8 := 0x30

def isX (char : BitVec 8) : Bool := char == 0x78 || char == 0x58

/-- The signs an integer may have, none included. -/
def signs : List (List (BitVec 8)) := [[], [0x2b], [0x2d]]

/-! ## The reader -/

/-- The accepted characters in front, and what follows them. -/
def scan {α : Type} (accepts : α → Bool) : List α → Option (List α × List α)
  | [] => none
  | char :: rest =>
      if accepts char then (scan accepts rest).map fun (taken, rest) => (char :: taken, rest)
      else some ([], char :: rest)

/-- Whether there is a minus sign, and what follows the sign. -/
def sign : List (BitVec 8) → Bool × List (BitVec 8)
  | [] => (false, [])
  | char :: rest =>
      if char = 0x2b then (false, rest)
      else if char = 0x2d then (true, rest)
      else (false, char :: rest)

/-- The base of digits without the prefix `0x`: base 0 leaves it to the first digit. -/
def plainBase (base : Nat) (body : List (BitVec 8)) : Nat :=
  if base = 0 then (if body.head? = some zero then 8 else 10) else base

/-- The base of the digits and where they start. A prefix `0x` counts only when a
hexadecimal digit follows it. -/
def radix (base : Nat) (body : List (BitVec 8)) : Option (Nat × List (BitVec 8)) :=
  if base = 0 ∨ base = 16 then
    match body with
    | [] => none
    | first :: rest =>
        if first = zero then
          match rest with
          | [] => none
          | second :: digits =>
              if isX second then
                match digits with
                | [] => none
                | third :: _ =>
                    if isDigit 16 third then some (16, digits)
                    else some (plainBase base body, body)
              else some (plainBase base body, body)
        else some (plainBase base body, body)
  else some (base, body)

/-- The digits behind the sign, their base, and what follows them. -/
def number (base : Nat) (body : List (BitVec 8)) :
    Option (Nat × List (BitVec 8) × List (BitVec 8)) := do
  let (base, digits) ← radix base body
  let (taken, rest) ← scan (isDigit base) digits
  some (base, taken, rest)

/-- The value of digits, the most significant first. -/
def value (base : Nat) (digits : List (BitVec 8)) : Nat :=
  digits.foldl (fun sofar char => sofar * base + (digitValue char).getD 0) 0

/-- The integer a string starts with, absent when there is none. -/
def parse (base : Nat) (chars : List (BitVec 8)) : Option (Option Numeral) := do
  let (_, signed) ← scan isSpace chars
  let (negative, body) := sign signed
  let (base, digits, rest) ← number base body
  some (if digits = [] then none
    else some ⟨negative, value base digits, chars.length - rest.length⟩)

/-! ## Where the reader runs out of characters -/

/-- Nothing but digits, with a prefix where the base allows one. -/
def Open (base : Nat) (body : List (BitVec 8)) : Prop :=
  (∀ char ∈ body, isDigit (plainBase base body) char = true) ∨
    (base = 0 ∨ base = 16) ∧ ∃ x digits, body = zero :: x :: digits ∧ isX x = true ∧
      ∀ char ∈ digits, isDigit 16 char = true

/-- Nothing but white space, a sign and digits. -/
def Unfinished (base : Nat) (chars : List (BitVec 8)) : Prop :=
  ∃ spaces sign body, chars = spaces ++ (sign ++ body) ∧ (∀ char ∈ spaces, isSpace char = true) ∧
    sign ∈ signs ∧ Open base body

section Scan

variable {α : Type} {accepts : α → Bool}

theorem scan_eq_none_iff {chars : List α} :
    scan accepts chars = none ↔ ∀ char ∈ chars, accepts char = true := by
  induction chars with
  | nil => simp [scan]
  | cons char rest ih =>
      by_cases accepted : accepts char = true
      · simp [scan, accepted, ih]
      · simp [scan, accepted]

theorem scan_append {front rest : List α} {char : α}
    (accepted : ∀ char ∈ front, accepts char = true) (stops : accepts char = false) :
    scan accepts (front ++ char :: rest) = some (front, char :: rest) := by
  induction front with
  | nil => simp [scan, stops]
  | cons first front ih =>
      obtain ⟨here, later⟩ := List.forall_mem_cons.mp accepted
      simp [scan, here, ih later]

theorem append_of_scan {chars taken rest : List α} (scanned : scan accepts chars = some (taken, rest)) :
    chars = taken ++ rest ∧ ∀ char ∈ taken, accepts char = true := by
  induction chars generalizing taken with
  | nil => cases scanned
  | cons char chars ih =>
      rw [scan] at scanned
      by_cases accepted : accepts char = true
      · rw [if_pos accepted, Option.map_eq_some_iff] at scanned
        obtain ⟨⟨later, rest'⟩, scannedRest, same⟩ := scanned
        cases same
        obtain ⟨rfl, all⟩ := ih scannedRest
        exact ⟨rfl, List.forall_mem_cons.mpr ⟨accepted, all⟩⟩
      · rw [if_neg accepted] at scanned
        cases scanned
        exact ⟨rfl, nofun⟩

end Scan

theorem code_of_digit {base : Nat} {char : BitVec 8} (digit : isDigit base char = true) :
    0x30 ≤ char.toNat := by
  by_contra below
  have none_ : digitValue char = none := by
    rw [digitValue, if_neg (by omega), if_neg (by omega), if_neg (by omega)]
  simp [isDigit, none_] at digit

/-- White space, signs and digits are told apart. -/
theorem not_space_of_digit {base : Nat} {char : BitVec 8} (digit : isDigit base char = true) :
    isSpace char = false ∧ char ≠ 0x2b ∧ char ≠ 0x2d := by
  have code := code_of_digit digit
  refine ⟨?_, ?_, ?_⟩
  · simp [isSpace, BitVec.le_def, ← BitVec.toNat_inj]
    omega
  · rintro rfl
    simp at code
  · rintro rfl
    simp at code

theorem not_space_of_sign {front rest : List (BitVec 8)} (known : front ∈ signs)
    (signed : front ≠ []) : ∃ char, front = [char] ∧ isSpace char = false ∧
      (sign (front ++ rest)).2 = rest := by
  simp only [signs, List.mem_cons, List.not_mem_nil, or_false] at known
  rcases known with rfl | rfl | rfl
  · exact absurd rfl signed
  · exact ⟨_, rfl, by decide, rfl⟩
  · exact ⟨_, rfl, by decide, rfl⟩

/-- A body of digits starts with a digit. -/
theorem Open.head {base : Nat} {char : BitVec 8} {rest : List (BitVec 8)}
    (opens : Open base (char :: rest)) : ∃ other, isDigit other char = true := by
  rcases opens with digits | ⟨_, x, digits, same, _⟩
  · exact ⟨_, digits char List.mem_cons_self⟩
  · cases same
    exact ⟨10, by decide⟩

theorem sign_of_open {base : Nat} {body : List (BitVec 8)} (opens : Open base body) :
    (sign body).2 = body := by
  cases body with
  | nil => rfl
  | cons char rest =>
      obtain ⟨_, digit⟩ := opens.head
      obtain ⟨_, notPlus, notMinus⟩ := not_space_of_digit digit
      rw [sign, if_neg notPlus, if_neg notMinus]

theorem exists_sign (signed : List (BitVec 8)) :
    ∃ front ∈ signs, signed = front ++ (sign signed).2 := by
  cases signed with
  | nil => exact ⟨[], by simp [signs], rfl⟩
  | cons char rest =>
      by_cases plus : char = 0x2b
      · exact ⟨[0x2b], by simp [signs], by simp [sign, plus]⟩
      · by_cases minus : char = 0x2d
        · exact ⟨[0x2d], by simp [signs], by simp [sign, minus]⟩
        · have unsigned : sign (char :: rest) = (false, char :: rest) := by
            rw [sign, if_neg plus, if_neg minus]
          exact ⟨[], by simp [signs], by simp [unsigned]⟩

/-- The letter of the prefix is no digit of the bases that allow it. -/
theorem not_digit_of_isX {base : Nat} {char : BitVec 8} (x : isX char = true)
    (small : base ≤ 16) : isDigit base char = false := by
  simp only [isX, Bool.or_eq_true, beq_iff_eq] at x
  have value : digitValue char = some 33 := by
    rcases x with rfl | rfl <;> rfl
  simp only [isDigit, value, Option.any_some, decide_eq_false_iff_not]
  omega

theorem plainBase_le {base : Nat} (prefixed : base = 0 ∨ base = 16) (body : List (BitVec 8)) :
    plainBase base body ≤ 16 := by
  rcases prefixed with rfl | rfl
  · rw [plainBase, if_pos rfl]
    split <;> omega
  · exact Nat.le_refl 16

theorem zero_isDigit {base : Nat} (prefixed : base = 0 ∨ base = 16) (rest : List (BitVec 8)) :
    isDigit (plainBase base (zero :: rest)) zero = true := by
  rcases prefixed with rfl | rfl <;> rfl

/-- Without a prefix the body is open when there are only digits. -/
theorem open_iff_digits {base : Nat} {body : List (BitVec 8)}
    (plain : ∀ x digits, body = zero :: x :: digits → isX x = false) :
    Open base body ↔ ∀ char ∈ body, isDigit (plainBase base body) char = true := by
  refine or_iff_left ?_
  rintro ⟨_, x, digits, same, isX_, _⟩
  rw [plain x digits same] at isX_
  cases isX_

theorem number_of_radix {base other : Nat} {body digits : List (BitVec 8)}
    (found : radix base body = some (other, digits)) :
    number base body = none ↔ ∀ char ∈ digits, isDigit other char = true := by
  rw [← scan_eq_none_iff]
  cases scanned : scan (isDigit other) digits with
  | none => simp [number, found, scanned]
  | some result => simp [number, found, scanned]

theorem number_of_no_radix {base : Nat} {body : List (BitVec 8)} (absent : radix base body = none) :
    number base body = none := by
  simp [number, absent]

/-- Digits that are read without a prefix. -/
theorem number_plain {base : Nat} {body : List (BitVec 8)}
    (found : radix base body = some (plainBase base body, body))
    (plain : ∀ x digits, body = zero :: x :: digits → isX x = false) :
    number base body = none ↔ Open base body :=
  (number_of_radix found).trans (open_iff_digits plain).symm

/-- Behind `0x` the next character decides whether it is a prefix. -/
theorem number_prefix {base : Nat} (prefixed : base = 0 ∨ base = 16) {second : BitVec 8}
    (x : isX second = true) (digits : List (BitVec 8)) :
    number base (zero :: second :: digits) = none ↔ Open base (zero :: second :: digits) := by
  have noDigit := not_digit_of_isX x (plainBase_le prefixed (zero :: second :: digits))
  have unmixed : ¬∀ char ∈ zero :: second :: digits,
      isDigit (plainBase base (zero :: second :: digits)) char = true := by
    intro all
    rw [all second (by simp)] at noDigit
    cases noDigit
  cases digits with
  | nil =>
      refine iff_of_true (number_of_no_radix (by simp [radix, prefixed, x])) (Or.inr ?_)
      exact ⟨prefixed, second, [], rfl, x, nofun⟩
  | cons third more =>
      by_cases hex : isDigit 16 third = true
      · have found : radix base (zero :: second :: third :: more) = some (16, third :: more) := by
          simp [radix, prefixed, x, hex]
        rw [number_of_radix found]
        constructor
        · intro all
          exact Or.inr ⟨prefixed, second, _, rfl, x, all⟩
        · rintro (all | ⟨_, _, _, same, _, all⟩)
          · exact absurd all unmixed
          · cases same
            exact all
      · have found : radix base (zero :: second :: third :: more) =
            some (plainBase base (zero :: second :: third :: more),
              zero :: second :: third :: more) := by
          simp [radix, prefixed, x, hex]
        rw [number_of_radix found]
        refine iff_of_false unmixed ?_
        rintro (all | ⟨_, _, _, same, _, all⟩)
        · exact unmixed all
        · cases same
          exact hex (all third List.mem_cons_self)

/-- The reader runs out behind the sign when there are only digits. -/
theorem number_eq_none_iff {base : Nat} {body : List (BitVec 8)} :
    number base body = none ↔ Open base body := by
  by_cases prefixed : base = 0 ∨ base = 16
  · rcases body with _ | ⟨first, rest⟩
    · exact iff_of_true (number_of_no_radix (by simp [radix, prefixed])) (Or.inl nofun)
    · by_cases isZero : first = zero
      · subst isZero
        rcases rest with _ | ⟨second, digits⟩
        · refine iff_of_true (number_of_no_radix (by simp [radix, prefixed])) (Or.inl ?_)
          simpa using zero_isDigit prefixed []
        · by_cases x : isX second = true
          · exact number_prefix prefixed x digits
          · refine number_plain (by simp [radix, prefixed, x]) ?_
            intro other rest same
            cases same
            exact Bool.eq_false_iff.mpr x
      · refine number_plain (by simp [radix, prefixed, isZero]) ?_
        intro x digits same
        cases same
        exact absurd rfl isZero
  · have found : radix base body = some (base, body) := if_neg prefixed
    have plain : plainBase base body = base := if_neg fun zero => prefixed (Or.inl zero)
    rw [number_of_radix found, Open, plain, or_iff_left fun both => prefixed both.1]

/-- The reader runs out when there are only white space, a sign and digits. -/
theorem parse_eq_none_iff {base : Nat} {chars : List (BitVec 8)} :
    parse base chars = none ↔ Unfinished base chars := by
  constructor
  · intro none_
    cases scanned : scan isSpace chars with
    | none =>
        have spaces := scan_eq_none_iff.mp scanned
        exact ⟨chars, [], [], by simp, spaces, by simp [signs], Or.inl nofun⟩
    | some result =>
        obtain ⟨spaces, signed⟩ := result
        obtain ⟨rfl, allSpaces⟩ := append_of_scan scanned
        obtain ⟨front, known, same⟩ := exists_sign signed
        have runs : number base (sign signed).2 = none := by
          cases numbered : number base (sign signed).2 with
          | none => rfl
          | some result => simp [parse, scanned, numbered] at none_
        exact ⟨spaces, front, (sign signed).2, by rw [← same], allSpaces, known,
          number_eq_none_iff.mp runs⟩
  · rintro ⟨spaces, front, body, rfl, allSpaces, known, opens⟩
    have runs := number_eq_none_iff.mpr opens
    by_cases signed : front = []
    · subst signed
      cases body with
      | nil =>
          have scanned : scan isSpace (spaces ++ ([] ++ [])) = none :=
            scan_eq_none_iff.mpr (by simpa using allSpaces)
          simp only [parse, scanned]
          rfl
      | cons char rest =>
          obtain ⟨_, digit⟩ := opens.head
          have scanned := @scan_append _ _ _ rest _ allSpaces (not_space_of_digit digit).1
          have same := sign_of_open opens
          simp [parse, scanned, same, runs]
    · obtain ⟨char, rfl, stops, same⟩ := @not_space_of_sign _ body known signed
      have scanned := @scan_append _ _ _ body _ allSpaces stops
      simp only [List.singleton_append] at same ⊢
      simp [parse, scanned, same, runs]

/-! ## Spelled integers -/

/-- An integer as a text has it: white space, a sign and digits. -/
structure Spelled (base : Nat) where
  spaces : List (BitVec 8)
  sign : List (BitVec 8)
  digits : List (BitVec 8)
  allSpaces : ∀ char ∈ spaces, isSpace char = true
  known : sign ∈ signs
  allDigits : ∀ char ∈ digits, isDigit base char = true
  some_ : digits ≠ []

namespace Spelled

variable {base : Nat}

def chars (item : Spelled base) : List (BitVec 8) := item.spaces ++ (item.sign ++ item.digits)

/-- What the reader makes of it. -/
def numeral (item : Spelled base) : Numeral :=
  ⟨item.sign = [0x2d], value base item.digits, item.chars.length⟩

/-- The integer it stands for. -/
def integer (item : Spelled base) : Int :=
  if item.numeral.negative then -(item.numeral.magnitude : Int) else item.numeral.magnitude

/-- White space or a sign tells an integer from digits before it. -/
def Apart (item : Spelled base) : Prop := item.spaces ≠ [] ∨ item.sign ≠ []

theorem chars_ne_nil (item : Spelled base) : item.chars ≠ [] := by
  intro nothing
  simp only [chars, List.append_eq_nil_iff] at nothing
  exact item.some_ nothing.2.2

end Spelled

/-- A character that ends digits, and is not the letter of a prefix. -/
def Stops (base : Nat) (char : BitVec 8) : Prop := isDigit base char = false ∧ isX char = false

theorem stops_of_not_digit {base : Nat} {char : BitVec 8} (below : char.toNat < 0x30) :
    Stops base char := by
  constructor
  · apply Bool.eq_false_iff.mpr
    intro digit
    have code := code_of_digit digit
    omega
  · simp only [isX, Bool.or_eq_false_iff, beq_eq_false_iff_ne]
    constructor
    · rintro rfl
      simp at below
    · rintro rfl
      simp at below

theorem stops_of_space {base : Nat} {char : BitVec 8} (space : isSpace char = true) :
    Stops base char := by
  apply stops_of_not_digit
  simp only [isSpace, Bool.or_eq_true, beq_iff_eq, Bool.and_eq_true, decide_eq_true_eq,
    BitVec.le_def] at space
  rcases space with rfl | ⟨_, high⟩
  · decide
  · simp at high
    omega

theorem stops_of_sign {base : Nat} {front : List (BitVec 8)} (known : front ∈ signs) :
    ∀ char ∈ front, Stops base char := by
  intro char member
  apply stops_of_not_digit
  simp only [signs, List.mem_cons, List.not_mem_nil, or_false] at known
  rcases known with rfl | rfl | rfl
  · cases member
  · rw [List.mem_singleton.mp member]
    decide
  · rw [List.mem_singleton.mp member]
    decide

/-- Digits in a base of their own are all of the number. -/
theorem number_digits {base : Nat} (own : base ≠ 0) {digits : List (BitVec 8)}
    (allDigits : ∀ char ∈ digits, isDigit base char = true) {stop : BitVec 8}
    (stops : Stops base stop) (rest : List (BitVec 8)) :
    number base (digits ++ stop :: rest) = some (base, digits, stop :: rest) := by
  have scanned := @scan_append _ _ _ rest stop allDigits stops.1
  have found : radix base (digits ++ stop :: rest) = some (base, digits ++ stop :: rest) := by
    by_cases sixteen : base = 16
    · subst sixteen
      have plain : ∀ body, plainBase 16 body = 16 := fun _ => rfl
      rcases digits with _ | ⟨first, _ | ⟨second, digits⟩⟩
      · have other : stop ≠ zero := by
          rintro rfl
          exact absurd stops.1 (by decide)
        simp [radix, other, plain]
      · by_cases isZero : first = zero
        · simp [radix, isZero, stops.2, plain]
        · simp [radix, isZero, plain]
      · have notX : isX second = false := by
          apply Bool.eq_false_iff.mpr
          intro x
          have digit := allDigits second (by simp)
          rw [not_digit_of_isX x (by decide)] at digit
          cases digit
        by_cases isZero : first = zero
        · simp [radix, isZero, notX, plain]
        · simp [radix, isZero, plain]
    · exact if_neg fun either => either.elim own sixteen
  simp [number, found, scanned]

namespace Spelled

variable {base : Nat} (item : Spelled base)

/-- Behind the white space stands the sign or the first digit. -/
theorem scan_chars (rest : List (BitVec 8)) :
    scan isSpace (item.chars ++ rest) =
      some (item.spaces, item.sign ++ (item.digits ++ rest)) := by
  obtain ⟨first, more, isDigits⟩ := List.exists_cons_of_ne_nil item.some_
  have digit := item.allDigits first (by simp [isDigits])
  have known := item.known
  simp only [signs, List.mem_cons, List.not_mem_nil, or_false] at known
  rcases known with none_ | plus | minus
  · have scanned := @scan_append _ _ _ (more ++ rest) _ item.allSpaces (not_space_of_digit digit).1
    simpa [chars, none_, isDigits] using scanned
  · have stop : isSpace 0x2b = false := by decide
    have scanned := @scan_append _ _ _ (item.digits ++ rest) _ item.allSpaces stop
    simpa [chars, plus] using scanned
  · have stop : isSpace 0x2d = false := by decide
    have scanned := @scan_append _ _ _ (item.digits ++ rest) _ item.allSpaces stop
    simpa [chars, minus] using scanned

/-- Behind the sign stand the digits. -/
theorem sign_chars (rest : List (BitVec 8)) :
    Numeral.sign (item.sign ++ (item.digits ++ rest)) =
      (item.numeral.negative, item.digits ++ rest) := by
  obtain ⟨first, more, isDigits⟩ := List.exists_cons_of_ne_nil item.some_
  obtain ⟨_, notPlus, notMinus⟩ := not_space_of_digit (item.allDigits first (by simp [isDigits]))
  have known := item.known
  simp only [signs, List.mem_cons, List.not_mem_nil, or_false] at known
  rcases known with none_ | plus | minus
  · rw [none_, isDigits, List.nil_append, List.cons_append, Numeral.sign, if_neg notPlus,
      if_neg notMinus]
    simp [numeral, none_]
  · simp [numeral, plus, Numeral.sign]
  · simp [numeral, minus, Numeral.sign]

end Spelled

/-- The reader takes a spelled integer off a text. -/
theorem parse_spelled {base : Nat} (own : base ≠ 0) (item : Spelled base) {stop : BitVec 8}
    (stops : Stops base stop) (rest : List (BitVec 8)) :
    parse base (item.chars ++ stop :: rest) = some (some item.numeral) := by
  have numbered := number_digits own item.allDigits stops rest
  have length : (item.chars ++ stop :: rest).length - (stop :: rest).length = item.chars.length := by
    rw [List.length_append]
    omega
  simp only [parse, item.scan_chars, item.sign_chars, numbered, item.some_, length,
    Option.bind_eq_bind, Option.bind_some, if_false]
  rfl

/-- Where nothing but a terminator stands there is no integer. -/
theorem parse_nothing {base : Nat} (own : base ≠ 0) {stop : BitVec 8} (stops : Stops base stop)
    (terminates : isSpace stop = false) (unsigned : stop ≠ 0x2b ∧ stop ≠ 0x2d)
    (rest : List (BitVec 8)) : parse base (stop :: rest) = some none := by
  have scanned := @scan_append _ isSpace [] rest stop nofun terminates
  have numbered := @number_digits base own [] nofun stop stops rest
  rw [List.nil_append] at scanned numbered
  have signed : sign (stop :: rest) = (false, stop :: rest) := by
    rw [sign, if_neg unsigned.1, if_neg unsigned.2]
  simp only [parse, scanned, signed, numbered, Option.bind_eq_bind, Option.bind_some, if_true]

/-- An integer set apart starts with a character that ends digits before it. -/
theorem Spelled.Apart.head {base : Nat} {item : Spelled base} (apart : item.Apart) :
    ∃ char more, item.chars = char :: more ∧ Stops base char := by
  cases isSpaces : item.spaces with
  | cons space spaces =>
      have here := item.allSpaces space (by simp [isSpaces])
      exact ⟨space, spaces ++ (item.sign ++ item.digits), by simp [chars, isSpaces],
        stops_of_space here⟩
  | nil =>
      have signed : item.sign ≠ [] := apart.resolve_left fun spaced => spaced isSpaces
      obtain ⟨sign, more, isSign⟩ := List.exists_cons_of_ne_nil signed
      exact ⟨sign, more ++ item.digits, by simp [chars, isSpaces, isSign],
        stops_of_sign item.known sign (by simp [isSign])⟩

/-- The first character behind an integer of a text ends its digits. -/
theorem stops_behind {base : Nat} {items : List (Spelled base)}
    (apart : ∀ item ∈ items, item.Apart) {stop : BitVec 8} (stops : Stops base stop)
    (rest : List (BitVec 8)) :
    ∃ char more, items.flatMap Spelled.chars ++ stop :: rest = char :: more ∧ Stops base char := by
  cases items with
  | nil => exact ⟨stop, rest, rfl, stops⟩
  | cons item items =>
      obtain ⟨char, more, begins, here⟩ := (apart item List.mem_cons_self).head
      refine ⟨char, more ++ (items.flatMap Spelled.chars ++ stop :: rest), ?_, here⟩
      rw [List.flatMap_cons, begins, List.append_assoc, List.cons_append]

end Numeral
end XProject.Std
