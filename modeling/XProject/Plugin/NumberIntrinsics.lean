import XProject.Plugin.StringIntrinsics
import XProject.Std.Numeral

/-!
# The integer intrinsics of `libc-module.cc`

`my_strtol`, `my_strtoul`, `my_strtoll` and `my_strtoull` have one body around
four host routines and differ in the type of the result and how it is cut. The
host's `long` has 64 bits.
-/

namespace XProject.Plugin

open XProject.Std

/-- What an intrinsic that converts returns, and what it stores as the end. -/
structure Converted (Result : Type) where
  result : Result
  stored : Option (Nat × UInt32)

namespace StringSandbox

variable (sandbox : StringSandbox)

/-- A base the host knows; `base` is an `int` there. -/
def KnownBase (base : UInt32) : Prop := base = 0 ∨ 2 ≤ base.toNat ∧ base.toNat ≤ 36

instance (base : UInt32) : Decidable (KnownBase base) :=
  inferInstanceAs (Decidable (base = 0 ∨ 2 ≤ base.toNat ∧ base.toNat ≤ 36))

/-- The integer at a position, absent when there is none, and the end pointer. An
unknown base is refused before the string is read and leaves the end pointer null. -/
def numeral (str : Nat) (base : UInt32) : Intrinsic (Option Numeral × Option Nat) :=
  if KnownBase base then do
    let found ← hosted (Numeral.parse base.toNat (sandbox.characters .char str))
    pure (found, some (str + (found.map fun numeral => numeral.length).getD 0))
  else pure (none, none)

end StringSandbox

/-- The value `strtol` and `strtoll` return: the integer, or the end of the range it lies behind. -/
def strtol : Option Numeral → Int64
  | none => 0
  | some numeral =>
      if numeral.negative then
        Int64.ofInt (max (-2 ^ 63) (-(numeral.magnitude : Int)))
      else Int64.ofInt (min (2 ^ 63 - 1) numeral.magnitude)

/-- The value `strtoul` and `strtoull` return: a negative integer is negated in the
result type, and a magnitude out of range is the largest value. -/
def strtoul : Option Numeral → UInt64
  | none => 0
  | some numeral =>
      if numeral.magnitude < 2 ^ 64 then
        if numeral.negative then -UInt64.ofNat numeral.magnitude
        else UInt64.ofNat numeral.magnitude
      else UInt64.ofNat (2 ^ 64 - 1)

variable (sandbox : StringSandbox)

/-- The common body of the four: the host's value is narrowed, and the end is stored
where the guest asks for it, at any alignment. An end at the start is stored as the guest's
own offset. -/
def numberIntrinsic {Host Result : Type} (value : Option Numeral → Host)
    (narrow : Host → Result) (refusal : Result) (str strEnd base : UInt32) :
    Intrinsic (Converted Result) := do
  sandbox.consume sandbox.intrinsicCallCost
  match sandbox.pointer str with
  | none => pure ⟨refusal, none⟩
  | some strPtr =>
      let (found, endPtr) ← sandbox.numeral strPtr base
      let result := narrow (value found)
      match endPtr with
      | none => pure ⟨result, none⟩
      | some endPtr =>
          if strEnd = xNull then pure ⟨result, none⟩
          else
            match sandbox.buffer strEnd 4 with
            | none => pure ⟨result, none⟩
            | some strEndPtr =>
                let offset := if strPtr ≠ endPtr then sandbox.linearMemoryOffset endPtr else str
                pure ⟨result, some (strEndPtr, offset)⟩

/-- `INT_MIN_`, `INT_MAX_` and `UINT_MAX_`, as the comparisons with a `long` take them. -/
def intMin : Int64 := -2147483648

def intMax : Int64 := 2147483647

def uintMax : Int64 := 4294967295

/-- The result of `my_strtol` for the `long` of the host. -/
def clampInt (result : Int64) : Int32 :=
  if result > intMax then intMax.toInt32
  else if result < intMin then intMin.toInt32 else result.toInt32

/-- The result of `my_strtoul` for the signed variable that holds the host's value. -/
def clampUInt (midResult : Int64) : UInt32 :=
  if midResult > uintMax then uintMax.toUInt64.toUInt32
  else if midResult < -uintMax then uintMax.toUInt64.toUInt32
  else midResult.toUInt64.toUInt32

/-- `my_strtol`. -/
def myStrtol (str strEnd base : UInt32) : Intrinsic (Converted Int32) :=
  numberIntrinsic sandbox strtol clampInt 0 str strEnd base

/-- `my_strtoul`. -/
def myStrtoul (str strEnd base : UInt32) : Intrinsic (Converted UInt32) :=
  numberIntrinsic sandbox (fun found => (strtoul found).toInt64) clampUInt 0 str strEnd base

/-- `my_strtoll`. -/
def myStrtoll (str strEnd base : UInt32) : Intrinsic (Converted Int64) :=
  numberIntrinsic sandbox strtol id 0 str strEnd base

/-- `my_strtoull`. -/
def myStrtoull (str strEnd base : UInt32) : Intrinsic (Converted UInt64) :=
  numberIntrinsic sandbox strtoul id 0 str strEnd base

end XProject.Plugin
