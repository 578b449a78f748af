/-!
Decimal numerals and the 64-bit numbers that may be read from them.
-/

namespace Concordance.Text

/-- The decimal digits of a number. -/
def decimal (n : Nat) : List Char :=
  Nat.toDigits 10 n

/-- The largest number that a count or a line number may have. -/
def maxNumber : Nat := 0xffffffffffffffff

/-- Why a numeral was not read. -/
inductive NumeralError where
  | empty
  | badDigit
  | tooLarge
deriving Repr, DecidableEq

/-- The wording of a numeral error. -/
def NumeralError.message : NumeralError → String
  | .empty => "cannot parse integer from empty string"
  | .badDigit => "invalid digit found in string"
  | .tooLarge => "number too large to fit in target type"

/-- The value of decimal digits read from the left, as far as it stays a 64-bit number. A digit
that is none is reported in the order of reading, so `99999999999999999999x` is too large. -/
def readDigits : Nat → List Char → Except NumeralError Nat
  | n, [] => .ok n
  | n, c :: cs =>
    if '0' ≤ c ∧ c ≤ '9' then
      let next := 10 * n + (c.toNat - '0'.toNat)
      if next ≤ maxNumber then readDigits next cs else .error .tooLarge
    else .error .badDigit

/-- A 64-bit number written in decimal, with an optional plus sign. -/
def readNumber : List Char → Except NumeralError Nat
  | [] => .error .empty
  | '+' :: [] => .error .badDigit
  | '+' :: cs => readDigits 0 cs
  | cs => readDigits 0 cs

/-- A 64-bit number written in decimal, when it is one. -/
def readNumber? (cs : List Char) : Option Nat :=
  (readNumber cs).toOption

end Concordance.Text
