/-!
# Numerals with a bound

A numeral is an optional plus sign and at least one decimal digit. Reading goes from
left to right and stops at the first fault, so of a bad digit and a value that has
grown too large the one further left is reported.
-/

namespace ByteRegex.Text

/-- Why a text is not a numeral below the bound. -/
inductive NumeralFault where
  /-- There is no character at all. -/
  | empty
  /-- A character is no digit, or there is none behind the sign. -/
  | invalidDigit
  /-- The value reaches the bound. -/
  | overflow
deriving DecidableEq, Repr

/-- The fault in words. -/
def NumeralFault.message : NumeralFault → String
  | empty => "cannot parse integer from empty string"
  | invalidDigit => "invalid digit found in string"
  | overflow => "number too large to fit in target type"

/-- The value of a decimal digit. -/
def digitValue (c : Char) : Option Nat := if c.isDigit then some (c.toNat - '0'.toNat) else none

/-- Continue a numeral of the given value with more digits, below the bound. -/
def readDigits (bound value : Nat) : List Char → Except NumeralFault Nat
  | [] => .ok value
  | c :: rest =>
    match digitValue c with
    | none => .error .invalidDigit
    | some d =>
      if 10 * value + d < bound then readDigits bound (10 * value + d) rest
      else .error .overflow

/-- Read a numeral below the bound. -/
def readNumeral (bound : Nat) (s : String) : Except NumeralFault Nat :=
  match s.toList with
  | [] => .error .empty
  | '+' :: [] => .error .invalidDigit
  | '+' :: digits => readDigits bound 0 digits
  | digits => readDigits bound 0 digits

end ByteRegex.Text
