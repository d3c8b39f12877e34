import ArithGrammar.CharSet

/-!
# Numerals of 64 bits

A numeral is a plus sign that may be left out and at least one decimal digit, and its value is
below 2^64. The characters are taken from left to right and the first one that cannot be part
of a numeral decides why a text is none.
-/
namespace ArithGrammar

inductive NumeralError where
  | empty
  | notDigit
  | tooLarge
  deriving DecidableEq, Repr

namespace NumeralError

def message : NumeralError → Text
  | empty => "cannot parse integer from empty string".toList
  | notDigit => "invalid digit found in string".toList
  | tooLarge => "number too large to fit in target type".toList

end NumeralError

namespace Numeral

/-- Values stay below this, which is 2^64. -/
def bound : Nat := 18446744073709551616

def digitValue (c : Char) : Nat := c.toNat - '0'.toNat

/-- The value after more digits, when those before them have the value `n`. -/
def digits : Nat → Text → Except NumeralError Nat
  | n, [] => .ok n
  | n, c :: cs =>
      if CharSet.digit.contains c = false then .error .notDigit
      else if n * 10 + digitValue c < bound then digits (n * 10 + digitValue c) cs
      else .error .tooLarge

def value : Text → Except NumeralError Nat
  | [] => .error .empty
  | ['+'] => .error .notDigit
  | '+' :: cs => digits 0 cs
  | s => digits 0 s

end Numeral

end ArithGrammar
