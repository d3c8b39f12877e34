import ArithGrammar.ControlSequence
import ArithGrammar.Numeral
import ArithGrammar.Verdict

/-!
# Options of the command

Three switches and one number say how expressions are checked; two more switches ask for a text
about the command instead. An argument list that does not fit is refused with one of five usage
errors, whose wording is fixed here.
-/
namespace ArithGrammar

/-- What may be asked for by name. -/
inductive Switch where
  | tokens
  | maxDepth
  | noHistory
  | help
  | version
  deriving DecidableEq, Repr

namespace Switch

def all : List Switch := [tokens, maxDepth, noHistory, help, version]

def longName : Switch → Text
  | tokens => "tokens".toList
  | maxDepth => "max-depth".toList
  | noHistory => "no-history".toList
  | help => "help".toList
  | version => "version".toList

def letter? : Switch → Option Char
  | tokens => some 't'
  | help => some 'h'
  | version => some 'V'
  | maxDepth | noHistory => none

/-- The switch as it is named in a usage error, with its value if it has one. -/
def label (s : Switch) : Text :=
  ['-', '-'] ++ s.longName ++ if s = maxDepth then " <MAX_DEPTH>".toList else []

def ofLongName? (word : Text) : Option Switch := all.find? fun s => decide (s.longName = word)

def ofLetter? (c : Char) : Option Switch := all.find? fun s => decide (s.letter? = some c)

theorem ofLongName?_longName (s : Switch) : ofLongName? s.longName = some s := by
  cases s <;> decide

end Switch

/-- How expressions are to be checked, and which. -/
structure Options where
  tokens : Bool
  maxDepth : Nat
  noHistory : Bool
  expressions : List Text
  deriving DecidableEq, Repr

inductive Request where
  | help
  | version
  | check (options : Options)
  deriving DecidableEq, Repr

inductive UsageError where
  | unknown (argument : Text)
  | repeated (switch : Switch)
  | needlessValue (value : Text) (switch : Switch)
  | missingValue
  | badValue (value : Text) (error : NumeralError)
  deriving DecidableEq, Repr

namespace UsageError

/-- What the user gave, as it is seen, between apostrophes. -/
def quoted (s : Text) : Text := ['\x27'] ++ ControlSequence.visible s ++ ['\x27']

def message : UsageError → Text
  | unknown argument => "error: unexpected argument ".toList ++ quoted argument ++ " found".toList
  | repeated switch =>
      "error: the argument ".toList ++ quoted switch.label ++
        " cannot be used multiple times".toList
  | needlessValue value switch =>
      "error: unexpected value ".toList ++ quoted value ++ " for ".toList ++
        quoted switch.label ++ " found; no more were expected".toList
  | missingValue =>
      "error: a value is required for ".toList ++ quoted Switch.maxDepth.label ++
        " but none was supplied".toList
  | badValue value error =>
      "error: invalid value ".toList ++ quoted value ++ " for ".toList ++
        quoted Switch.maxDepth.label ++ ": ".toList ++ error.message

end UsageError

end ArithGrammar
