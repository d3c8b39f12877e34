import ArithGrammar.Text

/-!
# Log records

A record has a level, a target (the part of the program that it is about) and a message. What is
let through is limited by a level, which lets the more urgent ones through as well, or is silence.
-/
namespace ArithGrammar

/-- Levels from the most urgent to the most talkative. -/
inductive Level where
  | error
  | warn
  | info
  | debug
  | trace
  deriving DecidableEq, Repr

namespace Level

def rank : Level → Nat
  | error => 1
  | warn => 2
  | info => 3
  | debug => 4
  | trace => 5

def label : Level → Text
  | error => "ERROR".toList
  | warn => "WARN".toList
  | info => "INFO".toList
  | debug => "DEBUG".toList
  | trace => "TRACE".toList

def within (level : Level) : Option Level → Bool
  | none => false
  | some most => decide (level.rank ≤ most.rank)

end Level

/-- The limit that a word means in either case of its letters. -/
def Level.limit? (word : Text) : Option (Option Level) :=
  let lower := word.map Char.toLower
  if lower = "off".toList then some none
  else if lower = "error".toList then some (some .error)
  else if lower = "warn".toList then some (some .warn)
  else if lower = "info".toList then some (some .info)
  else if lower = "debug".toList then some (some .debug)
  else if lower = "trace".toList then some (some .trace)
  else none

structure Record where
  level : Level
  target : Text
  message : Text
  deriving DecidableEq, Repr

namespace Record

/-- The record on a line of its own: level, target, colon, message. -/
def line (r : Record) : Text := r.level.label ++ [' '] ++ r.target ++ [':', ' '] ++ r.message

/-- The level filled up to five columns, the target, a closing bracket, the message. -/
def column (r : Record) : Text :=
  r.level.label ++ List.replicate (5 - r.level.label.length) ' ' ++ [' '] ++ r.target ++
    [']', ' '] ++ r.message

end Record

end ArithGrammar
