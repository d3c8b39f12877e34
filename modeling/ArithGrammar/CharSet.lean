import ArithGrammar.Text

/-!
# The character sets of the grammar

Ten named sets decide what a character may begin or continue. They overlap: a digit may continue
a name though not begin one, and the minus sign is an additive operator as well. A blank is a
character up to the space and no other, so the wide and unbroken spaces beyond ASCII count as
ordinary text.
-/
namespace ArithGrammar

inductive CharSet where
  | digit
  | nameStart
  | namePart
  | addOp
  | mulOp
  | openParen
  | closeParen
  | minus
  | dot
  | blank
  deriving DecidableEq, Repr

namespace CharSet

def contains : CharSet → Char → Bool
  | digit, c => decide ('0' ≤ c ∧ c ≤ '9')
  | nameStart, c => decide ('a' ≤ c ∧ c ≤ 'z' ∨ 'A' ≤ c ∧ c ≤ 'Z' ∨ c = '_')
  | namePart, c =>
      decide ('a' ≤ c ∧ c ≤ 'z' ∨ 'A' ≤ c ∧ c ≤ 'Z' ∨ c = '_' ∨ '0' ≤ c ∧ c ≤ '9')
  | addOp, c => decide (c = '+' ∨ c = '-')
  | mulOp, c => decide (c = '*' ∨ c = '/' ∨ c = '%')
  | openParen, c => decide (c = '(')
  | closeParen, c => decide (c = ')')
  | minus, c => decide (c = '-')
  | dot, c => decide (c = '.')
  | blank, c => decide (c ≤ ' ')

def all : List CharSet :=
  [digit, nameStart, namePart, addOp, mulOp, openParen, closeParen, minus, dot, blank]

theorem mem_all (set : CharSet) : set ∈ all := by cases set <;> decide

def ofChar (c : Char) : List CharSet := all.filter (·.contains c)

@[simp] theorem mem_ofChar {set : CharSet} {c : Char} :
    set ∈ ofChar c ↔ set.contains c = true := by
  simp [ofChar, mem_all]

/-- The longest beginning of the text that stays in the set. -/
def run (set : CharSet) (s : Text) : Text := s.takeWhile set.contains

/-- What follows the longest beginning that stays in the set. -/
def afterRun (set : CharSet) (s : Text) : Text := s.dropWhile set.contains

@[simp] theorem run_append_afterRun (set : CharSet) (s : Text) :
    set.run s ++ set.afterRun s = s := List.takeWhile_append_dropWhile

theorem namePart_contains (c : Char) :
    namePart.contains c = (nameStart.contains c || digit.contains c) := by
  simp only [contains, Bool.decide_or, Bool.or_assoc]

end CharSet

end ArithGrammar
