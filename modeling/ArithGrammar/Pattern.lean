import ArithGrammar.Text

/-!
# Patterns

A pattern is a regular expression: it describes pieces of a text by single characters, by places
between characters, and by sequence, choice and repetition. A pattern occurs in a text if it fits
some piece of it. That is decided on sets of places: `reach` tells at which places a piece can end
that the pattern fits and that begins at one of the places given.
-/
namespace ArithGrammar

/-- A place in a text, by the characters next to it. -/
structure Place where
  before : Option Char
  behind : Option Char
  deriving DecidableEq, Repr

inductive Pattern where
  | empty
  | char (fits : Char → Bool)
  | place (fits : Place → Bool)
  | append (p q : Pattern)
  | either (p q : Pattern)
  | repeated (p : Pattern) (least : Nat) (most : Option Nat)

namespace Place

/-- The places of a text that stands behind the given character, first to last. -/
def ofText : Option Char → Text → List Place
  | before, [] => [⟨before, none⟩]
  | before, c :: cs => ⟨before, some c⟩ :: ofText (some c) cs

def textStart (p : Place) : Bool := p.before.isNone

def textEnd (p : Place) : Bool := p.behind.isNone

def lineStart (p : Place) : Bool := p.before.all (· = '\n')

def lineEnd (p : Place) : Bool := p.behind.all (· = '\n')

/-- The start of a line if carriage returns end lines as well, alone or with a line feed. -/
def returnLineStart (p : Place) : Bool :=
  p.before.all fun c => c = '\n' || (c = '\r' && p.behind ≠ some '\n')

def returnLineEnd (p : Place) : Bool :=
  p.behind.all fun c => c = '\r' || (c = '\n' && p.before ≠ some '\r')

/-- Whether a character is part of a word, which only letters, digits and low lines of ASCII
are. -/
def isInWord (c : Char) : Bool := c.isAlphanum || c = '_'

/-- Whether one side of the place is part of a word and the other is not. -/
def wordBoundary (p : Place) : Bool := p.before.any isInWord != p.behind.any isInWord

def wordStart (p : Place) : Bool := !p.before.any isInWord && p.behind.any isInWord

def wordEnd (p : Place) : Bool := p.before.any isInWord && !p.behind.any isInWord

/-- Whether a word may start here as far as the character before tells. -/
def halfWordStart (p : Place) : Bool := !p.before.any isInWord

def halfWordEnd (p : Place) : Bool := !p.behind.any isInWord

end Place

namespace Pattern

def union (a b : List Bool) : List Bool := List.zipWith (· || ·) a b

/-- Adds the places that are reached from those marked, again and again, at most as often as is
given and no further once there are no new ones. -/
def spread (next : List Bool → List Bool) : Nat → List Bool → List Bool
  | 0, marks => marks
  | rounds + 1, marks =>
      let wider := union marks (next marks)
      if wider = marks then marks else spread next rounds wider

/-- The places where a piece ends that the pattern fits and that begins at one of the marked
places. More repetitions than there are places mark no others, for a piece of each length is then
met. -/
def reach (places : List Place) : Pattern → List Bool → List Bool
  | empty, marks => marks
  | char fits, marks =>
      false :: (List.zipWith (fun m p => m && p.behind.any fits) marks places).dropLast
  | place fits, marks => List.zipWith (fun m p => m && fits p) marks places
  | append p q, marks => reach places q (reach places p marks)
  | either p q, marks => union (reach places p marks) (reach places q marks)
  | repeated p least most, marks =>
      let more := most.elim places.length fun m => min (m - least) places.length
      spread (reach places p) more
        (Nat.repeat (reach places p) (min least places.length) marks)

def occursIn (p : Pattern) (s : Text) : Bool :=
  let places := Place.ofText none s
  (reach places p (places.map fun _ => true)).any id

end Pattern

end ArithGrammar
