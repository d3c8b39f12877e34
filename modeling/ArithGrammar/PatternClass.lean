import ArithGrammar.PatternEscape

/-!
# Classes in a written pattern

A class stands in brackets and holds characters, ranges of them, and other classes; two equal
signs between the items make intersections and differences. Classes that are open are kept on a
stack, with what was read of them.
-/
namespace ArithGrammar.PatternReader

/-- Lets a Latin letter fit in either case if it fits in one and the case does not matter. -/
def foldCase (flags : Flags) (fits : Char → Bool) (c : Char) : Bool :=
  fits c || (flags.caseless && (fits c.toLower || fits c.toUpper))

def namedClasses : List (Text × (Char → Bool)) :=
  let between (first last c : Char) : Bool := decide (first ≤ c ∧ c ≤ last)
  [("alnum".toList, Char.isAlphanum),
    ("alpha".toList, Char.isAlpha),
    ("ascii".toList, between '\x00' '\x7f'),
    ("blank".toList, fun c => c = '\t' || c = ' '),
    ("cntrl".toList, fun c => between '\x00' '\x1f' c || c = '\x7f'),
    ("digit".toList, Char.isDigit),
    ("graph".toList, between '!' '~'),
    ("lower".toList, Char.isLower),
    ("print".toList, between ' ' '~'),
    ("punct".toList, fun c => between '!' '~' c && !c.isAlphanum),
    ("space".toList, isSpace),
    ("upper".toList, Char.isUpper),
    ("word".toList, Place.isInWord),
    ("xdigit".toList, fun c => (hexValue? c).isSome)]

inductive ClassOperator where
  | intersection
  | difference
  | symmetricDifference
  deriving DecidableEq, Repr

namespace ClassOperator

def ofChar? (c : Char) : Option ClassOperator :=
  if c = '&' then some intersection
  else if c = '-' then some difference
  else if c = '~' then some symmetricDifference
  else none

def apply (op : ClassOperator) (left right : Char → Bool) (c : Char) : Bool :=
  match op with
  | intersection => left c && right c
  | difference => left c && !right c
  | symmetricDifference => left c != right c

end ClassOperator

/-- A class that is open: what it holds behind its last operator, what stands before that, and the
rests of the pattern from its bracket and from its first item on. -/
structure OpenClass where
  fits : Char → Bool
  before : Option (ClassOperator × (Char → Bool))
  negated : Bool
  start : Text
  inside : Text

namespace OpenClass

def add (k : OpenClass) (fits : Char → Bool) : OpenClass :=
  { k with fits := fun c => k.fits c || fits c }

def whole (k : OpenClass) : Char → Bool :=
  match k.before with
  | none => k.fits
  | some (op, left) => op.apply left k.fits

def operate (k : OpenClass) (op : ClassOperator) : OpenClass :=
  { k with fits := fun _ => false, before := some (op, k.whole) }

def failUnclosed {α : Type} (k : OpenClass) : Scan α := failOver .unclosedClass k.start k.inside

def close (flags : Flags) (k : OpenClass) (rest : Text) : Scan (Char → Bool) := do
  if flags.caseless && !flags.ascii then refuse .noCaseData k.start rest
  else if k.negated && flags.ascii then refuse .notText k.start rest
  let fits := foldCase flags k.whole
  return fun c => if k.negated then !fits c else fits c

end OpenClass

/-- Reads the bracket that opens a class, and what stands for itself only right behind it. -/
def openClass (start : Text) : Scan OpenClass :=
  let (negated, rest) := match start.tail with
    | '^' :: rest => (true, rest)
    | rest => (false, rest)
  let opened (fits : Char → Bool) (inside : Text) : OpenClass :=
    ⟨fits, none, negated, start, inside⟩
  match rest with
  | '-' :: _ =>
      match rest.dropWhile (· = '-') with
      | [] => failOver .unclosedClass start start
      | inside => pure (opened (· = '-') inside)
  | ']' :: c :: cs => pure (opened (· = ']') (c :: cs))
  | [']'] | [] => failOver .unclosedClass start []
  | inside => pure (opened (fun _ => false) inside)

def readNamedClass? : Text → Option ((Char → Bool) × Text)
  | '[' :: ':' :: cs =>
      let (negated, cs) := match cs with
        | '^' :: cs => (true, cs)
        | cs => (false, cs)
      match cs.dropWhile (· ≠ ':') with
      | ':' :: ']' :: after =>
          let name := cs.takeWhile (· ≠ ':')
          (namedClasses.find? fun e => decide (e.1 = name)).map fun e =>
            (fun c => if negated then !e.2 c else e.2 c, after)
      | _ => none
  | _ => none

/-- One character or escape in a class. -/
def readItem (flags : Flags) (k : OpenClass) (rest : Text) : Scan (Atom × Text) :=
  match rest with
  | [] => k.failUnclosed
  | c :: cs => if c = '\\' then readEscape flags rest else pure (.literal c, cs)

/-- An end of a range, which is a character. -/
def Atom.rangeEnd (a : Atom) (start stop : Text) : Scan Char :=
  match a with
  | .literal c => pure c
  | _ => failOver .rangeEnd start stop

def readRange (flags : Flags) (k : OpenClass) (rest : Text) : Scan ((Char → Bool) × Text) := do
  let (first, after) ← readItem flags k rest
  let alone : Scan ((Char → Bool) × Text) := match first with
    | .literal c => do
        if flags.ascii && 0x80 ≤ c.toNat then refuse .notAscii rest after
        return ((· = c), after)
    | .set fits => pure (fits, after)
    | .place _ => failOver .escapeInClass rest after
  match after with
  | [] | ['-'] => k.failUnclosed
  | '-' :: ']' :: _ => alone
  | '-' :: '-' :: _ => alone
  | '-' :: second => do
      let (last, stop) ← readItem flags k second
      let low ← first.rangeEnd rest after
      let high ← last.rangeEnd second stop
      if high < low then failOver .reversedRange rest stop
      if flags.ascii && 0x80 ≤ high.toNat then refuse .notAscii rest stop
      return (fun c => decide (low ≤ c ∧ c ≤ high), stop)
  | _ => alone

/-- Reads what is left of a class, with the classes around it, innermost first. -/
def readClassFrom (flags : Flags) :
    Nat → OpenClass → List OpenClass → Text → Scan ((Char → Bool) × Text)
  | 0, k, _, _ => k.failUnclosed
  | _, k, _, [] => k.failUnclosed
  | fuel + 1, k, outer, c :: cs => do
      if c = ']' then
        let fits ← k.close flags cs
        match outer with
        | [] => return (fits, cs)
        | o :: outer => readClassFrom flags fuel (o.add fits) outer cs
      else if c = '[' then
        match readNamedClass? (c :: cs) with
        | some (fits, after) => readClassFrom flags fuel (k.add fits) outer after
        | none =>
            let inner ← openClass (c :: cs)
            readClassFrom flags fuel inner (k :: outer) inner.inside
      else match (if cs.head? = some c then ClassOperator.ofChar? c else none) with
        | some op => readClassFrom flags fuel (k.operate op) outer cs.tail
        | none =>
            let (fits, after) ← readRange flags k (c :: cs)
            readClassFrom flags fuel (k.add fits) outer after

def readClass (flags : Flags) (start : Text) : Scan ((Char → Bool) × Text) := do
  let k ← openClass start
  readClassFrom flags start.length k [] k.inside

end ArithGrammar.PatternReader
