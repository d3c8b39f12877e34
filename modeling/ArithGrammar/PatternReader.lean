import ArithGrammar.PatternClass
import ArithGrammar.WhiteSpace

/-!
# Reading a pattern

A pattern is written as a text in which most characters stand for themselves. Groups that are open
are kept on a stack with what was read before them. Each round of the loop reads at least one
character, so there are no more rounds than characters.
-/
namespace ArithGrammar

namespace PatternReader

/-- How often something is repeated at least, and at most if there is a bound. -/
abbrev Count := Nat × Option Nat

/-- Numbers of 32 bits stay below this. -/
def numberBound : Nat := 4294967296

/-- A decimal number with space around it, or the fault in its place, and what follows. -/
def readNumber (rest : Text) : Except PatternFault Nat × Text :=
  let start := rest.dropWhile whiteSpace.contains
  let digits := start.takeWhile Char.isDigit
  let after := start.dropWhile Char.isDigit
  let n := digits.foldl (fun n d => 10 * n + (d.toNat - 48)) 0
  (if digits.isEmpty then .error (.between .missingCount start after)
    else if numberBound ≤ n then .error (.between .badNumber start after)
    else .ok n,
    after.dropWhile whiteSpace.contains)

/-- A question mark behind a repetition makes no difference to where a pattern occurs. -/
def skipQuestion : Text → Text
  | '?' :: rest => rest
  | rest => rest

/-- Reads the end of the count that begins with the brace at the start. -/
def finishCount (start : Text) (count : Count) : Text → Scan (Count × Text)
  | '\x7d' :: after =>
      let after := skipQuestion after
      if count.2.any (· < count.1) then failOver .reversedCount start after
      else pure (count, after)
  | rest => failOver .unclosedCount start rest

def readCount (start : Text) : Scan (Count × Text) :=
  let (least, rest) := readNumber start.tail
  match rest with
  | [] | [','] => failOver .unclosedCount start []
  | ',' :: '\x7d' :: _ => do finishCount start (← least, none) rest.tail
  | ',' :: cs => do
      let n ← least
      let (most, rest) := readNumber cs
      finishCount start (n, some (← most)) rest
  | _ => do
      let n ← least
      finishCount start (n, some n) rest

/-- The flags up to a colon or a closing parenthesis. The extents of the characters read before
tell what is repeated; those behind a hyphen are turned off. -/
def readFlags (flags : Flags) (seen : List (Char × PatternFault.Extent)) :
    Text → Scan (Flags × Text)
  | [] => failAtEnd .unfinishedFlags
  | c :: cs =>
      let extent : PatternFault.Extent := ⟨cs.length + 1, cs.length⟩
      if c = ':' ∨ c = ')' then
        match seen with
        | ('-', hyphen) :: _ => throw ⟨.danglingNegation, hyphen, none⟩
        | _ => pure (flags, c :: cs)
      else if c ≠ '-' ∧ c ∉ Flags.letters then failAt .unknownFlag (c :: cs)
      else match seen.find? fun e => decide (e.1 = c) with
        | some (_, earlier) =>
            throw ⟨if c = '-' then .repeatedNegation else .repeatedFlag, extent, some earlier⟩
        | none =>
            let value := !seen.any fun e => decide (e.1 = '-')
            readFlags (flags.set c value) ((c, extent) :: seen) cs

def isNameChar (first : Bool) (c : Char) : Bool :=
  c = '_' || c.isAlpha || 0x80 ≤ c.toNat ||
    (!first && (c.isDigit || c = '.' || c = '[' || c = ']'))

def readName (start : Text) (first : Bool) : Text → Scan (Text × Text)
  | [] => failAtEnd .unfinishedName
  | c :: cs =>
      if c = '>' then if first then failOver .emptyName start start else pure ([], cs)
      else if !isNameChar first c then failAt .badName (c :: cs)
      else do
        let (name, rest) ← readName start false cs
        return (c :: name, rest)

/-- What was read of a group: its earlier choices and the parts of the last one, both from the end
back. A part that only sets flags is none. -/
structure Group where
  choices : List Pattern
  parts : List (Option Pattern)

namespace Group

def start : Group := ⟨[], []⟩

def add (g : Group) (part : Option Pattern) : Group := { g with parts := part :: g.parts }

def choice (g : Group) : Pattern :=
  g.parts.foldl (fun behind part => part.elim behind fun p => .append p behind) .empty

def choose (g : Group) : Group := ⟨g.choice :: g.choices, []⟩

def pattern (g : Group) : Pattern := g.choices.foldl (fun later p => .either p later) g.choice

end Group

/-- A group that is open: what was read before it, the flags to go back to, and the rest of the
pattern from its parenthesis on. -/
structure OpenGroup where
  before : Group
  flags : Flags
  start : Text

structure Progress where
  rest : Text
  flags : Flags
  group : Group
  outer : List OpenGroup
  names : List (Text × PatternFault.Extent)

namespace Progress

def start (written : Text) : Progress := ⟨written, .start, .start, [], []⟩

def add (r : Progress) (p : Pattern) (rest : Text) : Progress :=
  { r with group := r.group.add (some p), rest }

/-- Opens the group at the front, whose pattern begins further on. -/
def enter (r : Progress) (flags : Flags) (rest : Text) : Progress :=
  { r with rest, flags, group := .start, outer := ⟨r.group, r.flags, r.rest⟩ :: r.outer }

def enterNamed (r : Progress) (inside : Text) : Scan Progress := do
  let (name, rest) ← readName inside true inside
  let extent : PatternFault.Extent := ⟨inside.length, inside.length - name.length⟩
  match r.names.find? fun e => decide (e.1 = name) with
  | some (_, earlier) => throw ⟨.repeatedName, extent, some earlier⟩
  | none => return { r.enter r.flags rest with names := (name, extent) :: r.names }

/-- Reads the beginning of a group, or flags for the rest of the group that it stands in. -/
def openGroup (r : Progress) : Scan Progress :=
  match r.rest.tail with
  | '?' :: '=' :: rest | '?' :: '!' :: rest => failOver .lookAround r.rest rest
  | '?' :: '<' :: '=' :: rest | '?' :: '<' :: '!' :: rest => failOver .lookAround r.rest rest
  | '?' :: 'P' :: '<' :: rest | '?' :: '<' :: rest => r.enterNamed rest
  | ['?'] => failAt .unclosedGroup r.rest
  | '?' :: ')' :: _ => failOver .nothingToRepeat r.rest.tail r.rest.tail
  | '?' :: rest => do
      match ← readFlags r.flags [] rest with
      | (flags, ')' :: after) =>
          return { r with flags, rest := after, group := r.group.add none }
      | (flags, after) => return r.enter flags after.tail
  | rest => pure (r.enter r.flags rest)

def closeGroup (r : Progress) : Scan Progress :=
  match r.outer with
  | [] => failAt .unopenedGroup r.rest
  | o :: outer =>
      pure { r with
        rest := r.rest.tail, flags := o.flags, group := o.before.add (some r.group.pattern), outer }

/-- Repeats the last part as often as what follows says. -/
def repeatLast (r : Progress) (count : Scan (Count × Text)) : Scan Progress :=
  match r.group.parts with
  | some p :: parts => do
      let ((least, most), rest) ← count
      return { r with
        rest, group := { r.group with parts := some (.repeated p least most) :: parts } }
  | _ => failOver .nothingToRepeat r.rest r.rest

def addAtom (r : Progress) (a : Atom) (rest : Text) : Scan Progress := do
  match a with
  | .literal c =>
      if r.flags.caseless && !r.flags.ascii then refuse .noCaseData r.rest rest
      return r.add (.char (foldCase r.flags (· = c))) rest
  | .set fits => return r.add (.char fits) rest
  | .place fits => return r.add (.place fits) rest

/-- A full stop stands for all characters that end no line. -/
def addDot (r : Progress) : Scan Progress := do
  if r.flags.ascii then refuse .notText r.rest r.rest.tail
  let fits (c : Char) : Bool :=
    r.flags.anyChar || (c ≠ '\n' && !(r.flags.returns && c = '\r'))
  return r.add (.char fits) r.rest.tail

def lineStart (flags : Flags) : Place → Bool :=
  if !flags.everyLine then Place.textStart
  else if flags.returns then Place.returnLineStart
  else Place.lineStart

def lineEnd (flags : Flags) : Place → Bool :=
  if !flags.everyLine then Place.textEnd
  else if flags.returns then Place.returnLineEnd
  else Place.lineEnd

def step (r : Progress) (c : Char) : Scan Progress := do
  let behind := r.rest.tail
  if c = '(' then r.openGroup
  else if c = ')' then r.closeGroup
  else if c = '|' then return { r with rest := behind, group := r.group.choose }
  else if c = '[' then
    let (fits, rest) ← readClass r.flags r.rest
    return r.add (.char fits) rest
  else if c = '?' then r.repeatLast (pure ((0, some 1), skipQuestion behind))
  else if c = '*' then r.repeatLast (pure ((0, none), skipQuestion behind))
  else if c = '+' then r.repeatLast (pure ((1, none), skipQuestion behind))
  else if c = '\x7b' then r.repeatLast (readCount r.rest)
  else if c = '.' then r.addDot
  else if c = '^' then return r.add (.place (lineStart r.flags)) behind
  else if c = '$' then return r.add (.place (lineEnd r.flags)) behind
  else if c = '\\' then
    let (a, rest) ← readEscape r.flags r.rest
    r.addAtom a rest
  else r.addAtom (.literal c) behind

def finish (r : Progress) : Scan Pattern :=
  match r.outer with
  | [] => pure r.group.pattern
  | o :: _ => failAt .unclosedGroup o.start

/-- What is left behind spaces and comments. -/
def skipBlank (comment : Bool) : Text → Text
  | [] => []
  | c :: cs =>
      if comment then skipBlank (c ≠ '\n') cs
      else if whiteSpace.contains c then skipBlank false cs
      else if c = '#' then skipBlank true cs
      else c :: cs

def run : Nat → Progress → Scan Pattern
  | 0, r => r.finish
  | fuel + 1, r =>
      let rest := if r.flags.spaced then skipBlank false r.rest else r.rest
      match rest with
      | [] => r.finish
      | c :: _ => do run fuel (← { r with rest }.step c)

end Progress

end PatternReader

/-- Why there is no pattern for a text. -/
inductive PatternError where
  | fault (f : PatternFault)
  /-- It asks for the boundaries of words of all scripts. -/
  | boundaries
  deriving DecidableEq, Repr

namespace PatternError

def message (e : PatternError) (written : Text) : Text :=
  match e with
  | fault f => f.message written
  | boundaries => "error building NFA".toList

end PatternError

def Pattern.ofText (written : Text) : Except PatternError Pattern :=
  let r := PatternReader.Progress.start written
  match (r.run written.length).run ⟨none, false⟩ with
  | .error f => .error (.fault f)
  | .ok (_, ⟨some f, _⟩) => .error (.fault f)
  | .ok (_, ⟨none, true⟩) => .error .boundaries
  | .ok (p, ⟨none, false⟩) => .ok p

end ArithGrammar
