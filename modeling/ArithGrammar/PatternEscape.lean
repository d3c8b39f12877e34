import ArithGrammar.Pattern
import ArithGrammar.PatternFault

/-!
# Escapes in a written pattern

Behind a backslash a character stands for itself or for another one, for a class of characters or
for a kind of place. A pattern is read from left to right, and the first fault ends the reading.
What is well written but cannot be had is a refusal: the reading goes on, and the first refusal
counts if there is no fault. What depends on tables of all scripts is refused, so that words,
digits and the two cases of letters are only to be had in ASCII.
-/
namespace ArithGrammar.PatternReader

/-- How what follows is to be taken. -/
structure Flags where
  caseless : Bool
  everyLine : Bool
  anyChar : Bool
  returns : Bool
  ascii : Bool
  spaced : Bool
  deriving DecidableEq, Repr

namespace Flags

def start : Flags := ⟨false, false, false, false, false, false⟩

def letters : Text := "imsURux".toList

/-- Sets what a letter stands for. The letter `U` turns greedy repetition round, which makes no
difference to where a pattern occurs. -/
def set (flags : Flags) (letter : Char) (value : Bool) : Flags :=
  if letter = 'i' then { flags with caseless := value }
  else if letter = 'm' then { flags with everyLine := value }
  else if letter = 's' then { flags with anyChar := value }
  else if letter = 'R' then { flags with returns := value }
  else if letter = 'u' then { flags with ascii := !value }
  else if letter = 'x' then { flags with spaced := value }
  else flags

end Flags

/-- What is held against a pattern that is well written: the first refusal, and whether it asks
for the boundaries of words of all scripts. -/
structure Objections where
  refusal : Option PatternFault
  boundaries : Bool
  deriving DecidableEq, Repr

abbrev Scan := StateT Objections (Except PatternFault)

def failOver {α : Type} (cause : PatternFault.Cause) (start stop : Text) : Scan α :=
  throw (.between cause start stop)

def failAt {α : Type} (cause : PatternFault.Cause) (rest : Text) : Scan α :=
  failOver cause rest rest.tail

def failAtEnd {α : Type} (cause : PatternFault.Cause) : Scan α := failOver cause [] []

def refuse (cause : PatternFault.Cause) (start stop : Text) : Scan Unit :=
  modify fun o => { o with refusal := o.refusal <|> some (.between cause start stop) }

/-- What stands for something in a pattern and has no parts. -/
inductive Atom where
  | literal (c : Char)
  | set (fits : Char → Bool)
  | place (fits : Place → Bool)

def hexValue? (c : Char) : Option Nat :=
  if c.isDigit then some (c.toNat - 48)
  else if 'a' ≤ c ∧ c ≤ 'f' then some (c.toNat - 87)
  else if 'A' ≤ c ∧ c ≤ 'F' then some (c.toNat - 55)
  else none

/-- The character with the code point that the digits write. -/
def charOfHex? (digits : List Nat) : Option Char :=
  let n := digits.foldl (fun n d => 16 * n + d) 0
  if n.isValidChar then some (Char.ofNat n) else none

/-- As many hexadecimal digits as are asked for, and what follows. -/
def hexDigits : Nat → Text → Scan (List Nat × Text)
  | 0, rest => pure ([], rest)
  | _ + 1, [] => failAtEnd .unfinishedEscape
  | n + 1, c :: cs =>
      match hexValue? c with
      | none => failAt .badHexDigit (c :: cs)
      | some d => do
          let (ds, rest) ← hexDigits n cs
          return (d :: ds, rest)

/-- The hexadecimal digits up to a closing brace, and what is left from it on. -/
def bracedHexDigits (brace : Text) : Text → Scan (List Nat × Text)
  | [] => failOver .unfinishedEscape brace []
  | c :: cs =>
      if c = '\x7d' then pure ([], c :: cs)
      else match hexValue? c with
        | none => failAt .badHexDigit (c :: cs)
        | some d => do
            let (ds, rest) ← bracedHexDigits brace cs
            return (d :: ds, rest)

/-- A code point in hexadecimal digits, which are in braces or of a given number. -/
def readHex (digits : Nat) : Text → Scan (Atom × Text)
  | [] => failAtEnd .unfinishedEscape
  | c :: cs =>
      if c = '\x7b' then do
        let (ds, rest) ← bracedHexDigits (c :: cs) cs
        if ds.isEmpty then failOver .emptyHex (c :: cs) rest.tail
        else match charOfHex? ds with
          | none => failOver .badHex cs rest
          | some c => return (.literal c, rest.tail)
      else do
        let (ds, rest) ← hexDigits digits (c :: cs)
        match charOfHex? ds with
        | none => failOver .badHex (c :: cs) rest
        | some c => return (.literal c, rest)

/-- A class that is refused holds nothing. -/
def refusedClass (cause : PatternFault.Cause) (start rest : Text) : Scan (Atom × Text) := do
  refuse cause start rest
  return (.set fun _ => false, rest)

/-- A property of characters is read to its end and refused. -/
def readProperty (flags : Flags) (start : Text) : Text → Scan (Atom × Text)
  | [] => failAtEnd .unfinishedEscape
  | c :: cs =>
      let refused := refusedClass (if flags.ascii then .notAscii else .unknownProperty) start
      if c = '\\' then failAt .badProperty (c :: cs)
      else if c = '\x7b' then
        match cs.dropWhile (· ≠ '\x7d') with
        | [] => failAtEnd .unfinishedEscape
        | _ :: rest => refused rest
      else refused cs

def isSpace (c : Char) : Bool := decide ('\t' ≤ c ∧ c ≤ '\r') || c = ' '

def letterClass? (c : Char) : Option (Char → Bool) :=
  if c = 'd' ∨ c = 'D' then some Char.isDigit
  else if c = 's' ∨ c = 'S' then some isSpace
  else if c = 'w' ∨ c = 'W' then some Place.isInWord
  else none

/-- Takes a class in ASCII if it is asked for there. Its complement is not to be had, for it holds
bytes that are no characters. -/
def asciiClass (flags : Flags) (fits : Char → Bool) (letter : Char) (start rest : Text) :
    Scan (Atom × Text) :=
  if !flags.ascii then refusedClass .noClassData start rest
  else if letter.isUpper then refusedClass .notText start rest
  else pure (.set fits, rest)

/-- Takes a kind of place that depends on what belongs to a word. -/
def wordPlace (flags : Flags) (fits : Place → Bool) (rest : Text) : Scan (Atom × Text) := do
  modify fun o => { o with boundaries := o.boundaries || !flags.ascii }
  return (.place fits, rest)

def isBoundaryLetter (c : Char) : Bool := c.isAlpha || c = '-'

/-- The boundary of a word, of a kind that may be given in braces. Braces with something else are
left for a count. -/
def readBoundary (flags : Flags) (start : Text) : Text → Scan (Atom × Text)
  | '\x7b' :: inside =>
      match inside with
      | [] => failOver .unfinishedBoundary start []
      | c :: _ =>
          if !isBoundaryLetter c then
            wordPlace flags Place.wordBoundary ('\x7b' :: inside)
          else
            let kind := inside.takeWhile isBoundaryLetter
            match inside.dropWhile isBoundaryLetter with
            | '\x7d' :: after =>
                if kind = "start".toList then wordPlace flags Place.wordStart after
                else if kind = "end".toList then wordPlace flags Place.wordEnd after
                else if kind = "start-half".toList then wordPlace flags Place.halfWordStart after
                else if kind = "end-half".toList then wordPlace flags Place.halfWordEnd after
                else failOver .unknownBoundary inside ('\x7d' :: after)
            | after => failOver .unclosedBoundary ('\x7b' :: inside) after
  | rest => wordPlace flags Place.wordBoundary rest

def isEscapable (c : Char) : Bool :=
  c.toNat < 0x80 && !c.isAlphanum && c ≠ '<' && c ≠ '>'

def letterChar? (c : Char) : Option Char :=
  if c = 'a' then some '\x07'
  else if c = 'f' then some '\x0c'
  else if c = 't' then some '\t'
  else if c = 'n' then some '\n'
  else if c = 'r' then some '\r'
  else if c = 'v' then some '\x0b'
  else none

def readEscape (flags : Flags) (start : Text) : Scan (Atom × Text) :=
  match start.tail with
  | [] => failOver .unfinishedEscape start []
  | c :: rest =>
      if c.isDigit then failOver .backreference start rest
      else if c = 'x' then readHex 2 rest
      else if c = 'u' then readHex 4 rest
      else if c = 'U' then readHex 8 rest
      else if c = 'p' ∨ c = 'P' then readProperty flags start rest
      else if c = 'b' then readBoundary flags start rest
      else if c = 'B' then wordPlace flags (fun p => !p.wordBoundary) rest
      else if c = '<' then wordPlace flags Place.wordStart rest
      else if c = '>' then wordPlace flags Place.wordEnd rest
      else if c = 'A' then pure (.place Place.textStart, rest)
      else if c = 'z' then pure (.place Place.textEnd, rest)
      else if isEscapable c then pure (.literal c, rest)
      else match letterClass? c, letterChar? c with
        | some fits, _ => asciiClass flags fits c start rest
        | none, some d => pure (.literal d, rest)
        | none, none => failOver .unknownEscape start rest

end ArithGrammar.PatternReader
