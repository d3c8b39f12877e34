import ArithGrammar.CharSet

/-!
# Literals at the front of a text

Each function looks at the beginning of a text and answers how far the literal found there
reaches, in bytes, or nothing when there is none. Blanks are not skipped. A decimal number is
looked for at the first dot of the whole text, wherever that is, and counts only if nothing but
digits stands before it. `closing?` answers where the group ends whose opening parenthesis has
just been read.
-/
namespace ArithGrammar.Literal

/-- Bytes of the longest run of digits, unless it is empty. -/
def integer? (s : Text) : Option Nat :=
  match CharSet.digit.run s with
  | [] => none
  | c :: cs => some (Text.byteLength (c :: cs))

/-- Bytes of a letter or underscore and the letters, digits and underscores after it. -/
def name? : Text → Option Nat
  | [] => none
  | c :: cs =>
      if CharSet.nameStart.contains c then
        some (Text.byteLength (CharSet.namePart.run (c :: cs)))
      else none

/-- Where a decimal number has its dot and where it ends. -/
structure Decimal where
  dot : Nat
  stop : Nat
  deriving DecidableEq, Repr

/-- Digits, possibly none, before the first dot of the text, and at least one right after it. -/
def decimal? (s : Text) : Option Decimal :=
  let whole := s.takeWhile (fun c => !CharSet.dot.contains c)
  match s.dropWhile (fun c => !CharSet.dot.contains c) with
  | [] => none
  | dot :: fraction =>
      if whole.all CharSet.digit.contains then
        let place := Text.byteLength whole
        (integer? fraction).map fun n => ⟨place, place + dot.utf8Size + n⟩
      else none

/-- Groups still open after one more character, when `opened` were open before it. -/
def openedAfter (opened : Nat) (c : Char) : Nat :=
  if CharSet.openParen.contains c then opened + 1
  else if CharSet.closeParen.contains c then opened - 1
  else opened

/-- Offset of the character behind which none of the `opened` groups is open any more. -/
def closingFrom : Nat → Text → Option Nat
  | _, [] => none
  | opened, c :: cs =>
      match openedAfter opened c with
      | 0 => some 0
      | left + 1 => (closingFrom (left + 1) cs).map (c.utf8Size + ·)

/-- Offset of the parenthesis that closes a group opened just before the text. -/
def closing? (s : Text) : Option Nat := closingFrom 1 s

structure Findings where
  integer : Option Nat
  name : Option Nat
  closing : Option Nat
  decimal : Option Decimal
  deriving DecidableEq, Repr

def find (s : Text) : Findings := ⟨integer? s, name? s, closing? s, decimal? s⟩

theorem integer?_eq_none_iff {s : Text} :
    integer? s = none ↔ ∀ c ∈ s.head?, CharSet.digit.contains c = false := by
  cases s with
  | nil => simp [integer?, CharSet.run]
  | cons c cs =>
    cases h : CharSet.digit.contains c <;> simp [integer?, CharSet.run, h]

end ArithGrammar.Literal
