import ArithGrammar.Text

/-!
# Faults of written patterns

A text that does not write a pattern has a first fault: its cause, and the piece of the text that
it is found in. A fault is shown below the text with its piece marked.
-/
namespace ArithGrammar

/-- A piece of a written pattern, by the numbers of characters left at its beginning and end. -/
structure PatternFault.Extent where
  atStart : Nat
  atStop : Nat
  deriving DecidableEq, Repr

/-- What is wrong with a written pattern. -/
inductive PatternFault.Cause where
  | escapeInClass
  | reversedRange
  | rangeEnd
  | unclosedClass
  | badNumber
  | emptyHex
  | badHex
  | badHexDigit
  | unfinishedEscape
  | unknownEscape
  | danglingNegation
  | repeatedFlag
  | repeatedNegation
  | unfinishedFlags
  | unknownFlag
  | repeatedName
  | emptyName
  | badName
  | unfinishedName
  | unclosedGroup
  | unopenedGroup
  | reversedCount
  | missingCount
  | unclosedCount
  | nothingToRepeat
  | unclosedBoundary
  | unknownBoundary
  | unfinishedBoundary
  | badProperty
  | unknownProperty
  | backreference
  | lookAround
  | noClassData
  | noCaseData
  | notText
  | notAscii
  deriving DecidableEq, Repr

/-- The first fault of a written pattern, with the piece that it repeats if it does. -/
structure PatternFault where
  cause : PatternFault.Cause
  extent : PatternFault.Extent
  earlier : Option PatternFault.Extent
  deriving DecidableEq, Repr

namespace PatternFault

/-- A fault in the piece between two rests of a written pattern. -/
def between (cause : Cause) (start stop : Text) : PatternFault :=
  ⟨cause, ⟨start.length, stop.length⟩, none⟩

def Cause.message : Cause → Text
  | escapeInClass => "invalid escape sequence found in character class".toList
  | reversedRange => "invalid character class range, the start must be <= the end".toList
  | rangeEnd => "invalid range boundary, must be a literal".toList
  | unclosedClass => "unclosed character class".toList
  | badNumber => "decimal literal invalid".toList
  | emptyHex => "hexadecimal literal empty".toList
  | badHex => "hexadecimal literal is not a Unicode scalar value".toList
  | badHexDigit => "invalid hexadecimal digit".toList
  | unfinishedEscape =>
      "incomplete escape sequence, reached end of pattern prematurely".toList
  | unknownEscape => "unrecognized escape sequence".toList
  | danglingNegation => "dangling flag negation operator".toList
  | repeatedFlag => "duplicate flag".toList
  | repeatedNegation => "flag negation operator repeated".toList
  | unfinishedFlags => "expected flag but got end of regex".toList
  | unknownFlag => "unrecognized flag".toList
  | repeatedName => "duplicate capture group name".toList
  | emptyName => "empty capture group name".toList
  | badName => "invalid capture group character".toList
  | unfinishedName => "unclosed capture group name".toList
  | unclosedGroup => "unclosed group".toList
  | unopenedGroup => "unopened group".toList
  | reversedCount => "invalid repetition count range, the start must be <= the end".toList
  | missingCount => "repetition quantifier expects a valid decimal".toList
  | unclosedCount => "unclosed counted repetition".toList
  | nothingToRepeat => "repetition operator missing expression".toList
  | unclosedBoundary =>
      "special word boundary assertion is either unclosed or contains an invalid ".toList ++
        "character".toList
  | unknownBoundary =>
      "unrecognized special word boundary assertion, valid choices are: start, ".toList ++
        "end, start-half or end-half".toList
  | unfinishedBoundary =>
      "found either the beginning of a special word boundary or a bounded ".toList ++
        "repetition on a \\b with an opening brace, but no closing brace".toList
  | badProperty => "invalid Unicode character class".toList
  | unknownProperty => "Unicode property not found".toList
  | backreference => "backreferences are not supported".toList
  | lookAround => "look-around, including look-ahead and look-behind, is not supported".toList
  | noClassData =>
      "Unicode-aware Perl class not found (make sure the unicode-perl feature is ".toList ++
        "enabled)".toList
  | noCaseData =>
      "Unicode-aware case insensitivity matching is not available (make sure the ".toList ++
        "unicode-case feature is enabled)".toList
  | notText => "pattern can match invalid UTF-8".toList
  | notAscii => "Unicode not allowed here".toList

/-- The marks below a text of the given length, from a column on: one for each character of an
extent, and one for an extent without characters. -/
def marks (length : Nat) : Nat → List Extent → Text
  | _, [] => []
  | column, e :: rest =>
      let start := length - e.atStart
      let width := max 1 (e.atStart - e.atStop)
      List.replicate (start - column) ' ' ++ List.replicate width '^' ++
        marks length (max start column + width) rest

def message (f : PatternFault) (written : Text) : Text :=
  let extents := match f.earlier with
    | none => [f.extent]
    | some e => [e, f.extent]
  "regex parse error:\n    ".toList ++ written ++ "\n    ".toList ++
    marks written.length 0 extents ++ "\nerror: ".toList ++ f.cause.message

end PatternFault

end ArithGrammar
