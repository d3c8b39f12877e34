import ArithGrammar.GraphemeBreak

/-!
# Grapheme clusters

A text falls into extended grapheme clusters, the pieces that a reader takes for one character
each. Whether a character joins the cluster before it depends on its class and on the classes in
that cluster. Nothing is lost (`flatten_clusters`).
-/
namespace ArithGrammar.Grapheme

open GraphemeClass

def isBreaking (k : GraphemeClass) : Bool :=
  k = carriageReturn || k = lineFeed || k = control

def isExtender (k : GraphemeClass) : Bool := k = extender || k = linker || k = nonJoiner

/-- What may stand between the consonants of a conjunct. -/
def isInConjunct (k : GraphemeClass) : Bool := k = extender || k = linker || k = joiner

/-- Letters that go on with a syllable of Hangul. -/
def continuesSyllable : GraphemeClass → GraphemeClass → Bool
  | leading, next =>
      next = leading || next = vowel || next = openSyllable || next = closedSyllable
  | openSyllable, next | vowel, next => next = vowel || next = trailing
  | closedSyllable, next | trailing, next => next = trailing
  | _, _ => false

/-- Whether the classes, from the last one back, end in a consonant and a linker behind it. -/
def awaitsConsonant (before : List GraphemeClass) : Bool :=
  (before.takeWhile isInConjunct).contains linker &&
    decide ((before.dropWhile isInConjunct).head? = some consonant)

/-- Whether the classes, from the last one back, end in a pictograph and a joiner behind it. -/
def awaitsPictograph : List GraphemeClass → Bool
  | joiner :: before => decide ((before.dropWhile isExtender).head? = some pictograph)
  | _ => false

/-- Whether the classes, from the last one back, end in half of a pair of regional indicators. -/
def awaitsRegional (before : List GraphemeClass) : Bool :=
  (before.takeWhile (· = regional)).length % 2 = 1

/-- Whether a character of the class belongs to the cluster with the classes before it, the last
one first. -/
def joins : List GraphemeClass → GraphemeClass → Bool
  | [], _ => false
  | last :: before, next =>
      if isBreaking last || isBreaking next then
        decide (last = carriageReturn) && decide (next = lineFeed)
      else
        isExtender next || decide (next = joiner) || decide (next = spacingMark) ||
          decide (last = prepended) || continuesSyllable last next ||
          (decide (next = consonant) && awaitsConsonant (last :: before)) ||
          (decide (next = pictograph) && awaitsPictograph (last :: before)) ||
          (decide (next = regional) && awaitsRegional (last :: before))

/-- The clusters of a text whose beginning, with its classes, is given backwards and is part of
the first cluster. -/
def clustersFrom (start : Text) (before : List GraphemeClass) : Text → List Text
  | [] => [start.reverse]
  | c :: cs =>
      let next := ofChar c
      if joins before next then clustersFrom (c :: start) (next :: before) cs
      else start.reverse :: clustersFrom [c] [next] cs

def clusters : Text → List Text
  | [] => []
  | c :: cs => clustersFrom [c] [ofChar c] cs

theorem flatten_clustersFrom (start : Text) (before : List GraphemeClass) (s : Text) :
    (clustersFrom start before s).flatten = start.reverse ++ s := by
  induction s generalizing start before with
  | nil => simp [clustersFrom]
  | cons c cs ih =>
    simp only [clustersFrom]
    split
    · simp [ih]
    · simp [ih]

@[simp] theorem flatten_clusters (s : Text) : (clusters s).flatten = s := by
  cases s with
  | nil => rfl
  | cons c cs => exact flatten_clustersFrom [c] [ofChar c] cs

end ArithGrammar.Grapheme
