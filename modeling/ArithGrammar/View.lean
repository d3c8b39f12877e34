import ArithGrammar.Literal
import ArithGrammar.Token

/-!
# Bounded views of a text

A view is the part of a text between two byte offsets. Reading consumes it from the front,
trimming drops the blanks at both ends, and splitting cuts it into two views of the same text,
so offsets always count from the beginning of the whole text and a view only ever gets
narrower. A view may have an end inside a character, since it can be split at any length: then
it has no text, and what needs the text fails.
-/
namespace ArithGrammar

structure View where
  source : Text
  start : Nat
  stop : Nat
  deriving DecidableEq, Repr

namespace View

def whole (s : Text) : View := ⟨s, 0, Text.byteLength s⟩

def length (v : View) : Nat := v.stop - v.start

def isEmpty (v : View) : Bool := decide (v.start = v.stop)

/-- The text of the view, which it has only if both its ends are boundaries. -/
def text (v : View) : Except Text.SliceError Text := Text.slice v.source v.start v.stop

/-- The characters of the view, none if it has no text. -/
def chars (v : View) : Text := v.text.toOption.getD []

def head? (v : View) : Except Text.SliceError (Option Char) := v.text.map List.head?

/-- Whether the view begins with a character of the set. -/
def headIn (v : View) (set : CharSet) : Except Text.SliceError Bool :=
  v.text.map fun s => s.head?.any set.contains

def beginsWith (v : View) (pattern : Text) : Except Text.SliceError Bool :=
  v.text.map pattern.isPrefixOf

/-- Bytes of the blanks at the end of a text. -/
def blanksBehind (s : Text) : Nat :=
  s.foldl (fun n c => if CharSet.blank.contains c then n + c.utf8Size else 0) 0

theorem blanksBehind_concat (s : Text) (c : Char) :
    blanksBehind (s ++ [c]) =
      if CharSet.blank.contains c then blanksBehind s + c.utf8Size else 0 := by
  simp [blanksBehind]

/-- Moves the start over the blanks in front, then the stop over the blanks behind. -/
def trim (v : View) : Except Text.SliceError View :=
  v.text.map fun s =>
    { v with
      start := v.start + Text.byteLength (CharSet.blank.run s)
      stop := v.stop - blanksBehind (CharSet.blank.afterRun s) }

/-- The offset `len` bytes behind the start, or the stop if that comes first. -/
def cut (v : View) (len : Nat) : Nat := v.start + min len v.length

/-- The view's first `len` bytes, and the view resumed right behind them. -/
def splitAt (v : View) (len : Nat) : View × View :=
  ({ v with stop := v.cut len }, { v with start := v.cut len })

/-- Consumes the view's first `len` bytes as one token. -/
def take (v : View) (len : Nat) (kind : TokenKind) : Except Text.SliceError (Token × View) :=
  (v.splitAt len).1.text.map fun s =>
    (⟨kind, s, ⟨v.start, v.cut len⟩⟩, (v.splitAt len).2)

theorem text_eq_ok_iff {v : View} {s : Text} :
    v.text = .ok s ↔
      ∃ before after, v.source = before ++ s ++ after ∧ Text.byteLength before = v.start ∧
        v.start + Text.byteLength s = v.stop :=
  Text.slice_eq_ok_iff

theorem chars_eq {v : View} {s : Text} (h : v.text = .ok s) : v.chars = s := by
  simp [chars, h, Except.toOption]

@[simp] theorem text_whole (s : Text) : (whole s).text = .ok s :=
  text_eq_ok_iff.mpr ⟨[], [], by simp [whole], rfl, by simp [whole]⟩

@[simp] theorem source_splitAt_fst (v : View) (len : Nat) :
    (v.splitAt len).1.source = v.source := rfl

@[simp] theorem source_splitAt_snd (v : View) (len : Nat) :
    (v.splitAt len).2.source = v.source := rfl

theorem stop_splitAt_fst (v : View) (len : Nat) :
    (v.splitAt len).1.stop = (v.splitAt len).2.start := rfl

end View

end ArithGrammar
