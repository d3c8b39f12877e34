import ArithGrammar.GraphemeBreak
import ArithGrammar.Unseen

/-!
# Quoted texts

A quoted text stands between double quotes on one line, whatever characters it has. A quote and a
backslash get a backslash in front, the tab, the two line ends and the null have a letter of their
own, and a character that shows nothing or only empty space, or that alters the character before
it, is given by its code point in hexadecimal digits between braces. The space itself, the
apostrophe and everything visible stand as they are.
-/
namespace ArithGrammar.Quoted

/-- The letters of Hangul that hold an empty place. -/
def fillers : CodePoints := [(0x115f, 0x1160), (0x3164, 0x3164), (0xffa0, 0xffa0)]

/-- Whether a character is given by its code point because it would not be seen, or would be seen
as a part of the character before it. -/
def isHidden (c : Char) : Bool :=
  unseen.contains c || GraphemeClass.extenders.contains c || fillers.contains c

def hexDigit (d : Nat) : Char :=
  if d < 10 then Char.ofNat (48 + d) else Char.ofNat (87 + d)

/-- The hexadecimal digits of a number without leading zeros, the last `digits` of them at most. -/
def hex : Nat → Nat → Text
  | 0, _ => []
  | digits + 1, n => (if n < 16 then [] else hex digits (n / 16)) ++ [hexDigit (n % 16)]

def escape (c : Char) : Text :=
  if c = '\x22' ∨ c = '\\' then ['\\', c]
  else if c = '\t' then ['\\', 't']
  else if c = '\r' then ['\\', 'r']
  else if c = '\n' then ['\\', 'n']
  else if c = '\x00' then ['\\', '0']
  else if isHidden c then ['\\', 'u', '\x7b'] ++ hex 6 c.toNat ++ ['\x7d']
  else [c]

def encode (s : Text) : Text := ['\x22'] ++ s.flatMap escape ++ ['\x22']

end ArithGrammar.Quoted
