import ArithGrammar.CodePoints

/-!
# White space

The characters of all scripts that are space and nothing else, line ends included.
-/
namespace ArithGrammar

/-- The characters with the property White_Space. -/
def whiteSpace : CodePoints :=
  [(0x9, 0xd), (0x20, 0x20), (0x85, 0x85), (0xa0, 0xa0), (0x1680, 0x1680), (0x2000, 0x200a),
    (0x2028, 0x2029), (0x202f, 0x202f), (0x205f, 0x205f), (0x3000, 0x3000)]

/-- A text without the white space at its two ends. -/
def Text.stripped (s : Text) : Text :=
  ((s.dropWhile whiteSpace.contains).reverse.dropWhile whiteSpace.contains).reverse

end ArithGrammar
