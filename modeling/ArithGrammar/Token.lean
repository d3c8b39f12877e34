import ArithGrammar.Text

/-!
# Tokens

A token is a piece of the text with its kind and its place. Kinds tell the two roles of a minus
sign apart, and a decimal number makes three tokens: the digits before the dot, the dot, the
digits after it.
-/
namespace ArithGrammar

inductive TokenKind where
  | addOp
  | mulOp
  | minus
  | integer
  | dot
  | fraction
  | identifier
  | openParen
  | closeParen
  deriving DecidableEq, Repr

namespace TokenKind

def all : List TokenKind :=
  [addOp, mulOp, minus, integer, dot, fraction, identifier, openParen, closeParen]

theorem mem_all (kind : TokenKind) : kind ∈ all := by cases kind <;> decide

def label : TokenKind → Text
  | addOp => "AddOp".toList
  | mulOp => "MulOp".toList
  | minus => "Minus".toList
  | integer => "Integer".toList
  | dot => "Dot".toList
  | fraction => "Fraction".toList
  | identifier => "Identifier".toList
  | openParen => "OParen".toList
  | closeParen => "CParen".toList

end TokenKind

/-- The bytes from `start` up to, and not including, `stop`. -/
structure Span where
  start : Nat
  stop : Nat
  deriving DecidableEq, Repr

structure Token where
  kind : TokenKind
  text : Text
  span : Span
  deriving DecidableEq, Repr

namespace Token

def texts (tokens : List Token) : List Text := tokens.map (·.text)

/-- The texts of the tokens with a comma and a space between two of them. -/
def display (tokens : List Token) : Text := ", ".toList.intercalate (texts tokens)

@[simp] theorem display_nil : display [] = [] := rfl

end Token

end ArithGrammar
