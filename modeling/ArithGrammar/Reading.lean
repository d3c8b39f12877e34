import ArithGrammar.Attempt

/-!
# Reading expressions

The grammar has three rules.

* An expression is one or more terms with `+` or `-` between them.
* A term is one or more factors with `*`, `/` or `%` between them.
* A factor is an integer, a decimal number, a name, a group (an expression in parentheses) or a
  sign (a minus before a factor).

Blanks may stand between any two of these, but not inside a number or a name; a term and a
factor are read from a view without blanks at its ends, and a term leaves such a view. An
expression has to use up its whole view. A group's view is therefore cut off at the matching
parenthesis, which is looked up before anything inside the group is read.

Groups and signs nest at most `limit` deep: `room` says how many more of them may be opened
inside one another, and it is what the recursion descends on. Operators add no depth, so the two
loops descend on the bytes of the view, of which every operator takes at least one.
-/
namespace ArithGrammar.Reading
open Attempt

/-- An integer, or a decimal number in its three parts. -/
def number (v : View) : Attempt View := do
  let rest ← ofSlice v.text
  match Literal.decimal? rest, Literal.integer? rest with
  | some d, _ =>
    let v ← read .integer d.dot v
    let v ← read .dot 1 v
    read .fraction (d.stop - d.dot - 1) v
  | none, some len => read .integer len v
  | none, none => fail .mismatch

def name (v : View) : Attempt View := do
  match Literal.name? (← ofSlice v.text) with
  | some len => read .identifier len v
  | none => fail .mismatch

/-- The multiplied factors after the first one of a term. -/
def products (factor : View → Attempt View) : Nat → View → Attempt View
  | 0, v => pure v
  | bytes + 1, v => do
    if ← ofSlice (v.headIn .mulOp) then
      let v ← factor (← trim (← read .mulOp 1 v))
      products factor bytes (← trim v)
    else
      return v

def term (factor : View → Attempt View) (v : View) : Attempt View := do
  enter .term v
  let v ← trim (← factor v)
  products factor v.length v

/-- The added terms after the first one of an expression. A pair of parentheses with nothing
between them is refused as soon as it follows the operator, after both have been read. -/
def sums (factor : View → Attempt View) : Nat → View → Attempt View
  | 0, v => pure v
  | bytes + 1, v => do
    if ← ofSlice (v.headIn .addOp) then
      let v ← trim (← read .addOp 1 v)
      if ← ofSlice (v.beginsWith ['(', ')']) then
        let v ← read .openParen 1 v
        let _ ← read .closeParen 1 v
        fail .mismatch
      else
        sums factor bytes (← term factor v)
    else
      return v

def expression (factor : View → Attempt View) (v : View) : Attempt Unit := do
  enter .expression v
  let v ← term factor (← trim v)
  let v ← sums factor v.length v
  if v.isEmpty then pure () else fail .mismatch

/-- An expression between an opening parenthesis and the one that closes it. -/
def group (factor : View → Attempt View) (v : View) : Attempt View := do
  let v ← read .openParen 1 v
  match Literal.closing? (← ofSlice v.text) with
  | none => fail .mismatch
  | some close =>
    let (inner, rest) := v.splitAt close
    expression factor inner
    read .closeParen 1 rest

def sign (factor : View → Attempt View) (v : View) : Attempt View := do
  factor (← trim (← read .minus 1 v))

/-- A factor, with the given ways of reading a group and a sign. -/
def operand (group sign : View → Attempt View) (v : View) : Attempt View := do
  enter .factor v
  match ← ofSlice v.head? with
  | none => fail .mismatch
  | some c =>
    if CharSet.digit.contains c then number v
    else if CharSet.nameStart.contains c then name v
    else if CharSet.openParen.contains c then group v
    else if CharSet.minus.contains c then sign v
    else fail .mismatch

/-- A factor within which `room` more groups and signs may be opened. -/
def factor (limit : Nat) : Nat → View → Attempt View
  | 0 => operand (fun _ => fail (.tooDeep limit)) (fun _ => fail (.tooDeep limit))
  | room + 1 => operand (group (factor limit room)) (sign (factor limit room))

end ArithGrammar.Reading
