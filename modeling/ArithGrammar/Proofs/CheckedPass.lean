import ArithGrammar.Verdict
import Mathlib.Data.List.DropRight

/-!
# A pass with its checks

The rules can also be followed by one pass that keeps its tokens and its depth in a state, and looks
at everything it relies on at the moment it does so. It gets stuck, and has no result, as soon as

* a view is made that does not lie within the text from one boundary to another,
* a piece is cut out of a text that has no such piece,
* a number would become negative where one is taken from another,
* a token of one byte is read that is not a single character, or a closing parenthesis that is not
  the one looked up before,
* an integer or a name is not found where a first character of one was seen,
* a loop ends before it has run out of operators, or the calls of a factor within factors are one
  more than the limit allows.

Nothing here is trusted to go well: a piece that is missing is no failure that a pass reports, and
the depth is counted up and down rather than handed on.
-/
namespace ArithGrammar
open Text (byteLength)

/-- The view lies within the text, from one boundary to another. -/
def View.SoundIn (input : Text) (v : View) : Prop :=
  v.source = input ∧ v.start ≤ v.stop ∧ v.stop ≤ byteLength input ∧
    Text.isBoundary input v.start = true ∧ Text.isBoundary input v.stop = true

instance (input : Text) (v : View) : Decidable (v.SoundIn input) :=
  inferInstanceAs (Decidable (_ ∧ _))

/-- What a pass has kept, and how many groups and signs are open. -/
structure PassState where
  tokens : List Token
  trace : List Event
  depth : Nat

/-- A step of a pass with its checks. -/
abbrev Checked (α : Type) := ExceptT Failure (StateT PassState Option) α

namespace Checked
variable {α : Type}

def stuck : Checked α := ExceptT.mk fun _ => none

def require (p : Prop) [Decidable p] : Checked Unit := if p then pure () else stuck

def piece (x : Except Text.SliceError α) : Checked α :=
  match x with
  | .ok a => pure a
  | .error _ => stuck

def rest (v : View) : Checked Text := piece v.text

def headIn (set : CharSet) (v : View) : Checked Bool := piece (v.headIn set)

def enter (rule : Rule) (v : View) : Checked Unit := do
  let _ ← rest v
  modify fun st => { st with trace := st.trace ++ [.entered rule v] }

def keep (t : Token) : Checked Unit :=
  modify fun st => { st with tokens := st.tokens ++ [t], trace := st.trace ++ [.read t] }

section
variable (input : Text)

/-- A view that is made. -/
def sound (v : View) : Checked View := do
  require (v.SoundIn input)
  return v

def trim (v : View) : Checked View := do
  let s ← rest v
  let kept := byteLength (CharSet.blank.afterRun s)
  require (kept ≤ byteLength s)
  let v ← sound input { v with start := v.start + (byteLength s - kept) }
  let s ← rest v
  let kept := byteLength (s.rdropWhile CharSet.blank.contains)
  require (kept ≤ byteLength s ∧ byteLength s - kept ≤ v.stop)
  sound input { v with stop := v.stop - (byteLength s - kept) }

def read (kind : TokenKind) (len : Nat) (v : View) : Checked View := do
  let (token, left) ← piece (v.take len kind)
  require (len = 1 → token.text.map Char.utf8Size = [1])
  keep token
  sound input left

def splitAt (len : Nat) (v : View) : Checked (View × View) := do
  let inner ← sound input (v.splitAt len).1
  let left ← sound input (v.splitAt len).2
  return (inner, left)

end

/-- The first dot is looked for in all of the text, which is cut in front of it and behind it. -/
def decimal? (s : Text) : Checked (Option Literal.Decimal) := do
  match s.dropWhile fun c => !CharSet.dot.contains c with
  | [] => return none
  | _ :: _ =>
    let dot := byteLength (s.takeWhile fun c => !CharSet.dot.contains c)
    let whole ← piece (Text.slice s 0 dot)
    if whole.all CharSet.digit.contains then
      let fraction ← piece (Text.slice s (dot + 1) (byteLength s))
      return (Literal.integer? fraction).map fun n => ⟨dot, dot + 1 + n⟩
    else return none

/-- The groups that are open are counted from character to character. -/
def closingFrom : Nat → Text → Checked (Option Nat)
  | _, [] => return none
  | opened, c :: s => do
    let opened := if CharSet.openParen.contains c then opened + 1 else opened
    require (CharSet.closeParen.contains c → 1 ≤ opened)
    let opened := if CharSet.closeParen.contains c then opened - 1 else opened
    if opened = 0 then return some 0
    return (← closingFrom opened s).map (c.utf8Size + ·)

section
variable (input : Text)

def number (v : View) : Checked View := do
  match ← decimal? (← rest v) with
  | some d =>
    let v ← read input .integer d.dot v
    let v ← read input .dot 1 v
    require (d.dot ≤ d.stop ∧ 1 ≤ d.stop - d.dot)
    read input .fraction (d.stop - d.dot - 1) v
  | none =>
    match Literal.integer? (← rest v) with
    | some len => read input .integer len v
    | none => stuck

def name (v : View) : Checked View := do
  match Literal.name? (← rest v) with
  | some len => read input .identifier len v
  | none => stuck

def products (factor : View → Checked View) : Nat → View → Checked View
  | 0, v => do
    if ← headIn .mulOp v then stuck else return v
  | bytes + 1, v => do
    if ← headIn .mulOp v then
      let v ← factor (← trim input (← read input .mulOp 1 v))
      products factor bytes (← trim input v)
    else
      return v

def term (factor : View → Checked View) (v : View) : Checked View := do
  enter .term v
  let v ← factor (← trim input v)
  let v ← trim input v
  products input factor v.length v

def sums (factor : View → Checked View) : Nat → View → Checked View
  | 0, v => do
    if ← headIn .addOp v then stuck else return v
  | bytes + 1, v => do
    if ← headIn .addOp v then
      let v ← trim input (← read input .addOp 1 v)
      if ← piece (v.beginsWith ['(', ')']) then
        let v ← read input .openParen 1 v
        let _ ← read input .closeParen 1 v
        throw .mismatch
      else
        let v ← term input factor v
        sums factor bytes (← trim input v)
    else
      return v

def expression (factor : View → Checked View) (v : View) : Checked Unit := do
  enter .expression v
  let v ← term input factor (← trim input v)
  let v ← trim input v
  let v ← sums input factor v.length v
  if v.isEmpty then return () else throw .mismatch

/-- Behind the expression the parenthesis stands at the place where it was found before. -/
def group (factor : View → Checked View) (v : View) : Checked View := do
  let v ← read input .openParen 1 v
  match ← closingFrom 1 (← rest v) with
  | none => throw .mismatch
  | some close =>
    let (inner, left) ← splitAt input close v
    expression input factor inner
    require (left.start = v.start + close ∧ left.chars.head? = some ')')
    read input .closeParen 1 left

def sign (factor : View → Checked View) (v : View) : Checked View := do
  factor (← trim input (← read input .minus 1 v))

end

/-- One level deeper, and back again however it ends. -/
def deeper (reader : View → Checked View) (v : View) : Checked View := do
  modify fun st => { st with depth := st.depth + 1 }
  let outcome ← ExceptT.lift (reader v).run
  require (1 ≤ (← get).depth)
  modify fun st => { st with depth := st.depth - 1 }
  ExceptT.mk (pure outcome)

def nested (limit : Nat) (reader : View → Checked View) (v : View) : Checked View := do
  if limit ≤ (← get).depth then throw (.tooDeep limit) else deeper reader v

section
variable (input : Text)

def operand (group sign : View → Checked View) (v : View) : Checked View := do
  enter .factor v
  if ← headIn .digit v then number input v
  else if ← headIn .nameStart v then name input v
  else if ← headIn .openParen v then group v
  else if ← headIn .minus v then sign v
  else throw .mismatch

/-- A factor within which factors may be called `calls` times inside one another. -/
def factor (limit : Nat) : Nat → View → Checked View
  | 0, _ => stuck
  | calls + 1, v =>
    operand input (nested limit (group input (factor limit calls)))
      (nested limit (sign input (factor limit calls))) v

def recognize (limit : NestingLimit) : Checked Unit := do
  let v ← trim input (← sound input (View.whole input))
  expression input (factor input limit.levels (limit.levels + 1)) v

end

end Checked

end ArithGrammar
