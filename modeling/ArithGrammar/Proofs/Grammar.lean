import ArithGrammar.Proofs.CharRuns
import ArithGrammar.Token

/-!
# The grammar

The grammar stands here on its own, as the type of its derivation trees. The repetitions in the
rules for expressions and terms are parts of their own, so a tree is a tree of a part:

* an expression is a term and the sums behind it, each an additive operator and a term;
* a term is a factor and the products behind it, each a multiplicative operator and a factor;
* a factor is an integer, a decimal number, a name, a group or a sign.

The leaves of a tree, from left to right, are its terminals, and it is determined by them: no two
trees of a part have the same terminals (`Tree.terminals_injective`).
-/
namespace ArithGrammar

/-- The parts of the grammar: its rules, and the repetitions within two of them. -/
inductive Part where
  | expression
  | sums
  | term
  | products
  | factor
  deriving DecidableEq, Repr

@[ext] structure Digits where
  text : Text
  ne_nil : text ≠ []
  all : CharSet.digit.All text

@[ext] structure Name where
  first : Char
  more : Text
  first_mem : CharSet.nameStart.contains first = true
  all_more : CharSet.namePart.All more

def Name.text (x : Name) : Text := x.first :: x.more

theorem Name.all (x : Name) : CharSet.namePart.All x.text :=
  CharSet.all_cons.mpr ⟨by rw [CharSet.namePart_contains, x.first_mem, Bool.true_or], x.all_more⟩

@[ext] structure Operator (set : CharSet) where
  symbol : Char
  mem : set.contains symbol = true

inductive Tree : Part → Type
  | integer (digits : Digits) : Tree .factor
  | decimal (whole fraction : Digits) : Tree .factor
  | name (x : Name) : Tree .factor
  | group (inner : Tree .expression) : Tree .factor
  | sign (operand : Tree .factor) : Tree .factor
  | noProducts : Tree .products
  | product (op : Operator .mulOp) (right : Tree .factor) (more : Tree .products) : Tree .products
  | term (first : Tree .factor) (more : Tree .products) : Tree .term
  | noSums : Tree .sums
  | sum (op : Operator .addOp) (right : Tree .term) (more : Tree .sums) : Tree .sums
  | expression (first : Tree .term) (more : Tree .sums) : Tree .expression

/-- A token without its place. -/
structure Terminal where
  kind : TokenKind
  text : Text
  deriving DecidableEq, Repr

namespace Terminal

def opening : Terminal := ⟨.openParen, ['(']⟩

def closing : Terminal := ⟨.closeParen, [')']⟩

def minus : Terminal := ⟨.minus, ['-']⟩

def dot : Terminal := ⟨.dot, ['.']⟩

end Terminal

/-- What a token is, wherever it stands. -/
def Token.terminal (t : Token) : Terminal := ⟨t.kind, t.text⟩

namespace Tree
variable {p : Part}

def terminals : {p : Part} → Tree p → List Terminal
  | _, integer digits => [⟨.integer, digits.text⟩]
  | _, decimal whole fraction => [⟨.integer, whole.text⟩, .dot, ⟨.fraction, fraction.text⟩]
  | _, name x => [⟨.identifier, x.text⟩]
  | _, group inner => .opening :: inner.terminals ++ [.closing]
  | _, sign operand => .minus :: operand.terminals
  | _, noProducts => []
  | _, product op right more => ⟨.mulOp, [op.symbol]⟩ :: right.terminals ++ more.terminals
  | _, term first more => first.terminals ++ more.terminals
  | _, noSums => []
  | _, sum op right more => ⟨.addOp, [op.symbol]⟩ :: right.terminals ++ more.terminals
  | _, expression first more => first.terminals ++ more.terminals

/-- The most groups and signs on a path from the root to a leaf. -/
def nesting : {p : Part} → Tree p → Nat
  | _, group inner => inner.nesting + 1
  | _, sign operand => operand.nesting + 1
  | _, product _ right more => max right.nesting more.nesting
  | _, term first more => max first.nesting more.nesting
  | _, sum _ right more => max right.nesting more.nesting
  | _, expression first more => max first.nesting more.nesting
  | _, _ => 0

theorem terminals_factor_ne_nil (T : Tree .factor) : T.terminals ≠ [] := by
  cases T <;> simp [terminals]

theorem terminals_term_ne_nil (T : Tree .term) : T.terminals ≠ [] := by
  cases T with
  | term first more => simp [terminals, first.terminals_factor_ne_nil]

theorem terminals_expression_ne_nil (T : Tree .expression) : T.terminals ≠ [] := by
  cases T with
  | expression first more => simp [terminals, first.terminals_term_ne_nil]

end Tree

namespace Part

/-- The kinds that would go on with a part, or with a literal at its end. -/
def goesOnWith : Part → TokenKind → Bool
  | factor, kind => kind = .dot
  | products, kind | term, kind => kind = .dot ∨ kind = .mulOp
  | sums, kind | expression, kind => kind = .dot ∨ kind = .mulOp ∨ kind = .addOp

/-- The part ends where these terminals begin. -/
def EndsAt (p : Part) (ts : List Terminal) : Prop :=
  ∀ t ∈ ts.head?, p.goesOnWith t.kind = false

@[simp] theorem endsAt_nil (p : Part) : p.EndsAt [] := by simp [EndsAt]

@[simp] theorem endsAt_cons {p : Part} {t : Terminal} {ts : List Terminal} :
    p.EndsAt (t :: ts) ↔ p.goesOnWith t.kind = false := by simp [EndsAt]

theorem EndsAt.mono {p q : Part} {ts : List Terminal} (h : p.EndsAt ts)
    (hpq : ∀ kind, p.goesOnWith kind = false → q.goesOnWith kind = false) : q.EndsAt ts :=
  fun t ht => hpq _ (h t ht)

end Part

namespace Tree
open ArithGrammar.Part
variable {ts us : List Terminal}

theorem endsAt_products (more : Tree .products) (h : EndsAt .products ts) :
    EndsAt .factor (more.terminals ++ ts) := by
  cases more with
  | noProducts => exact h.mono fun kind => by cases kind <;> decide
  | product => exact endsAt_cons.mpr rfl

theorem endsAt_sums (more : Tree .sums) (h : EndsAt .sums ts) :
    EndsAt .term (more.terminals ++ ts) := by
  cases more with
  | noSums => exact h.mono fun kind => by cases kind <;> decide
  | sum => exact endsAt_cons.mpr rfl

/-- The terminals of a tree tell the tree, and also where it ends within a longer list. -/
theorem eq_of_terminals_append {p : Part} {T U : Tree p} (h : T.terminals ++ ts = U.terminals ++ us)
    (ht : p.EndsAt ts) (hu : p.EndsAt us) : T = U ∧ ts = us := by
  induction T generalizing ts us with
  | integer digits =>
      cases U with
      | integer digits' =>
          simp only [terminals, List.singleton_append, List.cons.injEq, Terminal.mk.injEq,
            true_and] at h
          exact ⟨congrArg integer (Digits.ext h.1), h.2⟩
      | decimal whole fraction =>
          simp only [terminals, List.cons_append, List.nil_append, List.cons.injEq] at h
          rw [h.2, endsAt_cons] at ht
          cases ht
      | _ => simp [terminals, Terminal.opening, Terminal.minus] at h
  | decimal whole fraction =>
      cases U with
      | integer digits =>
          simp only [terminals, List.cons_append, List.nil_append, List.cons.injEq] at h
          rw [← h.2, endsAt_cons] at hu
          cases hu
      | decimal whole' fraction' =>
          simp only [terminals, List.cons_append, List.nil_append, List.cons.injEq,
            Terminal.mk.injEq, true_and] at h
          obtain ⟨hw, hf, hs⟩ := h
          exact ⟨congrArg₂ decimal (Digits.ext hw) (Digits.ext hf), hs⟩
      | _ => simp [terminals, Terminal.opening, Terminal.minus] at h
  | name x =>
      cases U with
      | name y =>
          simp only [terminals, Name.text, List.singleton_append, List.cons.injEq,
            Terminal.mk.injEq, true_and] at h
          exact ⟨congrArg name (Name.ext h.1.1 h.1.2), h.2⟩
      | _ => simp [terminals, Terminal.opening, Terminal.minus] at h
  | group inner ih =>
      cases U with
      | group inner' =>
          simp only [terminals, List.cons_append, List.append_assoc, List.cons.injEq,
            true_and] at h
          obtain ⟨rfl, hrest⟩ := ih h (endsAt_cons.mpr rfl) (endsAt_cons.mpr rfl)
          exact ⟨rfl, by simpa using hrest⟩
      | _ => simp [terminals, Terminal.opening, Terminal.minus] at h
  | sign operand ih =>
      cases U with
      | sign operand' =>
          simp only [terminals, List.cons_append, List.cons.injEq, true_and] at h
          obtain ⟨rfl, hrest⟩ := ih h ht hu
          exact ⟨rfl, hrest⟩
      | _ => simp [terminals, Terminal.opening, Terminal.minus] at h
  | noProducts =>
      cases U with
      | noProducts => exact ⟨rfl, h⟩
      | product op right more =>
          simp only [terminals, List.nil_append, List.cons_append] at h
          rw [h, endsAt_cons] at ht
          cases ht
  | product op right more ihr ihm =>
      cases U with
      | noProducts =>
          simp only [terminals, List.nil_append, List.cons_append] at h
          rw [← h, endsAt_cons] at hu
          cases hu
      | product op' right' more' =>
          simp only [terminals, List.cons_append, List.append_assoc, List.cons.injEq,
            Terminal.mk.injEq, true_and, and_true] at h
          obtain ⟨rfl, hrest⟩ := ihr h.2 (endsAt_products more ht) (endsAt_products more' hu)
          obtain ⟨rfl, hs⟩ := ihm hrest ht hu
          exact ⟨by rw [Operator.ext h.1], hs⟩
  | term first more ihf ihm =>
      cases U with
      | term first' more' =>
          simp only [terminals, List.append_assoc] at h
          obtain ⟨rfl, hrest⟩ := ihf h (endsAt_products more ht) (endsAt_products more' hu)
          obtain ⟨rfl, hs⟩ := ihm hrest ht hu
          exact ⟨rfl, hs⟩
  | noSums =>
      cases U with
      | noSums => exact ⟨rfl, h⟩
      | sum op right more =>
          simp only [terminals, List.nil_append, List.cons_append] at h
          rw [h, endsAt_cons] at ht
          cases ht
  | sum op right more ihr ihm =>
      cases U with
      | noSums =>
          simp only [terminals, List.nil_append, List.cons_append] at h
          rw [← h, endsAt_cons] at hu
          cases hu
      | sum op' right' more' =>
          simp only [terminals, List.cons_append, List.append_assoc, List.cons.injEq,
            Terminal.mk.injEq, true_and, and_true] at h
          obtain ⟨rfl, hrest⟩ := ihr h.2 (endsAt_sums more ht) (endsAt_sums more' hu)
          obtain ⟨rfl, hs⟩ := ihm hrest ht hu
          exact ⟨by rw [Operator.ext h.1], hs⟩
  | expression first more ihf ihm =>
      cases U with
      | expression first' more' =>
          simp only [terminals, List.append_assoc] at h
          obtain ⟨rfl, hrest⟩ := ihf h (endsAt_sums more ht) (endsAt_sums more' hu)
          obtain ⟨rfl, hs⟩ := ihm hrest ht hu
          exact ⟨rfl, hs⟩

theorem terminals_injective {p : Part} {T U : Tree p} (h : T.terminals = U.terminals) : T = U :=
  (eq_of_terminals_append (by rw [h]) (endsAt_nil p) (endsAt_nil p)).1

end Tree

end ArithGrammar
