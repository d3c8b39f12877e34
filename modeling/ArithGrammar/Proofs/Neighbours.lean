import ArithGrammar.Proofs.Grammar
import ArithGrammar.Proofs.Layout
import Mathlib.Data.List.Chain

/-!
# Terminals side by side

What a tree looks like from its leaves. Each terminal is made of the characters of its kind
(`Tree.formed_of_mem_terminals`), what may stand beside it depends on the two kinds alone
(`Tree.ordered`), and as many groups are closed as are opened
(`Tree.countP_openParen_eq_closeParen`). Two terminals side by side never are the parentheses of
an empty group.
-/
namespace ArithGrammar

namespace TokenKind

/-- The set that the characters of a terminal of the kind are from. -/
def charSet : TokenKind → CharSet
  | addOp => .addOp
  | mulOp => .mulOp
  | minus => .minus
  | integer | fraction => .digit
  | dot => .dot
  | identifier => .namePart
  | openParen => .openParen
  | closeParen => .closeParen

def startsOperand : TokenKind → Bool
  | integer | identifier | openParen | minus => true
  | _ => false

def endsOperand : TokenKind → Bool
  | integer | fraction | identifier | closeParen => true
  | _ => false

def awaitsOperand : TokenKind → Bool
  | addOp | mulOp | minus | openParen => true
  | _ => false

/-- Whether a terminal of the kind may stand behind a whole factor. -/
def followsOperand : TokenKind → Bool
  | addOp | mulOp | closeParen => true
  | _ => false

/-- Whether the second kind may stand right behind the first. -/
def precedes : TokenKind → TokenKind → Bool
  | integer, kind => kind = dot ∨ kind.followsOperand
  | dot, kind => kind = fraction
  | fraction, kind | identifier, kind | closeParen, kind => kind.followsOperand
  | addOp, kind | mulOp, kind | minus, kind | openParen, kind => kind.startsOperand

theorem charSet_ne_blank (kind : TokenKind) : kind.charSet ≠ .blank := by
  cases kind <;> decide

theorem eq_openParen {kind : TokenKind} (h : kind.charSet.contains '(' = true) :
    kind = openParen := by
  cases kind with
  | openParen => rfl
  | _ => exact absurd h (by decide)

theorem eq_closeParen {kind : TokenKind} (h : kind.charSet.contains ')' = true) :
    kind = closeParen := by
  cases kind with
  | closeParen => rfl
  | _ => exact absurd h (by decide)

theorem precedes_of_endsOperand {a b : TokenKind} (ha : a.endsOperand = true)
    (hb : b.followsOperand = true) : a.precedes b = true := by
  cases a <;> cases ha <;> cases b <;> cases hb <;> rfl

theorem not_precedes_of_endsOperand {a b : TokenKind} (ha : a.endsOperand = true)
    (hb : b.startsOperand = true) : a.precedes b = false := by
  cases a <;> cases ha <;> cases b <;> cases hb <;> rfl

/-- What may stand behind a whole factor stands nowhere else. -/
theorem endsOperand_of_precedes {a b : TokenKind} (hb : b.followsOperand = true)
    (h : a.precedes b = true) : a.endsOperand = true := by
  cases a <;> cases b <;> cases hb <;> cases h <;> rfl

/-- A factor begins only behind a terminal that asks for one. -/
theorem awaitsOperand_of_precedes {a b : TokenKind} (hb : b.startsOperand = true)
    (h : a.precedes b = true) : a.awaitsOperand = true := by
  cases a <;> cases b <;> cases hb <;> cases h <;> rfl

theorem eq_integer_of_precedes_dot {a : TokenKind} (h : a.precedes dot = true) : a = integer := by
  cases a with
  | integer => rfl
  | _ => cases h

theorem eq_dot_of_precedes_fraction {a : TokenKind} (h : a.precedes fraction = true) : a = dot := by
  cases a with
  | dot => rfl
  | _ => cases h

end TokenKind

namespace Part
variable {kind : TokenKind}

/-- Whether a part may begin with a terminal of the kind. -/
def startsWith : Part → TokenKind → Bool
  | products, kind => kind = .mulOp
  | sums, kind => kind = .addOp
  | expression, kind | term, kind | factor, kind => kind.startsOperand

theorem followsOperand_of_products (h : products.startsWith kind = true) :
    kind.followsOperand = true := by
  obtain rfl : kind = .mulOp := of_decide_eq_true h
  rfl

theorem followsOperand_of_sums (h : sums.startsWith kind = true) :
    kind.followsOperand = true := by
  obtain rfl : kind = .addOp := of_decide_eq_true h
  rfl

end Part

namespace Terminal
variable {starts starts' : TokenKind → Bool} {x : Terminal} {xs ys : List Terminal}

def Precedes (x y : Terminal) : Prop := x.kind.precedes y.kind = true

/-- The terminals begin with a kind of the given ones and end a factor, and any two side by side
may stand so. -/
structure Ordered (starts : TokenKind → Bool) (xs : List Terminal) : Prop where
  head : ∀ x ∈ xs.head?, starts x.kind = true
  last : ∀ x ∈ xs.getLast?, x.kind.endsOperand = true
  chain : xs.IsChain Precedes

/-- The terminal is made of characters of its kind. -/
structure Formed (x : Terminal) : Prop where
  ne_nil : x.text ≠ []
  all : x.kind.charSet.All x.text

namespace Formed

theorem char {kind : TokenKind} {c : Char} (hc : kind.charSet.contains c = true) :
    Formed ⟨kind, [c]⟩ := ⟨List.cons_ne_nil _ _, by simpa using hc⟩

theorem solid (h : x.Formed) : x.text.Solid := .of_all x.kind.charSet_ne_blank h.ne_nil h.all

theorem closeParen {rest tail : Text} (h : x.Formed) (heq : x.text ++ rest = ')' :: tail) :
    x.kind = .closeParen := by
  obtain ⟨hne, hall⟩ := h
  obtain ⟨c, cs, hcs⟩ := List.exists_cons_of_ne_nil hne
  rw [hcs, List.cons_append, List.cons.injEq] at heq
  rw [hcs, CharSet.all_cons, heq.1] at hall
  exact TokenKind.eq_closeParen hall.1

theorem openParen {rest tail : Text} (h : x.Formed)
    (heq : x.text ++ rest = '(' :: ')' :: tail) : x.kind = .openParen ∧ rest = ')' :: tail := by
  obtain ⟨hne, hall⟩ := h
  obtain ⟨c, cs, hcs⟩ := List.exists_cons_of_ne_nil hne
  rw [hcs, List.cons_append, List.cons.injEq] at heq
  rw [hcs, CharSet.all_cons, heq.1] at hall
  have hkind : x.kind = .openParen := TokenKind.eq_openParen hall.1
  refine ⟨hkind, ?_⟩
  cases cs with
  | nil => exact heq.2
  | cons d ds =>
      rw [hkind, CharSet.all_cons, (List.cons.inj heq.2).1] at hall
      exact absurd hall.2.1 (by decide)

end Formed

namespace Ordered

theorem nil : Ordered starts [] := ⟨by simp, by simp, .nil⟩

theorem singleton (hhead : starts x.kind = true) (hlast : x.kind.endsOperand = true) :
    Ordered starts [x] := ⟨by simpa using hhead, by simpa using hlast, .singleton x⟩

/-- In front stands a terminal that asks for what follows. -/
theorem cons (hhead : starts x.kind = true) (hne : xs ≠ [])
    (hx : ∀ kind, starts' kind = true → x.kind.precedes kind = true) (h : Ordered starts' xs) :
    Ordered starts (x :: xs) := by
  refine ⟨by simpa using hhead, ?_, List.isChain_cons.mpr ⟨fun y hy => hx _ (h.head y hy), h.chain⟩⟩
  intro y hy
  rw [List.getLast?_cons_of_ne_nil hne] at hy
  exact h.last y hy

/-- Behind the end of a factor stands, if anything, what may go on there. -/
theorem append (hne : xs ≠ []) (h : Ordered starts xs)
    (hstarts : ∀ kind, starts' kind = true → kind.followsOperand = true)
    (k : Ordered starts' ys) : Ordered starts (xs ++ ys) := by
  refine ⟨?_, ?_, h.chain.append k.chain fun x hx y hy =>
    TokenKind.precedes_of_endsOperand (h.last x hx) (hstarts _ (k.head y hy))⟩
  · intro x hx
    rw [List.head?_append_of_ne_nil xs hne] at hx
    exact h.head x hx
  · intro x hx
    by_cases hys : ys = []
    · rw [hys, List.append_nil] at hx
      exact h.last x hx
    · rw [List.getLast?_append_of_ne_nil xs hys] at hx
      exact k.last x hx

end Ordered

end Terminal

namespace Tree
variable {p : Part}

theorem ordered (T : Tree p) : Terminal.Ordered p.startsWith T.terminals := by
  have hmul : ∀ kind, Part.products.startsWith kind = true → kind.followsOperand = true :=
    fun _ => Part.followsOperand_of_products
  have hadd : ∀ kind, Part.sums.startsWith kind = true → kind.followsOperand = true :=
    fun _ => Part.followsOperand_of_sums
  induction T with
  | integer digits => exact .singleton rfl rfl
  | decimal whole fraction =>
      have hfraction : Terminal.Ordered (· = .fraction) [⟨.fraction, fraction.text⟩] :=
        .singleton rfl rfl
      have hdot : Terminal.Ordered (· = .dot) (.dot :: [⟨.fraction, fraction.text⟩]) :=
        .cons rfl (by simp) (fun kind hkind => hkind) hfraction
      refine .cons rfl (by simp) (fun kind hkind => ?_) hdot
      obtain rfl : kind = .dot := of_decide_eq_true hkind
      rfl
  | name x => exact .singleton rfl rfl
  | group inner ih =>
      have hclosing : Terminal.Ordered (· = .closeParen) [.closing] := .singleton rfl rfl
      have hinner := ih.append inner.terminals_expression_ne_nil (fun kind hkind => by
        obtain rfl : kind = .closeParen := of_decide_eq_true hkind
        rfl) hclosing
      exact .cons rfl (by simp) (fun kind hkind => hkind) hinner
  | sign operand ih =>
      exact .cons rfl operand.terminals_factor_ne_nil (fun kind hkind => hkind) ih
  | noProducts => exact .nil
  | product op right more ihr ihm =>
      have hright := ihr.append right.terminals_factor_ne_nil hmul ihm
      exact .cons rfl (by simp [right.terminals_factor_ne_nil]) (fun kind hkind => hkind) hright
  | term first more ihf ihm => exact ihf.append first.terminals_factor_ne_nil hmul ihm
  | noSums => exact .nil
  | sum op right more ihr ihm =>
      have hright := ihr.append right.terminals_term_ne_nil hadd ihm
      exact .cons rfl (by simp [right.terminals_term_ne_nil]) (fun kind hkind => hkind) hright
  | expression first more ihf ihm => exact ihf.append first.terminals_term_ne_nil hadd ihm

theorem formed_of_mem_terminals (T : Tree p) : ∀ x ∈ T.terminals, x.Formed := by
  induction T with
  | integer digits => exact List.forall_mem_singleton.mpr ⟨digits.ne_nil, digits.all⟩
  | decimal whole fraction =>
      exact List.forall_mem_cons.mpr ⟨⟨whole.ne_nil, whole.all⟩, List.forall_mem_cons.mpr
        ⟨.char rfl, List.forall_mem_singleton.mpr ⟨fraction.ne_nil, fraction.all⟩⟩⟩
  | name x => exact List.forall_mem_singleton.mpr ⟨List.cons_ne_nil _ _, x.all⟩
  | group inner ih =>
      exact List.forall_mem_append.mpr ⟨List.forall_mem_cons.mpr ⟨.char rfl, ih⟩,
        List.forall_mem_singleton.mpr (.char rfl)⟩
  | sign operand ih => exact List.forall_mem_cons.mpr ⟨.char rfl, ih⟩
  | product op right more ihr ihm =>
      exact List.forall_mem_append.mpr ⟨List.forall_mem_cons.mpr ⟨.char op.mem, ihr⟩, ihm⟩
  | term first more ihf ihm => exact List.forall_mem_append.mpr ⟨ihf, ihm⟩
  | sum op right more ihr ihm =>
      exact List.forall_mem_append.mpr ⟨List.forall_mem_cons.mpr ⟨.char op.mem, ihr⟩, ihm⟩
  | expression first more ihf ihm => exact List.forall_mem_append.mpr ⟨ihf, ihm⟩
  | noProducts | noSums => exact List.forall_mem_nil _

theorem countP_openParen_eq_closeParen (T : Tree p) :
    T.terminals.countP (·.kind = .openParen) = T.terminals.countP (·.kind = .closeParen) := by
  induction T with
  | group inner ih => simp [terminals, Terminal.opening, Terminal.closing, ih]
  | sign operand ih => simp [terminals, Terminal.minus, ih]
  | product op right more ihr ihm => simp [terminals, ihr, ihm]
  | term first more ihf ihm => simp [terminals, ihf, ihm]
  | sum op right more ihr ihm => simp [terminals, ihr, ihm]
  | expression first more ihf ihm => simp [terminals, ihf, ihm]
  | _ => simp [terminals, Terminal.dot]

end Tree

end ArithGrammar
