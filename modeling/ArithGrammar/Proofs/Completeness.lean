import ArithGrammar.Proofs.Neighbours
import ArithGrammar.Proofs.ReadingSteps
import ArithGrammar.Proofs.Spelling
import ArithGrammar.Verdict

/-!
# Trees that are ahead are read

Whatever the grammar derives is read, and as the tree that derives it: on a view on which the
terminals of a tree are ahead, the rule of its part consumes them, token by token, and nothing
else. `Tree.ReadBy` says so of each part for a reader of factors `f`, and there is one lemma for
each way to build a tree. A factor is what is read with room for one group or sign more than its
parts need, so the trees that are read with some room are those that nest no deeper
(`Tree.readBy_factor`).

The loops do not look behind the tree. They go on with what is left, which is why a loop is said to
reach a loop here, and what stops it is asked of the text behind only where a rule ends.
-/
namespace ArithGrammar
open Attempt Reading
open Text (byteLength)

/-- No literal that ends in front of the text goes on in it. -/
def Text.EndsLiteral (s : Text) : Prop := CharSet.namePart.NotAhead s ∧ CharSet.dot.NotAhead s

namespace Text.EndsLiteral
variable {s : Text}

theorem nil : Text.EndsLiteral [] := ⟨CharSet.notAhead_nil, CharSet.notAhead_nil⟩

theorem not_digit (h : s.EndsLiteral) : CharSet.digit.NotAhead s := by
  intro c hc
  have hpart := h.1 c hc
  rw [CharSet.namePart_contains, Bool.or_eq_false_iff] at hpart
  exact hpart.2

theorem of_afterRun (h : Text.EndsLiteral (CharSet.blank.afterRun s)) : s.EndsLiteral := by
  cases s with
  | nil => exact nil
  | cons c cs =>
      cases hc : CharSet.blank.contains c with
      | true =>
          exact ⟨CharSet.notAhead_cons.mpr (CharSet.not_of_blank (by decide) hc),
            CharSet.notAhead_cons.mpr (CharSet.not_of_blank (by decide) hc)⟩
      | false => rwa [CharSet.afterRun_eq_self (CharSet.notAhead_cons.mpr hc)] at h

theorem of_followsOperand {kind : TokenKind} {c : Char} (hkind : kind.followsOperand = true)
    (hc : kind.charSet.contains c = true) : Text.EndsLiteral (c :: s) := by
  have h : c = '+' ∨ c = '-' ∨ c = '*' ∨ c = '/' ∨ c = '%' ∨ c = ')' := by
    cases kind with
    | addOp => rcases of_decide_eq_true hc with rfl | rfl <;> simp
    | mulOp => rcases of_decide_eq_true hc with rfl | rfl | rfl <;> simp
    | closeParen => obtain rfl := of_decide_eq_true hc; simp
    | _ => cases hkind
  rcases h with rfl | rfl | rfl | rfl | rfl | rfl <;>
    exact ⟨CharSet.notAhead_cons.mpr rfl, CharSet.notAhead_cons.mpr rfl⟩

end Text.EndsLiteral

namespace Ahead
variable {v : View} {x : Terminal} {xs : List Terminal} {ts : List Token} {s r : Text} {p : Part}

/-- The text of a view, its blanks in front apart, begins with the first terminal. -/
theorem afterRun_eq (h : Ahead v (x :: xs) ts r) (hv : v.text = .ok s) :
    ∃ rest, CharSet.blank.afterRun s = x.text ++ rest := by
  obtain ⟨us, rest, -, htext, -⟩ := h.cons_inv
  obtain ⟨s', hv', hsolid, -⟩ := h
  rw [hv] at hv'
  obtain rfl := Except.ok.inj hv'
  rw [View.text_trimmed hv, Text.trimmed_of_endsSolid hsolid] at htext
  exact ⟨rest, Except.ok.inj htext⟩

/-- Where a tree is ahead, either it has no terminals or a character that the part begins with
comes next. -/
theorem starts_cases {T : Tree p} (h : Ahead v T.terminals ts r) (hv : v.text = .ok s) :
    s = r ∨ ∃ (kind : TokenKind) (c : Char) (rest : Text), p.startsWith kind = true ∧
      kind.charSet.contains c = true ∧ CharSet.blank.afterRun s = c :: rest := by
  have hformed := T.formed_of_mem_terminals
  have hordered := T.ordered
  cases hT : T.terminals with
  | nil =>
      rw [hT] at h
      exact .inl (h.nil_inv hv).2
  | cons x xs =>
      rw [hT] at h hformed hordered
      obtain ⟨hne, hall⟩ := hformed x (by simp)
      obtain ⟨rest, hrest⟩ := h.afterRun_eq hv
      obtain ⟨c, cs, hcs⟩ := List.exists_cons_of_ne_nil hne
      rw [hcs] at hall hrest
      exact .inr ⟨x.kind, c, cs ++ rest, hordered.head x rfl, hall c (by simp), hrest⟩

theorem endsLiteral {T : Tree p}
    (hp : ∀ kind, p.startsWith kind = true → kind.followsOperand = true)
    (h : Ahead v T.terminals ts r) (hv : v.text = .ok s) (hr : r.EndsLiteral) :
    s.EndsLiteral := by
  obtain rfl | ⟨kind, c, rest, hkind, hc, hrest⟩ := h.starts_cases hv
  · exact hr
  · have hbehind : Text.EndsLiteral (c :: rest) := .of_followsOperand (hp kind hkind) hc
    exact .of_afterRun (hrest ▸ hbehind)

/-- No product comes next where sums are ahead, unless one comes behind them. -/
theorem not_mulOp {T : Tree .sums} (h : Ahead v T.terminals ts r) (hv : v.text = .ok s)
    (hr : CharSet.mulOp.NotAhead (CharSet.blank.afterRun r)) :
    CharSet.mulOp.NotAhead (CharSet.blank.afterRun s) := by
  obtain rfl | ⟨kind, c, rest, hkind, hc, hrest⟩ := h.starts_cases hv
  · exact hr
  · obtain rfl : kind = .addOp := of_decide_eq_true hkind
    rw [hrest, CharSet.notAhead_cons]
    rcases of_decide_eq_true hc with rfl | rfl <;> rfl

theorem not_emptyGroup {T : Tree .term} (h : Ahead v T.terminals ts r) (hv : v.text = .ok s) :
    ¬ ['(', ')'] <+: s.trimmed := by
  rintro ⟨tail, htail⟩
  have hformed := T.formed_of_mem_terminals
  have hordered := T.ordered
  obtain ⟨x, xs, hxs⟩ := List.exists_cons_of_ne_nil T.terminals_term_ne_nil
  rw [hxs] at h hformed hordered
  obtain ⟨us, rest, -, htext, hbehind, hrest, -⟩ := h.cons_inv
  have hx : x.text ++ rest = '(' :: ')' :: tail :=
    Except.ok.inj (htext.symm.trans ((View.text_trimmed hv).trans (congrArg _ htail.symm)))
  obtain ⟨hopen, rfl⟩ := (hformed x (by simp)).openParen hx
  cases xs with
  | nil =>
      have hlast : x.kind.endsOperand = true := hordered.last x rfl
      rw [hopen] at hlast
      cases hlast
  | cons y ys =>
      obtain ⟨rest, hy⟩ := hrest.afterRun_eq hbehind
      rw [CharSet.afterRun_eq_self (CharSet.notAhead_cons.mpr rfl)] at hy
      have hclose := (hformed y (by simp)).closeParen hy.symm
      have hpair : x.kind.precedes y.kind = true := (List.isChain_cons_cons.mp hordered.chain).1
      rw [hopen, hclose] at hpair
      cases hpair

end Ahead

theorem fuel_of_cons {v : View} {c : Char} {s : Text} {n : Nat} (h : v.text = .ok (c :: s))
    (hn : v.length ≤ n) : ∃ k, n = k + 1 ∧ (v.back s).length ≤ k := by
  have hc := c.utf8Size_pos
  rw [View.length_eq h, Text.byteLength_cons] at hn
  obtain ⟨k, rfl⟩ : ∃ k, n = k + 1 := ⟨n - 1, by omega⟩
  refine ⟨k, rfl, ?_⟩
  rw [View.length_eq (View.text_back_cons h)]
  omega

/-- Where the tree is ahead, its part consumes the tree, with `f` as the reader of factors. -/
def Tree.ReadBy (f : View → Attempt View) : {p : Part} → Tree p → Prop
  | .factor, T => ∀ ⦃v : View⦄ ⦃ts : List Token⦄ ⦃r : Text⦄, Ahead v T.terminals ts r →
      r.EndsLiteral → (f v.trimmed).Reads ts (pure (v.back r))
  | .products, T => ∀ ⦃v : View⦄ ⦃ts : List Token⦄ ⦃r : Text⦄ ⦃n : Nat⦄,
      Ahead v T.terminals ts r → r.EndsLiteral → v.trimmed.length ≤ n →
      ∃ m, (v.back r).trimmed.length ≤ m ∧
        (products f n v.trimmed).Reads ts (products f m (v.back r).trimmed)
  | .term, T => ∀ ⦃v : View⦄ ⦃ts : List Token⦄ ⦃r : Text⦄, Ahead v T.terminals ts r →
      r.EndsLiteral → ∃ m, (v.back r).trimmed.length ≤ m ∧
        (Reading.term f v.trimmed).Reads ts (products f m (v.back r).trimmed)
  | .sums, T => ∀ ⦃v : View⦄ ⦃ts : List Token⦄ ⦃r : Text⦄ ⦃n : Nat⦄,
      Ahead v T.terminals ts r → r.EndsLiteral →
      CharSet.mulOp.NotAhead (CharSet.blank.afterRun r) → v.trimmed.length ≤ n →
      ∃ m, (v.back r).trimmed.length ≤ m ∧
        (sums f n v.trimmed).Reads ts (sums f m (v.back r).trimmed)
  | .expression, T => ∀ ⦃v : View⦄ ⦃ts : List Token⦄ ⦃s gap : Text⦄, v.text = .ok (s ++ gap) →
      gap.Blank → Spelled T.terminals v.start ts s →
      (Reading.expression f v).Reads ts (pure ())

namespace Tree.ReadBy
variable {f g h : View → Attempt View}

theorem integer (digits : Digits) : (Tree.integer digits).ReadBy (operand g h) := by
  intro v ts r hahead hr
  obtain ⟨us, rest, rfl, htext, hbehind, hrest, hback, -⟩ := hahead.cons_inv
  obtain ⟨rfl, rfl⟩ := hrest.nil_inv hbehind
  rw [← hback]
  exact (reads_operand_digits htext digits.ne_nil digits.all).trans
    (reads_integer htext digits.ne_nil digits.all hr.not_digit
      (Literal.decimal?_eq_none digits.all hr.not_digit hr.2))

theorem decimal (whole fraction : Digits) :
    (Tree.decimal whole fraction).ReadBy (operand g h) := by
  intro v ts r hahead hr
  obtain ⟨us, rest, rfl, htext, hbehind, hrest, hback, -⟩ := hahead.cons_inv
  obtain ⟨us, rest₂, rfl, htext₂, hbehind₂, hrest₂, -, hjoined⟩ := hrest.cons_inv
  rw [hjoined rfl] at htext₂ hbehind₂ hrest₂ ⊢
  obtain rfl : rest = '.' :: rest₂ := Except.ok.inj (hbehind.symm.trans htext₂)
  obtain ⟨us, rest₃, rfl, htext₃, hbehind₃, hrest₃, -, hjoined⟩ := hrest₂.cons_inv
  rw [hjoined rfl] at htext₃ hbehind₃ hrest₃ ⊢
  obtain rfl : rest₂ = fraction.text ++ rest₃ := Except.ok.inj (hbehind₂.symm.trans htext₃)
  obtain ⟨rfl, rfl⟩ := hrest₃.nil_inv hbehind₃
  have hdot := View.start_back_cons hbehind
  rw [hdot, View.start_back htext, ← hback]
  have hnumber := reads_decimal (v := v.trimmed) (by simpa using htext) whole.all fraction.ne_nil
    fraction.all hr.not_digit
  exact (reads_operand_digits htext whole.ne_nil whole.all).trans hnumber

theorem name (x : Name) : (Tree.name x).ReadBy (operand g h) := by
  intro v ts r hahead hr
  obtain ⟨us, rest, rfl, htext, hbehind, hrest, hback, -⟩ := hahead.cons_inv
  obtain ⟨rfl, rfl⟩ := hrest.nil_inv hbehind
  rw [← hback]
  exact (reads_operand_nameStart htext x.first_mem).trans
    (reads_name htext x.first_mem x.all_more hr.1)

/-- A group is closed by the parenthesis that matches, since what it encloses is balanced. -/
theorem group {inner : Tree .expression} (hinner : inner.ReadBy f) :
    (Tree.group inner).ReadBy (operand (Reading.group f) h) := by
  intro v ts r hahead hr
  obtain ⟨us, rest, rfl, htext, hbehind, ⟨s, hs, hsolid, hspelled⟩, hback, -⟩ := hahead.cons_inv
  obtain ⟨ts₁, ts₂, s₁, s₂, rfl, rfl, h₁, h₂⟩ := hspelled.append_inv
  obtain ⟨gap, rest₂, us, rfl, rfl, hgap, -, -, hnil⟩ := h₂.cons_inv
  obtain ⟨rfl, rfl⟩ := hnil.nil_inv
  obtain rfl : rest = (s₁ ++ gap) ++ ')' :: r := by
    simpa [Terminal.closing] using Except.ok.inj (hbehind.symm.trans hs)
  have hbalanced : Balanced (s₁ ++ gap) := .append (inner.balanced h₁) (.of_blank hgap)
  have hexpression := hinner (View.text_splitAt_fst hbehind) hgap h₁
  have hclose := reads_char (View.text_back hbehind) rfl .closeParen
  rw [View.start_back hbehind, Text.byteLength_append, ← Nat.add_assoc] at hclose
  have hgroup := (reads_group (f := f) htext (Literal.closing?_append hbalanced r)).trans
    (hexpression.andThen hclose)
  rw [← hback]
  exact (reads_operand_open htext).trans hgroup

theorem sign {inner : Tree .factor} (hinner : inner.ReadBy f) :
    (Tree.sign inner).ReadBy (operand g (Reading.sign f)) := by
  intro v ts r hahead hr
  obtain ⟨us, rest, rfl, htext, hbehind, hrest, hback, -⟩ := hahead.cons_inv
  rw [← hback]
  exact (reads_operand_minus htext).trans ((reads_sign htext).trans (hinner hrest hr))

theorem noProducts : Tree.noProducts.ReadBy f := by
  intro v ts r n hahead hr hn
  obtain ⟨s, hv, -, -⟩ := id hahead
  obtain ⟨rfl, -⟩ := hahead.nil_inv hv
  rw [hahead.back_eq]
  exact ⟨n, hn, .refl _⟩

theorem product (op : Operator .mulOp) {right : Tree .factor} {more : Tree .products}
    (hright : right.ReadBy f) (hmore : more.ReadBy f) : (Tree.product op right more).ReadBy f := by
  intro v ts r n hahead hr hn
  obtain ⟨us, rest, rfl, htext, hbehind, hrest, hback, -⟩ := hahead.cons_inv
  obtain ⟨ts₁, ts₂, r₁, rfl, h₁, h₂⟩ := hrest.append_inv
  have hends := h₂.endsLiteral (fun _ => Part.followsOperand_of_products) h₁.text_back hr
  have hfactor := hright h₁ hends
  obtain ⟨k, rfl, hk⟩ := fuel_of_cons htext hn
  obtain ⟨m, hm, hloop⟩ := hmore h₂ hr (((View.length_trimmed_le h₁.text_back).trans
    h₁.length_back_le).trans hk)
  rw [← hback]
  refine ⟨m, hm, (reads_products htext op.mem).trans (hfactor.andThen ?_)⟩
  rw [trim_eq_pure h₁.text_back, pure_bind]
  exact hloop

theorem term {first : Tree .factor} {more : Tree .products} (hfirst : first.ReadBy f)
    (hmore : more.ReadBy f) : (Tree.term first more).ReadBy f := by
  intro v ts r hahead hr
  obtain ⟨ts₁, ts₂, r₁, rfl, h₁, h₂⟩ := hahead.append_inv
  have hends := h₂.endsLiteral (fun _ => Part.followsOperand_of_products) h₁.text_back hr
  have hfactor := hfirst h₁ hends
  obtain ⟨m, hm, hloop⟩ := hmore h₂ hr le_rfl
  refine ⟨m, hm, (reads_term f v.trimmed).trans (hfactor.andThen ?_)⟩
  rw [trim_eq_pure h₁.text_back, pure_bind]
  exact hloop

theorem term_of_not_mulOp {T : Tree .term} (hT : T.ReadBy f) {v : View} {ts : List Token}
    {r : Text} (hahead : Ahead v T.terminals ts r) (hr : r.EndsLiteral)
    (hmul : CharSet.mulOp.NotAhead (CharSet.blank.afterRun r)) :
    (Reading.term f v.trimmed).Reads ts (pure (v.back r).trimmed) := by
  obtain ⟨m, -, hterm⟩ := hT hahead hr
  have htext := View.text_trimmed hahead.text_back
  rw [Text.trimmed_of_endsSolid hahead.endsSolid] at htext
  rwa [products_of_notAhead htext hmul] at hterm

theorem noSums : Tree.noSums.ReadBy f := by
  intro v ts r n hahead hr hmul hn
  obtain ⟨s, hv, -, -⟩ := id hahead
  obtain ⟨rfl, -⟩ := hahead.nil_inv hv
  rw [hahead.back_eq]
  exact ⟨n, hn, .refl _⟩

theorem sum (op : Operator .addOp) {right : Tree .term} {more : Tree .sums}
    (hright : right.ReadBy f) (hmore : more.ReadBy f) : (Tree.sum op right more).ReadBy f := by
  intro v ts r n hahead hr hmul hn
  obtain ⟨us, rest, rfl, htext, hbehind, hrest, hback, -⟩ := hahead.cons_inv
  obtain ⟨ts₁, ts₂, r₁, rfl, h₁, h₂⟩ := hrest.append_inv
  have hends := h₂.endsLiteral (fun _ => Part.followsOperand_of_sums) h₁.text_back hr
  have hterm := term_of_not_mulOp hright h₁ hends (h₂.not_mulOp h₁.text_back hmul)
  obtain ⟨k, rfl, hk⟩ := fuel_of_cons htext hn
  obtain ⟨m, hm, hloop⟩ := hmore h₂ hr hmul (((View.length_trimmed_le h₁.text_back).trans
    h₁.length_back_le).trans hk)
  rw [← hback]
  exact ⟨m, hm, (reads_sums htext op.mem (h₁.not_emptyGroup hbehind)).trans (hterm.andThen hloop)⟩

theorem expression {first : Tree .term} {more : Tree .sums} (hfirst : first.ReadBy f)
    (hmore : more.ReadBy f) : (Tree.expression first more).ReadBy f := by
  intro v ts s gap hv hgap hs
  have hahead := Ahead.of_trimmed hv hgap hs (Tree.terminals_expression_ne_nil _)
  obtain ⟨ts₁, ts₂, r₁, rfl, h₁, h₂⟩ := hahead.append_inv
  have hmul : CharSet.mulOp.NotAhead (CharSet.blank.afterRun []) := CharSet.notAhead_nil
  have hends := h₂.endsLiteral (fun _ => Part.followsOperand_of_sums) h₁.text_back .nil
  have hterm := term_of_not_mulOp hfirst h₁ hends (h₂.not_mulOp h₁.text_back hmul)
  rw [View.trimmed_trimmed hv] at hterm
  obtain ⟨m, -, hloop⟩ := hmore h₂ .nil hmul le_rfl
  have hend := View.text_trimmed h₂.text_back
  rw [sums_of_notAhead hend CharSet.notAhead_nil] at hloop
  refine (reads_expression hv).trans (hterm.andThen ?_)
  have hempty := hloop.bind_pure (f := fun w => if w.isEmpty then pure () else fail .mismatch)
  rwa [if_pos ((View.isEmpty_iff hend).mpr rfl)] at hempty

end Tree.ReadBy

namespace Tree
variable {limit room : Nat} {ts : List Token} {s behind : Text}

/-- A tree is read where its groups and signs have room. -/
theorem readBy_factor {p : Part} (T : Tree p) (limit : Nat) (h : T.nesting ≤ room) :
    T.ReadBy (factor limit room) := by
  induction T generalizing room with
  | integer digits => cases room <;> exact .integer digits
  | decimal whole fraction => cases room <;> exact .decimal whole fraction
  | name x => cases room <;> exact .name x
  | group inner ih =>
      cases room with
      | zero => exact absurd h (Nat.not_succ_le_zero _)
      | succ room => exact .group (ih (Nat.le_of_succ_le_succ h))
  | sign operand ih =>
      cases room with
      | zero => exact absurd h (Nat.not_succ_le_zero _)
      | succ room => exact .sign (ih (Nat.le_of_succ_le_succ h))
  | noProducts => exact .noProducts
  | product op right more ihr ihm =>
      obtain ⟨hright, hmore⟩ := Nat.max_le.mp h
      exact .product op (ihr hright) (ihm hmore)
  | term first more ihf ihm =>
      obtain ⟨hfirst, hmore⟩ := Nat.max_le.mp h
      exact .term (ihf hfirst) (ihm hmore)
  | noSums => exact .noSums
  | sum op right more ihr ihm =>
      obtain ⟨hright, hmore⟩ := Nat.max_le.mp h
      exact .sum op (ihr hright) (ihm hmore)
  | expression first more ihf ihm =>
      obtain ⟨hfirst, hmore⟩ := Nat.max_le.mp h
      exact .expression (ihf hfirst) (ihm hmore)

/-- A text that spells a tree, blanks around it, is read as the tree. -/
theorem reads_whole (T : Tree .expression) (limit : Nat) (hT : T.nesting ≤ room)
    (hs : Spelled T.terminals 0 ts s) (hbehind : behind.Blank) :
    (Reading.expression (factor limit room) (View.whole (s ++ behind)).trimmed).Reads ts
      (pure ()) := by
  obtain ⟨t, ht, -, hspelled⟩ := Ahead.of_trimmed (View.text_whole (s ++ behind)) hbehind hs
    T.terminals_expression_ne_nil
  exact T.readBy_factor limit hT ht CharSet.all_nil hspelled

theorem reads_recognize (T : Tree .expression) {limit : NestingLimit}
    (hT : T.nesting ≤ limit.levels) (hs : Spelled T.terminals 0 ts s) (hbehind : behind.Blank) :
    (recognize limit (s ++ behind)).Reads ts (pure ()) := by
  have htext := View.text_whole (s ++ behind)
  rw [recognize, trim_eq_pure htext, pure_bind]
  exact T.reads_whole limit.levels hT hs hbehind

end Tree

end ArithGrammar
