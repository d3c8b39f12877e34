import ArithGrammar.Proofs.Parentheses
import ArithGrammar.Proofs.ReadingSteps

/-!
# Views of the same text elsewhere

What is read from a view depends on the text of the view alone. Where the same text stands `k`
bytes further on, perhaps in another text altogether, the same tokens are read with spans `k` bytes
further on, and the attempt ends in the same way (`Attempt.Relocated`). A view without text has no
place: nothing is read from it, so its offsets may be anything.
-/
namespace ArithGrammar
open Text (byteLength)

/-- The token at a place `k` bytes further on. -/
def Token.shift (k : Nat) (t : Token) : Token :=
  { t with span := ⟨t.span.start + k, t.span.stop + k⟩ }

namespace Token

@[simp] theorem shift_placed (k start : Nat) (kind : TokenKind) (s : Text) :
    (placed start kind s).shift k = placed (start + k) kind s := by
  simp only [placed, shift, Nat.add_right_comm]

theorem map_shift_shift (k l : Nat) (ts : List Token) :
    (ts.map (shift k)).map (shift l) = ts.map (shift (k + l)) := by
  simp [shift, Function.comp_def, Nat.add_assoc]

end Token

/-- Both views have the same text, which begins `k` bytes further on in the second. -/
def View.Relocated (k : Nat) (v w : View) : Prop :=
  ∃ s, v.text = .ok s ∧ w.text = .ok s ∧ (s ≠ [] → w.start = v.start + k)

namespace View.Relocated
variable {k : Nat} {v w : View} {s t r : Text}

theorem start_eq (h : v.Relocated k w) (hv : v.text = .ok s) (hs : s ≠ []) :
    w.start = v.start + k := by
  obtain ⟨s', hv', -, hstart⟩ := h
  obtain rfl : s = s' := Except.ok.inj (hv.symm.trans hv')
  exact hstart hs

theorem text_eq (h : v.Relocated k w) (hv : v.text = .ok s) : w.text = .ok s := by
  obtain ⟨s', hv', hw, -⟩ := h
  rw [← hv, hv']
  exact hw

theorem back (h : v.Relocated k w) (hv : v.text = .ok (t ++ r)) :
    (v.back r).Relocated k (w.back r) := by
  have hw := h.text_eq hv
  refine ⟨r, View.text_back hv, View.text_back hw, fun hr => ?_⟩
  rw [View.start_back hv, View.start_back hw, h.start_eq hv (by simp [hr])]
  omega

theorem back_cons {c : Char} (h : v.Relocated k w) (hv : v.text = .ok (c :: s)) :
    (v.back s).Relocated k (w.back s) := h.back (t := [c]) hv

theorem splitAt_fst (h : v.Relocated k w) (hv : v.text = .ok (t ++ r)) :
    (v.splitAt (byteLength t)).1.Relocated k (w.splitAt (byteLength t)).1 := by
  have hw := h.text_eq hv
  refine ⟨t, View.text_splitAt_fst hv, View.text_splitAt_fst hw, fun ht => ?_⟩
  rw [View.start_splitAt_fst, View.start_splitAt_fst, h.start_eq hv (by simp [ht])]

theorem trimmed (h : v.Relocated k w) (hv : v.text = .ok s) :
    v.trimmed.Relocated k w.trimmed := by
  have hw := h.text_eq hv
  refine ⟨s.trimmed, View.text_trimmed hv, View.text_trimmed hw, fun hs => ?_⟩
  have hne : s ≠ [] := by
    rintro rfl
    exact hs rfl
  rw [View.start_trimmed hv, View.start_trimmed hw, h.start_eq hv hne]
  omega

end View.Relocated

namespace Attempt
variable {α β γ δ : Type}

/-- The second attempt reads the tokens of the first `k` bytes further on and ends like it, with
values that are related if they succeed. -/
structure Relocated (k : Nat) (V : α → β → Prop) (x : Attempt α) (y : Attempt β) : Prop where
  tokens : y.tokens = x.tokens.map (Token.shift k)
  outcome : match x.outcome, y.outcome with
    | .ok a, .ok b => V a b
    | .error failure, .error failure' => failure = failure'
    | _, _ => False

namespace Relocated
variable {k : Nat} {V : α → β → Prop} {W : γ → δ → Prop} {x x' : Attempt α} {y y' : Attempt β}
  {f : α → Attempt γ} {g : β → Attempt δ} {ts us : List Token} {a : α} {b : β}

theorem pure (h : V a b) : (pure a : Attempt α).Relocated k V (pure b : Attempt β) := ⟨rfl, h⟩

theorem fail (failure : Failure) :
    (fail failure : Attempt α).Relocated k V (fail failure : Attempt β) := ⟨rfl, rfl⟩

theorem of_reads (hx : x.Reads ts x') (hy : y.Reads us y') (hts : us = ts.map (Token.shift k))
    (h : x'.Relocated k V y') : x.Relocated k V y := by
  refine ⟨?_, ?_⟩
  · rw [hx.tokens, hy.tokens, h.tokens, hts, List.map_append]
  · rw [hx.outcome, hy.outcome]
    exact h.outcome

theorem bind (h : x.Relocated k V y) (hfg : ∀ a b, V a b → (f a).Relocated k W (g b)) :
    (x >>= f).Relocated k W (y >>= g) := by
  obtain ⟨xs, trace, failure | a⟩ := x <;> obtain ⟨ys, trace', failure' | b⟩ := y <;>
    obtain ⟨htokens, houtcome⟩ := h
  · exact ⟨htokens, houtcome⟩
  · exact houtcome.elim
  · exact houtcome.elim
  · obtain ⟨htokens', houtcome'⟩ := hfg a b houtcome
    refine ⟨?_, houtcome'⟩
    rw [ok_bind, ok_bind, List.map_append, ← htokens, ← htokens']

theorem outcome_eq {x y : Attempt Unit} (h : x.Relocated k (fun _ _ => True) y) :
    y.outcome = x.outcome := by
  have houtcome := h.outcome
  cases hx : x.outcome with
  | error failure =>
      cases hy : y.outcome with
      | error failure' =>
          rw [hx, hy] at houtcome
          rw [houtcome]
      | ok u =>
          rw [hx, hy] at houtcome
          exact houtcome.elim
  | ok u =>
      cases hy : y.outcome with
      | error failure =>
          rw [hx, hy] at houtcome
          exact houtcome.elim
      | ok u' => rfl

end Relocated

end Attempt

namespace Reading
open Attempt
variable {k n : Nat} {v w : View} {s t r : Text} {c : Char} {f g : View → Attempt View}
  {x y : Attempt View}

/-- The reader reads from a view what it reads from a view of the same text elsewhere. -/
def Local (f : View → Attempt View) : Prop :=
  ∀ ⦃k v w⦄, View.Relocated k v w → (f v).Relocated k (View.Relocated k) (f w)

theorem Local.trimmed (hf : Local f) (h : v.Relocated k w) (hv : v.text = .ok s) :
    (f v.trimmed).Relocated k (View.Relocated k) (f w.trimmed) := hf (h.trimmed hv)

theorem relocated_trim {α β : Type} {V : α → β → Prop} {f : View → Attempt α}
    {g : View → Attempt β} (hfg : ∀ v w, v.Relocated k w → (f v).Relocated k V (g w))
    (h : v.Relocated k w) : (trim v >>= f).Relocated k V (trim w >>= g) := by
  obtain ⟨s, hv, hw, -⟩ := id h
  rw [trim_eq_pure hv, trim_eq_pure hw, pure_bind, pure_bind]
  exact hfg _ _ (h.trimmed hv)

/-- Both views are read alike if what is read from them stands at the same place in their text. -/
theorem relocated_of_literal (h : v.Relocated k w) (hv : v.text = .ok (c :: s))
    (ts : List Token) (hs : c :: s = t ++ r)
    (hx : x.Reads (ts.map (Token.shift v.start)) (pure (v.back r)))
    (hy : y.Reads (ts.map (Token.shift w.start)) (pure (w.back r))) :
    x.Relocated k (View.Relocated k) y := by
  refine .of_reads hx hy ?_ (.pure (h.back (hs ▸ hv)))
  rw [h.start_eq hv (by simp), Token.map_shift_shift]

theorem relocated_number (h : v.Relocated k w) (hv : v.text = .ok (c :: s))
    (hc : CharSet.digit.contains c = true) :
    (number v).Relocated k (View.Relocated k) (number w) := by
  have hw := h.text_eq hv
  obtain ⟨t, r, hs, hne, ht, hr, hnone⟩ | ⟨whole, fraction, r, hs, -, hwhole, hne, hf, hr⟩ :=
    Literal.number_cases hc s
  · refine relocated_of_literal h hv [Token.placed 0 .integer t] hs ?_ ?_
    · simpa using reads_integer (hs ▸ hv) hne ht hr hnone
    · simpa using reads_integer (hs ▸ hw) hne ht hr hnone
  · refine relocated_of_literal h hv [Token.placed 0 .integer whole,
      Token.placed (byteLength whole) .dot ['.'],
      Token.placed (byteLength whole + 1) .fraction fraction] hs ?_ ?_
    · have hreads := reads_decimal (hs ▸ hv) hwhole hne hf hr
      simpa [Nat.add_comm, Nat.add_left_comm] using hreads
    · have hreads := reads_decimal (hs ▸ hw) hwhole hne hf hr
      simpa [Nat.add_comm, Nat.add_left_comm] using hreads

theorem relocated_name (h : v.Relocated k w) (hv : v.text = .ok (c :: s))
    (hc : CharSet.nameStart.contains c = true) :
    (name v).Relocated k (View.Relocated k) (name w) := by
  have hw := h.text_eq hv
  obtain ⟨t, r, hs, hall, hr⟩ := Literal.name_cases c s
  refine relocated_of_literal h hv [Token.placed 0 .identifier (c :: t)] hs ?_ ?_
  · simpa using reads_name (hs ▸ hv) hc hall hr
  · simpa using reads_name (hs ▸ hw) hc hall hr

theorem relocated_of_char {α β : Type} {V : α → β → Prop} {x x' : Attempt α} {y y' : Attempt β}
    {kind : TokenKind} (h : v.Relocated k w) (hv : v.text = .ok (c :: s))
    (hx : x.Reads [Token.placed v.start kind [c]] x')
    (hy : y.Reads [Token.placed w.start kind [c]] y') (hxy : x'.Relocated k V y') :
    x.Relocated k V y := by
  refine .of_reads hx hy ?_ hxy
  rw [h.start_eq hv (by simp), List.map_singleton, Token.shift_placed]

theorem relocated_sign (hf : Local f) (h : v.Relocated k w) (hv : v.text = .ok ('-' :: s)) :
    (sign f v).Relocated k (View.Relocated k) (sign f w) :=
  relocated_of_char h hv (reads_sign hv) (reads_sign (h.text_eq hv))
    (hf.trimmed (h.back_cons hv) (View.text_back_cons hv))

theorem relocated_group
    (hf : ∀ ⦃k v w⦄, View.Relocated k v w →
      (expression f v).Relocated k (fun _ _ => True) (expression f w))
    (h : v.Relocated k w) (hv : v.text = .ok ('(' :: s)) :
    (group f v).Relocated k (View.Relocated k) (group f w) := by
  have hw := h.text_eq hv
  cases hclose : Literal.closing? s with
  | none =>
      exact relocated_of_char h hv (reads_group_unmatched hv hclose)
        (reads_group_unmatched hw hclose) (.fail .mismatch)
  | some n =>
      obtain ⟨inner, after, rfl, rfl⟩ := Literal.exists_of_closing? hclose
      have hrest := h.back_cons hv
      have hvrest := View.text_back_cons hv
      refine relocated_of_char h hv (reads_group hv hclose) (reads_group hw hclose)
        (.bind (hf (hrest.splitAt_fst hvrest)) fun _ _ _ => ?_)
      have hlast := hrest.back hvrest
      have hvlast := View.text_back hvrest
      exact relocated_of_char hlast hvlast (reads_char hvlast rfl .closeParen)
        (reads_char (hlast.text_eq hvlast) rfl .closeParen) (.pure (hlast.back_cons hvlast))

theorem local_operand
    (hf : ∀ ⦃k v w s⦄, View.Relocated k v w → v.text = .ok ('(' :: s) →
      (f v).Relocated k (View.Relocated k) (f w))
    (hg : ∀ ⦃k v w s⦄, View.Relocated k v w → v.text = .ok ('-' :: s) →
      (g v).Relocated k (View.Relocated k) (g w)) :
    Local (operand f g) := by
  intro k v w h
  obtain ⟨s, hv, hw, -⟩ := id h
  cases s with
  | nil => exact .of_reads (reads_operand_nil hv) (reads_operand_nil hw) rfl (.fail .mismatch)
  | cons c s =>
      refine .of_reads (reads_operand hv) (reads_operand hw) rfl ?_
      split_ifs with hdigit hname hopen hminus
      · exact relocated_number h hv hdigit
      · exact relocated_name h hv hname
      · obtain rfl : c = '(' := of_decide_eq_true hopen
        exact hf h hv
      · obtain rfl : c = '-' := of_decide_eq_true hminus
        exact hg h hv
      · exact .fail .mismatch

theorem local_products (hf : Local f) (n : Nat) : Local (products f n) := by
  induction n with
  | zero => exact fun k v w h => .pure h
  | succ n ih =>
      intro k v w h
      obtain ⟨s, hv, hw, -⟩ := id h
      by_cases hs : CharSet.mulOp.NotAhead s
      · rw [products_of_notAhead hv hs, products_of_notAhead hw hs]
        exact .pure h
      · obtain ⟨c, s, rfl, hc⟩ := CharSet.exists_of_not_notAhead hs
        refine relocated_of_char h hv (reads_products hv hc) (reads_products hw hc) ?_
        exact .bind (hf.trimmed (h.back_cons hv) (View.text_back_cons hv)) fun a b hab =>
          relocated_trim (fun v w hvw => ih hvw) hab

theorem local_term (hf : Local f) : Local (term f) := by
  intro k v w h
  refine .of_reads (reads_term f v) (reads_term f w) rfl (.bind (hf h) fun a b hab => ?_)
  refine relocated_trim (fun v w hvw => ?_) hab
  obtain ⟨s, hv, hw, -⟩ := id hvw
  rw [View.length_eq hv, View.length_eq hw]
  exact local_products hf _ hvw

theorem local_sums (hf : Local f) (n : Nat) : Local (sums f n) := by
  induction n with
  | zero => exact fun k v w h => .pure h
  | succ n ih =>
      intro k v w h
      obtain ⟨s, hv, hw, -⟩ := id h
      by_cases hs : CharSet.addOp.NotAhead s
      · rw [sums_of_notAhead hv hs, sums_of_notAhead hw hs]
        exact .pure h
      · obtain ⟨c, s, rfl, hc⟩ := CharSet.exists_of_not_notAhead hs
        have hrest := h.back_cons hv
        have hvrest := View.text_back_cons hv
        by_cases hguard : ['(', ')'] <+: Text.trimmed s
        · obtain ⟨r, hr⟩ := hguard
          have htrimmed := hrest.trimmed hvrest
          have hvtrimmed := View.text_trimmed hvrest
          have hne : Text.trimmed s ≠ [] := by simp [← hr]
          refine .of_reads (reads_sums_empty hv hc hr.symm) (reads_sums_empty hw hc hr.symm) ?_
            (.fail .mismatch)
          simp [h.start_eq hv, htrimmed.start_eq hvtrimmed hne, Nat.add_right_comm]
        · refine relocated_of_char h hv (reads_sums hv hc hguard) (reads_sums hw hc hguard) ?_
          exact .bind (local_term hf (hrest.trimmed hvrest)) fun a b hab => ih hab

theorem relocated_sums_end (hf : Local f) (h : v.Relocated k w) :
    (do let v ← sums f v.length v
        if v.isEmpty then pure () else fail .mismatch : Attempt Unit).Relocated k (fun _ _ => True)
      (do let w ← sums f w.length w
          if w.isEmpty then pure () else fail .mismatch) := by
  obtain ⟨t, hv, hw, -⟩ := id h
  rw [View.length_eq hv, View.length_eq hw]
  refine .bind (local_sums hf _ h) fun a b hab => ?_
  obtain ⟨t, ha, hb, -⟩ := id hab
  by_cases ht : t = []
  · rw [if_pos ((View.isEmpty_iff ha).mpr ht), if_pos ((View.isEmpty_iff hb).mpr ht)]
    exact .pure trivial
  · rw [if_neg (ht ∘ (View.isEmpty_iff ha).mp), if_neg (ht ∘ (View.isEmpty_iff hb).mp)]
    exact .fail .mismatch

/-- Blanks at the ends of either view make no difference to an expression. -/
theorem relocated_expression_of_trimmed (hf : Local f) (hv : v.text = .ok s) (hw : w.text = .ok t)
    (h : v.trimmed.Relocated k w.trimmed) :
    (expression f v).Relocated k (fun _ _ => True) (expression f w) := by
  apply Relocated.of_reads (reads_expression hv) (reads_expression hw) rfl
  exact .bind (local_term hf h) fun a b hab => relocated_sums_end hf hab

theorem relocated_expression (hf : Local f) (h : v.Relocated k w) :
    (expression f v).Relocated k (fun _ _ => True) (expression f w) := by
  obtain ⟨s, hv, hw, -⟩ := id h
  exact relocated_expression_of_trimmed hf hv hw (h.trimmed hv)

/-- What is read as a factor depends on the text of the view alone. -/
theorem local_factor (limit room : Nat) : Local (factor limit room) := by
  induction room with
  | zero =>
      exact local_operand (fun _ _ _ _ _ _ => .fail (.tooDeep limit))
        (fun _ _ _ _ _ _ => .fail (.tooDeep limit))
  | succ room ih =>
      exact local_operand
        (fun _ _ _ _ h hv => relocated_group (fun _ _ _ h => relocated_expression ih h) h hv)
        (fun _ _ _ _ h hv => relocated_sign ih h hv)

end Reading

end ArithGrammar
