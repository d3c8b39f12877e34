import ArithGrammar.Proofs.AlignedView
import ArithGrammar.Proofs.Grammar
import ArithGrammar.Proofs.Parentheses

/-!
# Terminals spelled in a text

Terminals are spelled in a text by tokens that are laid out in it. `Ahead v xs ts r` is the same
seen from a view: on `v` the tokens `ts` come next, which are the terminals `xs`, and the text `r`
is left behind them. It holds again on the view behind the first terminal, and between any two,
and that is all that reading a tree from a view needs (`Ahead.cons_inv`, `Ahead.append_inv`).
-/
namespace ArithGrammar
open Text (byteLength)
variable {x : Terminal} {xs ys : List Terminal} {ts : List Token} {start : Nat} {s r gap : Text}
  {v : View}

/-- The tokens, which are those terminals, are laid out in the text. -/
structure Spelled (xs : List Terminal) (start : Nat) (ts : List Token) (s : Text) : Prop where
  terminals : ts.map Token.terminal = xs
  laid : Laid start ts s

namespace Spelled

theorem nil_inv (h : Spelled [] start ts s) : ts = [] ∧ s = [] := by
  obtain rfl := List.map_eq_nil_iff.mp h.terminals
  exact ⟨rfl, h.laid⟩

theorem cons_inv (h : Spelled (x :: xs) start ts s) :
    ∃ gap rest us, ts = Token.placed (start + byteLength gap) x.kind x.text :: us ∧
      s = gap ++ (x.text ++ rest) ∧ gap.Blank ∧ x.text.Solid ∧ (x.kind.joined = true → gap = []) ∧
      Spelled xs (start + byteLength gap + byteLength x.text) us rest := by
  obtain ⟨t, us, rfl, rfl, rfl⟩ := List.map_eq_cons_iff.mp h.terminals
  obtain ⟨gap, rest, hs, hgap, hjoined, hsolid, hspan, hrest⟩ := h.laid
  exact ⟨gap, rest, us, congrArg (· :: us) (congrArg (Token.mk t.kind t.text) hspan), hs, hgap,
    hsolid, hjoined, rfl, hrest⟩

theorem append_inv (h : Spelled (xs ++ ys) start ts s) :
    ∃ ts₁ ts₂ s₁ s₂, ts = ts₁ ++ ts₂ ∧ s = s₁ ++ s₂ ∧ Spelled xs start ts₁ s₁ ∧
      Spelled ys (start + byteLength s₁) ts₂ s₂ := by
  obtain ⟨ts₁, ts₂, rfl, hx, hy⟩ := List.map_eq_append_iff.mp h.terminals
  obtain ⟨s₁, s₂, rfl, h₁, h₂⟩ := h.laid.of_append
  exact ⟨ts₁, ts₂, s₁, s₂, rfl, rfl, ⟨hx, h₁⟩, ⟨hy, h₂⟩⟩

theorem append {us : List Token} (h : Spelled xs start ts s)
    (k : Spelled ys (start + byteLength s) us r) : Spelled (xs ++ ys) start (ts ++ us) (s ++ r) :=
  ⟨by rw [List.map_append, h.terminals, k.terminals], h.laid.append k.laid⟩

end Spelled

theorem Tree.balanced {p : Part} (T : Tree p) (h : Spelled T.terminals start ts s) :
    Balanced s := by
  induction T generalizing start ts s with
  | integer digits =>
      obtain ⟨gap, rest, us, -, rfl, hgap, -, -, hrest⟩ := h.cons_inv
      obtain ⟨-, rfl⟩ := hrest.nil_inv
      exact .append (.of_blank hgap) (.append (.of_set rfl rfl digits.all) .nil)
  | decimal whole fraction =>
      obtain ⟨gap, rest, us, -, rfl, hgap, -, -, hrest⟩ := h.cons_inv
      obtain ⟨gap₂, rest, us, -, rfl, hgap₂, -, -, hrest⟩ := hrest.cons_inv
      obtain ⟨gap₃, rest, us, -, rfl, hgap₃, -, -, hrest⟩ := hrest.cons_inv
      obtain ⟨-, rfl⟩ := hrest.nil_inv
      exact .append (.of_blank hgap) (.append (.of_set rfl rfl whole.all)
        (.append (.of_blank hgap₂) (.append (.char (by decide) (by decide))
          (.append (.of_blank hgap₃) (.append (.of_set rfl rfl fraction.all) .nil)))))
  | name x =>
      obtain ⟨gap, rest, us, -, rfl, hgap, -, -, hrest⟩ := h.cons_inv
      obtain ⟨-, rfl⟩ := hrest.nil_inv
      exact .append (.of_blank hgap) (.append (.of_set rfl rfl x.all) .nil)
  | group inner ih =>
      obtain ⟨gap, rest, us, -, rfl, hgap, -, -, hrest⟩ := h.cons_inv
      obtain ⟨ts₁, ts₂, s₁, s₂, -, rfl, h₁, h₂⟩ := hrest.append_inv
      obtain ⟨gap₂, rest, us, -, rfl, hgap₂, -, -, hrest⟩ := h₂.cons_inv
      obtain ⟨-, rfl⟩ := hrest.nil_inv
      have hinner := Balanced.group (.append (ih h₁) (.of_blank hgap₂))
      simpa [Terminal.opening, Terminal.closing] using Balanced.append (.of_blank hgap) hinner
  | sign operand ih =>
      obtain ⟨gap, rest, us, -, rfl, hgap, -, -, hrest⟩ := h.cons_inv
      exact .append (.of_blank hgap) (.append (.char (by decide) (by decide)) (ih hrest))
  | noProducts =>
      obtain ⟨-, rfl⟩ := h.nil_inv
      exact .nil
  | product op right more ihr ihm =>
      obtain ⟨gap, rest, us, -, rfl, hgap, -, -, hrest⟩ := h.cons_inv
      obtain ⟨ts₁, ts₂, s₁, s₂, -, rfl, h₁, h₂⟩ := hrest.append_inv
      have hop : CharSet.mulOp.All [op.symbol] := by simpa using op.mem
      exact .append (.of_blank hgap) (.append (.of_set rfl rfl hop) (.append (ihr h₁) (ihm h₂)))
  | term first more ihf ihm =>
      obtain ⟨ts₁, ts₂, s₁, s₂, -, rfl, h₁, h₂⟩ := h.append_inv
      exact .append (ihf h₁) (ihm h₂)
  | noSums =>
      obtain ⟨-, rfl⟩ := h.nil_inv
      exact .nil
  | sum op right more ihr ihm =>
      obtain ⟨gap, rest, us, -, rfl, hgap, -, -, hrest⟩ := h.cons_inv
      obtain ⟨ts₁, ts₂, s₁, s₂, -, rfl, h₁, h₂⟩ := hrest.append_inv
      have hop : CharSet.addOp.All [op.symbol] := by simpa using op.mem
      exact .append (.of_blank hgap) (.append (.of_set rfl rfl hop) (.append (ihr h₁) (ihm h₂)))
  | expression first more ihf ihm =>
      obtain ⟨ts₁, ts₂, s₁, s₂, -, rfl, h₁, h₂⟩ := h.append_inv
      exact .append (ihf h₁) (ihm h₂)

/-- On the view the tokens come next, which are those terminals, and `r` is behind them. -/
def Ahead (v : View) (xs : List Terminal) (ts : List Token) (r : Text) : Prop :=
  ∃ s, v.text = .ok (s ++ r) ∧ (s ++ r).EndsSolid ∧ Spelled xs v.start ts s

namespace Ahead

theorem text_back (h : Ahead v xs ts r) : (v.back r).text = .ok r := by
  obtain ⟨s, hv, -, -⟩ := h
  exact View.text_back hv

theorem endsSolid (h : Ahead v xs ts r) : r.EndsSolid := by
  obtain ⟨s, -, hs, -⟩ := h
  exact hs.of_append

theorem length_back_le (h : Ahead v xs ts r) : (v.back r).length ≤ v.length := by
  obtain ⟨s, hv, -, -⟩ := h
  rw [View.length_eq (View.text_back hv), View.length_eq hv, Text.byteLength_append]
  omega

theorem back_eq (h : Ahead v [] ts r) : v.back r = v := by
  obtain ⟨s, hv, -, hs⟩ := h
  obtain ⟨-, rfl⟩ := hs.nil_inv
  exact View.back_self hv

theorem nil_inv (h : Ahead v [] ts r) (hv : v.text = .ok s) : ts = [] ∧ s = r := by
  obtain ⟨s', hv', -, hs⟩ := h
  obtain ⟨rfl, rfl⟩ := hs.nil_inv
  exact ⟨rfl, Except.ok.inj (hv.symm.trans hv')⟩

/-- Behind the blanks in front the first terminal comes next, and the others behind it. There are
no blanks if the first goes on with the number in front of it. -/
theorem cons_inv (h : Ahead v (x :: xs) ts r) :
    ∃ us rest, ts = Token.placed v.trimmed.start x.kind x.text :: us ∧
      v.trimmed.text = .ok (x.text ++ rest) ∧ (v.trimmed.back rest).text = .ok rest ∧
      Ahead (v.trimmed.back rest) xs us r ∧ (∀ t, v.trimmed.back t = v.back t) ∧
      (x.kind.joined = true → v.trimmed = v) := by
  obtain ⟨s, hv, hsolid, hs⟩ := h
  obtain ⟨gap, rest, us, rfl, rfl, hgap, hx, hjoined, hrest⟩ := hs.cons_inv
  rw [List.append_assoc, List.append_assoc] at hv hsolid
  have hfront := hx.notAhead (rest ++ r)
  have hback : v.trimmed = v.back (x.text ++ (rest ++ r)) := by
    rw [View.trimmed_eq_back hv hsolid, CharSet.afterRun_append hgap,
      CharSet.afterRun_eq_self hfront]
  have hstart : v.trimmed.start = v.start + byteLength gap := by
    rw [View.start_trimmed hv, CharSet.run_append hgap hfront]
  have htext : v.trimmed.text = .ok (x.text ++ (rest ++ r)) := by
    rw [hback, View.text_back hv]
  have htail := View.text_back htext
  refine ⟨us, rest ++ r, by rw [hstart], htext, htail,
    ⟨rest, htail, hsolid.of_append.of_append, ?_⟩, fun t => by rw [hback, View.back_back],
    fun hx => ?_⟩
  · rwa [View.start_back htext, hstart]
  · obtain rfl := hjoined hx
    rw [hback]
    exact View.back_self hv

theorem append_inv (h : Ahead v (xs ++ ys) ts r) :
    ∃ ts₁ ts₂ r₁, ts = ts₁ ++ ts₂ ∧ Ahead v xs ts₁ r₁ ∧ Ahead (v.back r₁) ys ts₂ r := by
  obtain ⟨s, hv, hsolid, hs⟩ := h
  obtain ⟨ts₁, ts₂, s₁, s₂, rfl, rfl, h₁, h₂⟩ := hs.append_inv
  rw [List.append_assoc] at hv hsolid
  refine ⟨ts₁, ts₂, s₂ ++ r, rfl, ⟨s₁, hv, hsolid, h₁⟩, s₂, View.text_back hv, hsolid.of_append, ?_⟩
  rwa [View.start_back hv]

/-- Trimming leaves a view on which the terminals are ahead, and behind them what does not end in
blanks. -/
theorem of_trimmed_append (hv : v.text = .ok (s ++ (r ++ gap))) (hgap : gap.Blank)
    (hr : r.EndsSolid) (hs : Spelled xs v.start ts s) (hne : xs ≠ []) :
    Ahead v.trimmed xs ts r ∧ (v.trimmed.back r).start = v.start + byteLength s := by
  obtain ⟨x, xs, rfl⟩ := List.exists_cons_of_ne_nil hne
  obtain ⟨front, rest, us, -, rfl, hfront, hx, hjoined, -⟩ := hs.cons_inv
  have hend : Text.EndsSolid (x.text ++ rest ++ r) := by
    by_cases hnil : r = []
    · rw [hnil, List.append_nil]
      exact hs.laid.endsSolid.of_append
    · exact Text.EndsSolid.append hr hnil
  have hsplit : front ++ (x.text ++ rest) ++ (r ++ gap) =
      front ++ (x.text ++ rest ++ r ++ gap) := by simp only [List.append_assoc]
  rw [hsplit] at hv
  have hahead := hx.notAhead (rest ++ r)
  rw [← List.append_assoc] at hahead
  have htext := View.text_trimmed hv
  rw [Text.trimmed_append hfront hgap hahead hend] at htext
  have hstart : v.trimmed.start = v.start + byteLength front := by
    rw [View.start_trimmed hv, CharSet.run_append hfront]
    simpa using hx.notAhead (rest ++ (r ++ gap))
  have hlaid := hs.laid.drop_gap hfront (hx.notAhead rest)
  rw [← hstart] at hlaid
  refine ⟨⟨x.text ++ rest, htext, hend, hs.terminals, hlaid⟩, ?_⟩
  rw [View.start_back htext, hstart, Text.byteLength_append front, Nat.add_assoc]

/-- Trimming leaves a view on which the terminals are ahead and nothing is behind them. -/
theorem of_trimmed (hv : v.text = .ok (s ++ gap)) (hgap : gap.Blank)
    (hs : Spelled xs v.start ts s) (hne : xs ≠ []) : Ahead v.trimmed xs ts [] :=
  (of_trimmed_append (r := []) hv hgap Text.endsSolid_nil hs hne).1

end Ahead

end ArithGrammar
