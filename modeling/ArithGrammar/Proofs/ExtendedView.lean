import ArithGrammar.Proofs.AlignedView
import ArithGrammar.Proofs.Parentheses

/-!
# Views that end earlier

The view of a group whose end was looked up ends with that group, and one for which nothing was
looked up goes on behind it. `View.Extends` relates the two. What they have in common is consumed
in step, and the longer one goes on with blanks and the parenthesis that closes the group, so
nothing but a blank or a parenthesis ever follows where the shorter one ends.

Within a group the common text is balanced. A closing parenthesis in front of it would therefore be
that of another group, and there is none.
-/
namespace ArithGrammar
open Text (byteLength)

/-- The text of the second view goes on with blanks and `rest` where that of the first ends. It
ends with the text of `top`, and if there is a rest it is that behind a group. -/
structure View.Extends (top : View) (rest t gap : Text) (w v : View) : Prop where
  text_eq : w.text = .ok t
  text_eq' : v.text = .ok (t ++ (gap ++ rest))
  start_eq : t ≠ [] → w.start = v.start
  end_eq : v.back [] = top.back []
  blank : gap.Blank
  endsSolid : Text.EndsSolid (t ++ (gap ++ rest))
  rest_cases : rest = [] ∨ ∃ after, rest = ')' :: after
  balanced : rest ≠ [] → Balanced (t ++ gap)

namespace View

theorem back_eq_of_end_eq {v w : View} (h : v.back [] = w.back []) (r : Text) :
    v.back r = w.back r := by
  have hback : (v.back []).back r = (w.back []).back r := by rw [h]
  exact hback

/-- The second view extends the first by blanks and the rest. -/
def Within (top : View) (rest : Text) (w v : View) : Prop :=
  ∃ t gap, Extends top rest t gap w v

def WithinSolid (top : View) (rest : Text) (w v : View) : Prop :=
  ∃ t gap, Extends top rest t gap w v ∧ CharSet.blank.NotAhead t

namespace Extends
variable {top w v : View} {rest s t r gap : Text} {c : Char} {set : CharSet}

theorem notAhead_gap (h : Extends top rest t gap w v) (hset : set ≠ .blank)
    (hclose : set.contains ')' = false) : set.NotAhead (gap ++ rest) := by
  have hgap := h.blank
  cases gap with
  | cons c gap =>
      exact CharSet.notAhead_cons.mpr (CharSet.not_of_blank hset (CharSet.all_cons.mp hgap).1)
  | nil =>
      obtain rfl | ⟨after, rfl⟩ := h.rest_cases
      · exact CharSet.notAhead_nil
      · exact CharSet.notAhead_cons.mpr hclose

theorem start_back_eq (h : Extends top rest (s ++ r) gap w v) (hr : r ≠ []) :
    (w.back r).start = (v.back (r ++ (gap ++ rest))).start := by
  have hv := h.text_eq'
  rw [List.append_assoc] at hv
  rw [View.start_back h.text_eq, View.start_back hv, h.start_eq (by simp [hr])]

/-- Behind a balanced text the views extend each other in the same way. -/
theorem back (h : Extends top rest (s ++ r) gap w v) (hs : Balanced s) :
    Extends top rest r gap (w.back r) (v.back (r ++ (gap ++ rest))) := by
  have hv := h.text_eq'
  have hend := h.endsSolid
  have hbalanced := h.balanced
  rw [List.append_assoc] at hv hend hbalanced
  exact ⟨View.text_back h.text_eq, View.text_back hv, h.start_back_eq,
    by rw [View.back_back, h.end_eq], h.blank, hend.of_append, h.rest_cases,
    fun hrest => (hbalanced hrest).of_append hs⟩

theorem back_cons (h : Extends top rest (c :: s) gap w v) (hopen : c ≠ '(') (hclose : c ≠ ')') :
    Extends top rest s gap (w.back s) (v.back (s ++ (gap ++ rest))) :=
  h.back (s := [c]) (.char hopen hclose)

theorem notAhead_rest (h : Extends top rest t gap w v) : CharSet.blank.NotAhead rest := by
  obtain rfl | ⟨after, rfl⟩ := h.rest_cases
  · exact CharSet.notAhead_nil
  · exact CharSet.notAhead_cons.mpr (by decide)

theorem trimmed (h : Extends top rest t gap w v) :
    WithinSolid top rest w.trimmed v.trimmed := by
  obtain ⟨front, behind, hsplit, hfront, hbehind, hnil, hrun⟩ := Text.exists_trimmed_gap h.blank t
  have hsolid : CharSet.blank.NotAhead (Text.trimmed t) := Text.notAhead_trimmed t
  have hahead : CharSet.blank.NotAhead (Text.trimmed t ++ (behind ++ rest)) := by
    by_cases hne : Text.trimmed t = []
    · rw [hne, hnil hne]
      exact h.notAhead_rest
    · obtain ⟨c, cs, hcs⟩ := List.exists_cons_of_ne_nil hne
      rw [hcs] at hsolid ⊢
      exact CharSet.notAhead_cons.mpr (CharSet.notAhead_cons.mp hsolid)
  have hback := View.trimmed_eq_back h.text_eq' h.endsSolid
  have hv := h.text_eq'
  have hend := h.endsSolid
  have hsplit' : t ++ (gap ++ rest) = front ++ (Text.trimmed t ++ (behind ++ rest)) := by
    rw [← List.append_assoc, hsplit]
    simp only [List.append_assoc]
  rw [hsplit'] at hback hv hend
  rw [CharSet.afterRun_append hfront, CharSet.afterRun_eq_self hahead] at hback
  refine ⟨Text.trimmed t, behind, ⟨View.text_trimmed h.text_eq, ?_, fun hne => ?_, ?_, hbehind,
    hend.of_append, h.rest_cases, fun hrest => ?_⟩, hsolid⟩
  · rw [hback]
    exact View.text_back hv
  · have htne : t ≠ [] := by
      rintro rfl
      exact hne rfl
    rw [hback, View.start_trimmed h.text_eq, View.start_back hv, h.start_eq htne, hrun hne]
  · rw [hback, View.back_back, h.end_eq]
  · have hbalanced := h.balanced hrest
    rw [hsplit] at hbalanced
    exact hbalanced.of_append (.of_blank hfront)

theorem emptyGroup_iff (h : Extends top rest t gap w v) :
    ['(', ')'] <+: t ++ (gap ++ rest) ↔ ['(', ')'] <+: t := by
  refine ⟨?_, fun hpair => hpair.trans (List.prefix_append _ _)⟩
  rintro ⟨tail, htail⟩
  match t, h, htail with
  | [], h, htail =>
      have hopen : CharSet.openParen.NotAhead (gap ++ rest) :=
        h.notAhead_gap (by decide) (by decide)
      rw [List.nil_append] at htail
      rw [← htail, List.cons_append, CharSet.notAhead_cons] at hopen
      exact absurd hopen (by decide)
  | [c], h, htail =>
      -- the parenthesis would be that of an open group, and the text in front not balanced
      obtain ⟨rfl, hgap⟩ := List.cons.inj htail
      have hrest : rest ≠ [] := by
        rintro rfl
        rw [List.append_nil] at hgap
        have hmem : ')' ∈ gap := by simp [← show ')' :: tail = gap from hgap]
        exact absurd (h.blank ')' hmem) (by decide)
      obtain ⟨n, hn⟩ := (h.balanced hrest).exists_closing?
      have hnone := Literal.closing?_of_append_blank (s := []) h.blank hn
      cases hnone
  | c :: d :: t, _, htail =>
      simp only [List.cons_append, List.cons.injEq] at htail
      exact ⟨t, by simp [← htail.1, ← htail.2.1]⟩

/-- The inside of a group, when its end is looked up, and the view of all that is behind its
parenthesis. -/
theorem inside {inner after : Text} (hinner : Balanced inner)
    (h : Extends top rest ('(' :: (inner ++ ')' :: after)) gap w v) :
    Extends top (')' :: (after ++ (gap ++ rest))) inner []
      ((w.back (inner ++ ')' :: after)).splitAt (byteLength inner)).1
      (v.back (inner ++ ')' :: (after ++ (gap ++ rest)))) := by
  have hv := h.text_eq'
  have hend := h.endsSolid
  rw [List.cons_append, List.append_assoc, List.cons_append] at hv hend
  have hw := View.text_back_cons h.text_eq
  refine ⟨View.text_splitAt_fst hw, View.text_back_cons hv, fun _ => ?_, h.end_eq, CharSet.all_nil,
    hend.of_append (s := ['(']), .inr ⟨_, rfl⟩, fun _ => .append hinner .nil⟩
  rw [View.start_splitAt_fst, View.start_back_cons h.text_eq, View.start_back_cons hv,
    h.start_eq (List.cons_ne_nil _ _)]

end Extends

end View

end ArithGrammar
