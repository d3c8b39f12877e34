import ArithGrammar.Proofs.Parentheses

/-!
# The matching parenthesis

The search for the end of a group counts the groups that are open and stops where none is left. The
one place where it can stop is a closing parenthesis behind balanced text (`closing?_eq_some_iff`).
As long as it has not stopped the count is one, and one more for each parenthesis opened and one
less for each closed so far, and never less than one (`closingFrom_goes_on`), so nothing is ever
taken from zero.
-/
namespace ArithGrammar.Literal
open Text (byteLength slice dropBytes? isBoundary)
variable {s t front : Text} {k n opened : Nat}

/-- A closing parenthesis stands at the offset, behind balanced text. -/
def ClosesAt (s : Text) (k : Nat) : Prop :=
  ∃ inner behind, slice s 0 k = .ok inner ∧ Balanced inner ∧ dropBytes? s k = some (')' :: behind)

/-- The count behind a text in which the search does not stop, if it is `opened` before the text. -/
def openedBehind (opened : Nat) (s : Text) : Nat := s.foldl openedAfter opened

theorem closesAt_iff : ClosesAt s k ↔
    ∃ inner behind, s = inner ++ ')' :: behind ∧ byteLength inner = k ∧ Balanced inner := by
  constructor
  · rintro ⟨inner, behind, hinner, hbalanced, hbehind⟩
    obtain ⟨before, after, rfl, hbefore, rfl⟩ := Text.slice_eq_ok_iff.mp hinner
    obtain rfl : before = [] := Text.byteLength_eq_zero.mp hbefore
    have hdrop : dropBytes? (inner ++ after) (byteLength inner) = some after :=
      Text.dropBytes?_eq_some_iff.mpr ⟨inner, rfl, rfl⟩
    rw [List.nil_append, Nat.zero_add, hdrop] at hbehind
    obtain rfl := Option.some.inj hbehind
    exact ⟨inner, behind, rfl, (Nat.zero_add _).symm, hbalanced⟩
  · rintro ⟨inner, behind, rfl, rfl, hbalanced⟩
    refine ⟨inner, behind, ?_, hbalanced, ?_⟩
    · apply Text.slice_eq_ok_iff.mpr
      exact ⟨[], ')' :: behind, rfl, rfl, Nat.zero_add _⟩
    · exact Text.dropBytes?_eq_some_iff.mpr ⟨inner, rfl, rfl⟩

/-- What is found is the parenthesis behind balanced text, wherever there is one. -/
theorem closing?_eq_some_iff : closing? s = some k ↔ ClosesAt s k := by
  rw [closesAt_iff]
  constructor
  · intro h
    exact exists_balanced_of_closing? h
  · rintro ⟨inner, behind, rfl, rfl, hbalanced⟩
    exact closing?_append hbalanced behind

theorem closing?_eq_none_iff : closing? s = none ↔ ∀ k, ¬ ClosesAt s k := by
  simp only [← closing?_eq_some_iff]
  exact Option.eq_none_iff_forall_ne_some

theorem ClosesAt.unique (h : ClosesAt s k) (hn : ClosesAt s n) : k = n := by
  have hk := closing?_eq_some_iff.mpr h
  rw [closing?_eq_some_iff.mpr hn] at hk
  exact (Option.some.inj hk).symm

theorem ClosesAt.isBoundary (h : ClosesAt s k) : isBoundary s k = true := by
  obtain ⟨inner, behind, rfl, hk, -⟩ := closesAt_iff.mp h
  exact Text.isBoundary_iff.mpr ⟨inner, ')' :: behind, rfl, hk⟩

theorem openedAfter_count (hpos : 1 ≤ opened) (c : Char) :
    openedAfter opened c + [c].count ')' = opened + [c].count '(' := by
  by_cases hopen : c = '('
  · subst hopen
    rfl
  · by_cases hclose : c = ')'
    · subst hclose
      exact Nat.sub_add_cancel hpos
    · rw [openedAfter_other hopen hclose]
      simp [hopen, hclose]

/-- A search that does not stop in a text goes on behind it with the count that the text leaves. -/
theorem closingFrom_goes_on (hpos : 1 ≤ opened) (h : closingFrom opened front = none) :
    1 ≤ openedBehind opened front ∧
      openedBehind opened front + front.count ')' = opened + front.count '(' ∧
      ∀ t, closingFrom opened (front ++ t) =
        (closingFrom (openedBehind opened front) t).map (byteLength front + ·) := by
  induction front generalizing opened with
  | nil => exact ⟨hpos, rfl, fun t => by simp [openedBehind]⟩
  | cons c front ih =>
    have hnext : openedAfter opened c ≠ 0 := by
      intro hzero
      rw [closingFrom, hzero] at h
      cases h
    rw [closingFrom_cons _ _ _ hnext, Option.map_eq_none_iff] at h
    obtain ⟨hone, hcount, hgoes⟩ := ih (Nat.one_le_iff_ne_zero.mpr hnext) h
    have hbehind : openedBehind opened (c :: front) = openedBehind (openedAfter opened c) front :=
      rfl
    have hstep := openedAfter_count hpos c
    rw [hbehind]
    refine ⟨hone, ?_, ?_⟩
    · rw [← List.singleton_append, List.count_append, List.count_append]
      omega
    · intro t
      rw [List.cons_append, closingFrom_cons _ _ _ hnext, hgoes, Option.map_map]
      simp only [Function.comp_def, Text.byteLength_cons, Nat.add_assoc]

/-- In front of the place where it stops the search finds nothing. -/
theorem closing?_front_eq_none
    (h : ∀ k, closing? (front ++ t) = some k → byteLength front ≤ k) : closing? front = none := by
  apply Option.eq_none_iff_forall_ne_some.mpr
  intro k hk
  have hle := h k (closing?_append_right hk t)
  obtain ⟨inner, behind, rfl, rfl⟩ := exists_of_closing? hk
  have hsize := (')' : Char).utf8Size_pos
  simp only [Text.byteLength_append, Text.byteLength_cons] at hle
  omega

/-- The end of a group is found at the only closing parenthesis that has balanced text before it,
and nowhere just if there is none. Before each character up to that place, or up to the end of the
text where there is none, one group at least is open: those that have been opened and not closed. -/
theorem closing_found_at_match (s : Text) :
    (∀ k, closing? s = some k ↔ ClosesAt s k) ∧
    (∀ k, ClosesAt s k → isBoundary s k = true ∧ ∀ n, ClosesAt s n → n = k) ∧
    (closing? s = none ↔ ∀ k, ¬ ClosesAt s k) ∧
    ∀ front c behind, s = front ++ c :: behind →
      (∀ k, closing? s = some k → byteLength front ≤ k) →
      1 ≤ openedBehind 1 front ∧
      openedBehind 1 front + front.count ')' = 1 + front.count '(' ∧
      closing? s =
        (closingFrom (openedBehind 1 front) (c :: behind)).map (byteLength front + ·) := by
  refine ⟨fun k => closing?_eq_some_iff, ?_, closing?_eq_none_iff, ?_⟩
  · intro k hk
    exact ⟨hk.isBoundary, fun n hn => hn.unique hk⟩
  · rintro front c behind rfl hreads
    have hfront := closing?_front_eq_none hreads
    obtain ⟨hone, hcount, hgoes⟩ := closingFrom_goes_on (le_refl 1) hfront
    exact ⟨hone, hcount, hgoes (c :: behind)⟩

example : closing? "é(1)-(\u00a0))*(".toList = some 10 := by decide +kernel

end ArithGrammar.Literal
