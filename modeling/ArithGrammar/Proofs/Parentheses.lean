import ArithGrammar.Literal
import ArithGrammar.Proofs.CharRuns

/-!
# Parentheses that match

A balanced text closes every group that it opens and no other. Behind a balanced text as many
groups are open as before it, and at no place within it fewer, so the search for the parenthesis
that closes an open group passes over it (`closingFrom_append`).
-/
namespace ArithGrammar

theorem exists_split_of_append_cons {α : Type} {a b s t : List α} {c : α}
    (h : a ++ c :: b = s ++ t) :
    (∃ b', s = a ++ c :: b' ∧ b = b' ++ t) ∨ ∃ a', a = s ++ a' ∧ t = a' ++ c :: b := by
  rcases List.append_eq_append_iff.mp h with ⟨m, rfl, hm⟩ | ⟨m, rfl, ht⟩
  · cases m with
    | nil => exact .inr ⟨[], (List.append_nil _).symm.trans (List.append_nil _).symm, hm.symm⟩
    | cons d m =>
        obtain ⟨rfl, rfl⟩ := List.cons.inj hm
        exact .inl ⟨m, rfl, rfl⟩
  · exact .inr ⟨m, rfl, ht⟩

inductive Balanced : Text → Prop
  | nil : Balanced []
  | char {c : Char} : c ≠ '(' → c ≠ ')' → Balanced [c]
  | group {s : Text} : Balanced s → Balanced ('(' :: s ++ [')'])
  | append {s t : Text} : Balanced s → Balanced t → Balanced (s ++ t)

theorem Balanced.of_all {s : Text} (hs : ∀ c ∈ s, c ≠ '(' ∧ c ≠ ')') : Balanced s := by
  induction s with
  | nil => exact .nil
  | cons c cs ih =>
      have hc := hs c (by simp)
      exact .append (.char hc.1 hc.2) (ih fun d hd => hs d (by simp [hd]))

theorem Balanced.of_set {set : CharSet} {s : Text} (hopen : set.contains '(' = false)
    (hclose : set.contains ')' = false) (hs : set.All s) : Balanced s := by
  refine .of_all fun c hc => ⟨?_, ?_⟩
  · rintro rfl
    rw [hs _ hc] at hopen
    cases hopen
  · rintro rfl
    rw [hs _ hc] at hclose
    cases hclose

theorem Balanced.of_blank {s : Text} (hs : CharSet.blank.All s) : Balanced s :=
  .of_set (by decide) (by decide) hs

namespace Literal

theorem closingFrom_cons (opened : Nat) (c : Char) (s : Text) (h : openedAfter opened c ≠ 0) :
    closingFrom opened (c :: s) =
      (closingFrom (openedAfter opened c) s).map (c.utf8Size + ·) := by
  rw [closingFrom]
  split
  · contradiction
  · rename_i left hleft
    rw [hleft]

theorem openedAfter_other {c : Char} (hopen : c ≠ '(') (hclose : c ≠ ')') (opened : Nat) :
    openedAfter opened c = opened := by
  simp [openedAfter, CharSet.contains, hopen, hclose]

theorem eq_of_openedAfter_eq_zero {opened : Nat} {c : Char} (h : openedAfter (opened + 1) c = 0) :
    c = ')' := by
  by_cases hopen : c = '('
  · subst hopen
    cases h
  · by_cases hclose : c = ')'
    · exact hclose
    · rw [openedAfter_other hopen hclose] at h
      cases h

/-- The search passes over a balanced text. -/
theorem closingFrom_append {s : Text} (hs : Balanced s) (opened : Nat) (t : Text) :
    closingFrom (opened + 1) (s ++ t) =
      (closingFrom (opened + 1) t).map (Text.byteLength s + ·) := by
  induction hs generalizing opened t with
  | nil => simp
  | @char c hopen hclose =>
      have hafter := openedAfter_other hopen hclose (opened + 1)
      rw [List.singleton_append, closingFrom_cons _ _ _ (by rw [hafter]; omega), hafter]
      rfl
  | @group s _ ih =>
      have hopen : openedAfter (opened + 1) '(' = opened + 1 + 1 := rfl
      have hclose : openedAfter (opened + 1 + 1) ')' = opened + 1 := rfl
      rw [List.append_assoc, List.cons_append, closingFrom_cons _ _ _ (by rw [hopen]; omega),
        hopen, ih, List.singleton_append, closingFrom_cons _ _ _ (by rw [hclose]; omega), hclose]
      simp only [Option.map_map, Function.comp_def, Text.byteLength_append, Text.byteLength_cons,
        Text.byteLength_nil, Nat.add_assoc, Nat.add_zero, List.cons_append]
  | @append s u _ _ ihs ihu =>
      rw [List.append_assoc, ihs, ihu]
      simp only [Option.map_map, Function.comp_def, Text.byteLength_append, Nat.add_assoc]

theorem closing?_append {s : Text} (hs : Balanced s) (t : Text) :
    closing? (s ++ ')' :: t) = some (Text.byteLength s) := by
  rw [closing?, closingFrom_append hs]
  rfl

/-- Balanced texts with `k` closing parentheses between them. -/
def Descends : Nat → Text → Prop
  | 0, s => Balanced s
  | k + 1, s => ∃ b r, s = b ++ ')' :: r ∧ Balanced b ∧ Descends k r

theorem Descends.append {k : Nat} {s t : Text} (hs : Balanced s) (ht : Descends k t) :
    Descends k (s ++ t) := by
  cases k with
  | zero => exact Balanced.append hs ht
  | succ k =>
      obtain ⟨b, r, rfl, hb, hr⟩ := ht
      exact ⟨s ++ b, r, (List.append_assoc _ _ _).symm, Balanced.append hs hb, hr⟩

/-- Up to the parenthesis that is found the other open groups are closed one after the other. -/
theorem exists_descends_of_closingFrom {k n : Nat} {s : Text}
    (h : closingFrom (k + 1) s = some n) :
    ∃ inner after, s = inner ++ ')' :: after ∧ Text.byteLength inner = n ∧ Descends k inner := by
  induction s generalizing k n with
  | nil => cases h
  | cons c cs ih =>
      by_cases hzero : openedAfter (k + 1) c = 0
      · obtain rfl := eq_of_openedAfter_eq_zero hzero
        rw [closingFrom, hzero] at h
        obtain rfl : 0 = n := Option.some.inj h
        obtain rfl : k = 0 := hzero
        exact ⟨[], cs, rfl, rfl, .nil⟩
      · rw [closingFrom_cons _ _ _ hzero] at h
        obtain ⟨m, hm, rfl⟩ := Option.map_eq_some_iff.mp h
        by_cases hopen : c = '('
        · subst hopen
          obtain ⟨inner, after, rfl, rfl, b, r, rfl, hb, hr⟩ := ih (k := k + 1) hm
          have hdescends := Descends.append (.group hb) hr
          exact ⟨'(' :: (b ++ ')' :: r), after, rfl, rfl, by simpa using hdescends⟩
        · by_cases hclose : c = ')'
          · subst hclose
            obtain ⟨k, rfl⟩ := Nat.exists_eq_succ_of_ne_zero hzero
            obtain ⟨inner, after, rfl, rfl, hinner⟩ := ih (k := k) hm
            exact ⟨')' :: inner, after, rfl, rfl, [], inner, rfl, .nil, hinner⟩
          · rw [openedAfter_other hopen hclose] at hm
            obtain ⟨inner, after, rfl, rfl, hinner⟩ := ih hm
            exact ⟨c :: inner, after, rfl, rfl, .append (.char hopen hclose) hinner⟩

/-- What is found is a closing parenthesis behind a balanced text. -/
theorem exists_balanced_of_closing? {n : Nat} {s : Text} (h : closing? s = some n) :
    ∃ inner after, s = inner ++ ')' :: after ∧ Text.byteLength inner = n ∧ Balanced inner :=
  exists_descends_of_closingFrom h

theorem exists_of_closing? {n : Nat} {s : Text} (h : closing? s = some n) :
    ∃ inner after, s = inner ++ ')' :: after ∧ Text.byteLength inner = n := by
  obtain ⟨inner, after, hs, hn, -⟩ := exists_balanced_of_closing? h
  exact ⟨inner, after, hs, hn⟩

theorem closing?_append_right {n : Nat} {s : Text} (h : closing? s = some n) (t : Text) :
    closing? (s ++ t) = some n := by
  obtain ⟨inner, after, rfl, rfl, hinner⟩ := exists_balanced_of_closing? h
  rw [List.append_assoc, List.cons_append]
  exact closing?_append hinner _

theorem closing?_of_append_blank {n : Nat} {s t : Text} (ht : t.Blank)
    (h : closing? (s ++ t) = some n) : closing? s = some n := by
  obtain ⟨inner, after, heq, rfl, hinner⟩ := exists_balanced_of_closing? h
  have hnot : ∀ before behind : Text, t ≠ before ++ ')' :: behind := by
    rintro before behind rfl
    exact absurd (ht ')' (by simp)) (by decide)
  obtain ⟨before, -, hbehind⟩ | ⟨more, rfl, hmore⟩ := List.append_eq_append_iff.mp heq
  · exact absurd hbehind (hnot _ _)
  · cases more with
    | nil => exact absurd hmore.symm (hnot [] _)
    | cons c more =>
        obtain ⟨rfl, -⟩ := List.cons.inj hmore
        exact closing?_append hinner more

theorem closing?_append_blank {s t : Text} (ht : t.Blank) (h : closing? s = none) :
    closing? (s ++ t) = none := by
  refine Option.eq_none_iff_forall_not_mem.mpr fun n hn => ?_
  have hsome := closing?_of_append_blank ht hn
  cases h.symm.trans hsome

end Literal

namespace Balanced
open Literal
variable {s t a b : Text}

/-- What is left of a balanced text behind a balanced one is balanced. -/
theorem of_append (h : Balanced (s ++ t)) (hs : Balanced s) : Balanced t := by
  have hfound := closing?_append h []
  rw [closing?, List.append_assoc, closingFrom_append hs] at hfound
  obtain ⟨n, hn, hlen⟩ := Option.map_eq_some_iff.mp hfound
  obtain ⟨inner, after, heq, hinner, hbalanced⟩ := exists_balanced_of_closing? hn
  have hbytes := congrArg Text.byteLength heq
  simp only [Text.byteLength_append, Text.byteLength_cons, Text.byteLength_nil] at hlen hbytes
  obtain rfl : after = [] := Text.byteLength_eq_zero.mp (by omega)
  rwa [List.append_cancel_right heq]

theorem not_closeParen (h : Balanced (')' :: s)) : False := by
  have hfound := closing?_append h []
  have hzero : 0 = Text.byteLength (')' :: s) := Option.some.inj hfound
  have hsize : (')' : Char).utf8Size = 1 := rfl
  rw [Text.byteLength_cons, hsize] at hzero
  omega

/-- Every group that a balanced text opens is closed in it. -/
theorem exists_closing?_behind (h : Balanced (a ++ '(' :: b)) : ∃ n, closing? b = some n := by
  generalize heq : a ++ '(' :: b = s at h
  induction h generalizing a b with
  | nil => cases a <;> cases heq
  | @char c hopen hclose =>
      cases a with
      | nil => exact absurd (List.cons.inj heq).1.symm hopen
      | cons d a => cases a <;> cases heq
  | @group inner hinner ih =>
      cases a with
      | nil =>
          obtain rfl : b = inner ++ [')'] := (List.cons.inj heq).2
          exact ⟨_, closing?_append hinner []⟩
      | cons d a =>
          rcases exists_split_of_append_cons (List.cons.inj heq).2 with
            ⟨b', hb', rfl⟩ | ⟨a', -, ha'⟩
          · obtain ⟨n, hn⟩ := ih hb'.symm
            exact ⟨n, closing?_append_right hn [')']⟩
          · cases a' with
            | nil => cases ha'
            | cons e a' => cases a' <;> cases ha'
  | @append front back hfront hback ihf ihb =>
      rcases exists_split_of_append_cons heq with ⟨b', hb', rfl⟩ | ⟨a', -, ha'⟩
      · obtain ⟨n, hn⟩ := ihf hb'.symm
        exact ⟨n, closing?_append_right hn back⟩
      · exact ihb ha'.symm

theorem of_append_blank (h : Balanced (s ++ t)) (ht : t.Blank) : Balanced s := by
  generalize heq : s ++ t = r at h
  induction h generalizing s t with
  | nil =>
      rw [(List.append_eq_nil_iff.mp heq).1]
      exact .nil
  | @char c hopen hclose =>
      cases s with
      | nil => exact .nil
      | cons d s =>
          obtain ⟨rfl, hs⟩ := List.cons.inj heq
          rw [(List.append_eq_nil_iff.mp hs).1]
          exact .char hopen hclose
  | @group inner hinner ih =>
      rcases List.eq_nil_or_concat' t with rfl | ⟨t, c, rfl⟩
      · rw [List.append_nil] at heq
        rw [heq]
        exact .group hinner
      · rw [← List.append_assoc] at heq
        obtain ⟨-, hc⟩ := List.append_inj' heq rfl
        obtain rfl : c = ')' := (List.cons.inj hc).1
        exact absurd (ht ')' (by simp)) (by decide)
  | @append front back hfront hback ihf ihb =>
      rcases List.append_eq_append_iff.mp heq with ⟨m, rfl, rfl⟩ | ⟨m, rfl, rfl⟩
      · exact ihf (CharSet.all_append.mp ht).1 rfl
      · exact .append hfront (ihb ht rfl)

/-- The first group of a balanced text is closed in it. -/
theorem exists_closing? (h : Balanced ('(' :: s)) : ∃ n, closing? s = some n :=
  h.exists_closing?_behind (a := [])

end Balanced

end ArithGrammar
