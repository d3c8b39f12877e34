import ArithGrammar.Proofs.CharRuns

/-!
# The literals at the front of a text

What the scanners find depends on the front of the text only. An integer is the longest run of
digits, a name the longest run of letters, digits and underscores from a letter or underscore on.
The first dot of the text makes a decimal number exactly if it stands right behind the digits in
front (`decimal?_eq_some_iff`), so nothing that comes later takes part.
-/
namespace ArithGrammar.Literal
variable {s t r whole fraction : Text} {c : Char}

theorem not_digit_dot : CharSet.digit.contains '.' = false := by decide

theorem integer?_append (hne : t ≠ []) (ht : CharSet.digit.All t)
    (hr : CharSet.digit.NotAhead r) : integer? (t ++ r) = some (Text.byteLength t) := by
  unfold integer?
  rw [CharSet.run_append ht hr]
  cases t with
  | nil => exact absurd rfl hne
  | cons c cs => rfl

theorem integer?_eq_some_iff {n : Nat} :
    integer? s = some n ↔ ∃ t r, s = t ++ r ∧ t ≠ [] ∧ CharSet.digit.All t ∧
      CharSet.digit.NotAhead r ∧ Text.byteLength t = n := by
  constructor
  · intro h
    obtain ⟨t, r, rfl, ht, hr⟩ := CharSet.exists_run .digit s
    by_cases hne : t = []
    · rw [hne, List.nil_append, integer?_eq_none_iff.mpr hr] at h
      cases h
    · rw [integer?_append hne ht hr] at h
      exact ⟨t, r, rfl, hne, ht, hr, Option.some.inj h⟩
  · rintro ⟨t, r, rfl, hne, ht, hr, rfl⟩
    exact integer?_append hne ht hr

theorem name?_cons (hc : CharSet.nameStart.contains c = true) (ht : CharSet.namePart.All t)
    (hr : CharSet.namePart.NotAhead r) :
    name? (c :: t ++ r) = some (Text.byteLength (c :: t)) := by
  have hpart : CharSet.namePart.All (c :: t) :=
    CharSet.all_cons.mpr ⟨by rw [CharSet.namePart_contains, hc, Bool.true_or], ht⟩
  rw [List.cons_append, name?, if_pos hc, ← List.cons_append, CharSet.run_append hpart hr]

private theorem takeWhile_dot (hw : CharSet.digit.All whole) :
    (whole ++ '.' :: r).takeWhile (fun c => !CharSet.dot.contains c) = whole ∧
      (whole ++ '.' :: r).dropWhile (fun c => !CharSet.dot.contains c) = '.' :: r := by
  have hall : ∀ c ∈ whole, (!CharSet.dot.contains c) = true := by
    intro c hc
    have hdigit := hw c hc
    cases hdot : CharSet.dot.contains c with
    | false => rfl
    | true =>
        obtain rfl : c = '.' := by simpa [CharSet.contains] using hdot
        rw [not_digit_dot] at hdigit
        cases hdigit
  constructor
  · rw [List.takeWhile_append_of_pos hall, List.takeWhile_cons_of_neg (by decide), List.append_nil]
  · rw [List.dropWhile_append_of_pos hall, List.dropWhile_cons_of_neg (by decide)]

/-- A dot with nothing but digits before it is the first one of the text, and counts. -/
theorem decimal?_dot (hw : CharSet.digit.All whole) (r : Text) :
    decimal? (whole ++ '.' :: r) =
      (integer? r).map fun n => ⟨Text.byteLength whole, Text.byteLength whole + 1 + n⟩ := by
  obtain ⟨hwhole, hfraction⟩ := takeWhile_dot (r := r) hw
  unfold decimal?
  rw [hwhole, hfraction]
  simp only [List.all_eq_true.mpr hw, if_true]
  rfl

theorem decimal?_append (hw : CharSet.digit.All whole) (hne : fraction ≠ [])
    (hf : CharSet.digit.All fraction) (hr : CharSet.digit.NotAhead r) :
    decimal? (whole ++ '.' :: fraction ++ r) =
      some ⟨Text.byteLength whole, Text.byteLength whole + 1 + Text.byteLength fraction⟩ := by
  rw [List.append_assoc, List.cons_append, decimal?_dot hw, integer?_append hne hf hr,
    Option.map_some]

/-- A decimal number is digits up to the first dot, and at least one digit right behind it. -/
theorem decimal?_eq_some_iff {d : Decimal} :
    decimal? s = some d ↔ ∃ whole fraction r, s = whole ++ '.' :: fraction ++ r ∧
      CharSet.digit.All whole ∧ fraction ≠ [] ∧ CharSet.digit.All fraction ∧
      CharSet.digit.NotAhead r ∧
      d = ⟨Text.byteLength whole, Text.byteLength whole + 1 + Text.byteLength fraction⟩ := by
  constructor
  · intro h
    have hsplit := List.takeWhile_append_dropWhile (p := fun c => !CharSet.dot.contains c) (l := s)
    unfold decimal? at h
    dsimp only at h
    split at h
    · cases h
    · rename_i c rest hrest
      split at h
      · rename_i hwhole
        obtain ⟨n, hn, rfl⟩ := Option.map_eq_some_iff.mp h
        obtain ⟨fraction, r, rfl, hne, hf, hr, rfl⟩ := integer?_eq_some_iff.mp hn
        have hdot := List.head?_dropWhile_not (fun c => !CharSet.dot.contains c) s
        rw [hrest] at hdot
        obtain rfl : c = '.' := by simpa [CharSet.contains] using hdot
        refine ⟨_, fraction, r, ?_, List.all_eq_true.mp hwhole, hne, hf, hr, rfl⟩
        rw [hrest] at hsplit
        simpa using hsplit.symm
      · cases h
  · rintro ⟨whole, fraction, r, rfl, hw, hne, hf, hr, rfl⟩
    exact decimal?_append hw hne hf hr

theorem decimal?_eq_none (ht : CharSet.digit.All t) (hr : CharSet.digit.NotAhead r)
    (hdot : CharSet.dot.NotAhead r) : decimal? (t ++ r) = none := by
  refine Option.eq_none_iff_forall_not_mem.mpr fun d hd => ?_
  obtain ⟨whole, fraction, rest, hs, hw, -, -, -, -⟩ := decimal?_eq_some_iff.mp hd
  rw [List.append_assoc, List.cons_append] at hs
  have hafter := congrArg CharSet.digit.afterRun hs
  rw [CharSet.afterRun_append ht, CharSet.afterRun_append hw, CharSet.afterRun_eq_self hr,
    CharSet.afterRun_eq_self (CharSet.notAhead_cons.mpr not_digit_dot)] at hafter
  rw [hafter, CharSet.notAhead_cons] at hdot
  exact absurd hdot (by decide)

theorem decimal?_dot_eq_none_iff (ht : CharSet.digit.All t) :
    decimal? (t ++ '.' :: r) = none ↔ CharSet.digit.NotAhead r := by
  rw [decimal?_dot ht, Option.map_eq_none_iff]
  exact integer?_eq_none_iff

/-- Digits that make no decimal number make none either where the text goes on, as long as no
number goes on in what is added. -/
theorem decimal?_append_eq_none {z : Text} (ht : CharSet.digit.All t) (hr : CharSet.digit.NotAhead r)
    (hnone : decimal? (t ++ r) = none) (hz : CharSet.digit.NotAhead z)
    (hdot : CharSet.dot.NotAhead z) : decimal? (t ++ (r ++ z)) = none := by
  cases r with
  | nil => exact decimal?_eq_none ht hz hdot
  | cons c r =>
      by_cases hc : c = '.'
      · subst hc
        have hdigit := (decimal?_dot_eq_none_iff ht).mp hnone
        exact (decimal?_dot_eq_none_iff ht).mpr (hdigit.append hz)
      · refine decimal?_eq_none ht (hr.append hz) ?_
        rw [List.cons_append, CharSet.notAhead_cons]
        exact decide_eq_false hc

theorem number_cases (hc : CharSet.digit.contains c = true) (s : Text) :
    (∃ t r, c :: s = t ++ r ∧ t ≠ [] ∧ CharSet.digit.All t ∧ CharSet.digit.NotAhead r ∧
      decimal? (t ++ r) = none) ∨
    ∃ whole fraction r, c :: s = whole ++ '.' :: fraction ++ r ∧ whole ≠ [] ∧
      CharSet.digit.All whole ∧ fraction ≠ [] ∧ CharSet.digit.All fraction ∧
      CharSet.digit.NotAhead r := by
  cases hd : decimal? (c :: s) with
  | none =>
      have hs := CharSet.run_append_afterRun .digit (c :: s)
      have hne : CharSet.digit.run (c :: s) ≠ [] := by simp [CharSet.run, hc]
      exact .inl ⟨_, _, hs.symm, hne, CharSet.all_run _ _, CharSet.notAhead_afterRun _ _,
        by rwa [hs]⟩
  | some d =>
      obtain ⟨whole, fraction, r, hs, hw, hne, hf, hr, -⟩ := decimal?_eq_some_iff.mp hd
      refine .inr ⟨whole, fraction, r, hs, ?_, hw, hne, hf, hr⟩
      rintro rfl
      obtain rfl : c = '.' := (List.cons.inj hs).1
      rw [not_digit_dot] at hc
      cases hc

theorem name_cases (c : Char) (s : Text) :
    ∃ t r, c :: s = c :: t ++ r ∧ CharSet.namePart.All t ∧ CharSet.namePart.NotAhead r := by
  obtain ⟨t, r, rfl, ht, hr⟩ := CharSet.exists_run .namePart s
  exact ⟨t, r, rfl, ht, hr⟩

end ArithGrammar.Literal
