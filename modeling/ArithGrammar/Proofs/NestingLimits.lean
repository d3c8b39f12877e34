import ArithGrammar.Proofs.Congruence
import ArithGrammar.Verdict

/-!
# More room for nesting

A limit decides about nothing but the place where a recognition gives up. Under a higher one the
same text is read in the same way, token by token, until the lower one leaves no room; there the
higher one goes on with the parenthesis or the minus sign that had no room (`Attempt.Deepened`).
So whatever is not refused for its depth gets the same verdict under every higher limit
(`recognize_under_higher_limit`).
-/
namespace ArithGrammar
open Attempt Reading

/-- The attempt `y` comes to the same as `x`, unless `x` fails for want of room. Then it goes on
where `x` stops, with an opening parenthesis or a minus sign. -/
inductive Attempt.Deepened {α : Type} (x y : Attempt α) : Prop
  | same : ¬ x.TooDeep → y.tokens = x.tokens → y.outcome = x.outcome → Deepened x y
  | further (t : Token) (more : List Token) : x.TooDeep → t.kind = .openParen ∨ t.kind = .minus →
      y.tokens = x.tokens ++ t :: more → Deepened x y

/-- Where the first attempt stops for want of room, so does what is in sequence with it. -/
theorem congruence_deepened : Congruence fun _ x y => x.Deepened y where
  refl h := .same h rfl rfl
  bind {α β x y f g} hxy hfg := by
    cases hxy with
    | same hx htokens houtcome =>
        cases hout : x.outcome with
        | error failure =>
            rw [hout] at houtcome
            have hf := bind_of_error hout f
            have hg := bind_of_error houtcome g
            refine .same ?_ (by rw [hf.1, hg.1, htokens]) (by rw [hf.2, hg.2])
            rintro ⟨limit, h⟩
            rw [hf.2, Except.error.injEq] at h
            exact hx ⟨limit, by rw [hout, h]⟩
        | ok a =>
            rw [hout] at houtcome
            have hf := bind_of_ok hout f
            have hg := bind_of_ok houtcome g
            cases hfg a hout with
            | same ha htokens' houtcome' =>
                refine .same ?_ (by rw [hf.1, hg.1, htokens, htokens'])
                  (by rw [hf.2, hg.2, houtcome'])
                rintro ⟨limit, h⟩
                exact ha ⟨limit, hf.2.symm.trans h⟩
            | further t more ha ht htokens' =>
                obtain ⟨limit, ha⟩ := ha
                refine .further t more ⟨limit, hf.2.trans ha⟩ ht ?_
                rw [hf.1, hg.1, htokens, htokens', List.append_assoc]
    | further t more hx ht htokens =>
        obtain ⟨limit, hout⟩ := id hx
        have hf := bind_of_error hout f
        have hg : ∃ rest, (y >>= g).tokens = y.tokens ++ rest := by
          cases houtcome : y.outcome with
          | error failure => exact ⟨[], by rw [(bind_of_error houtcome g).1, List.append_nil]⟩
          | ok b => exact ⟨(g b).tokens, (bind_of_ok houtcome g).1⟩
        obtain ⟨rest, hrest⟩ := hg
        refine .further t (more ++ rest) (hx.bind f) ht ?_
        rw [hrest, hf.1, htokens, List.append_assoc, List.cons_append]

/-- With less room a factor is read in the same way until there is none. -/
theorem deepened_factor {n m room room' : Nat} (h : room < room') (v : View) :
    (factor n room v).Deepened (factor m room' v) := by
  induction room generalizing room' v with
  | zero =>
      obtain ⟨room', rfl⟩ := Nat.exists_eq_succ_of_ne_zero (Nat.ne_of_gt h)
      refine congruence_deepened.operand (fun v s hv => ?_) (fun v s hv => ?_) v
      · exact .further _ _ ⟨n, rfl⟩ (.inl rfl) ((reads_char hv rfl .openParen).bind _).tokens
      · exact .further _ _ ⟨n, rfl⟩ (.inr rfl) ((reads_char hv rfl .minus).bind _).tokens
  | succ room ih =>
      obtain ⟨room', rfl⟩ := Nat.exists_eq_succ_of_ne_zero (Nat.ne_of_gt (Nat.zero_lt_of_lt h))
      have hroom : room < room' := Nat.lt_of_succ_lt_succ h
      exact congruence_deepened.operand (fun v _ _ => congruence_deepened.group (ih hroom) v)
        (fun v _ _ => congruence_deepened.sign (ih hroom) v) v

section
variable {low high : NestingLimit} {input : Text}

theorem deepened_recognize (h : low.levels < high.levels) (input : Text) :
    (recognize low input).Deepened (recognize high input) :=
  congruence_deepened.same_bind (not_tooDeep_trim _) fun v _ =>
    congruence_deepened.expression (deepened_factor h) v

theorem not_tooDeep_of_valid (h : (Verdict.evaluate low input).valid = true) :
    ¬ (recognize low input).TooDeep := by
  rintro ⟨limit, hdeep⟩
  rw [Verdict.evaluate, Verdict.ofAttempt, hdeep] at h
  cases h

/-- What does not want for room comes to the same under every limit that is not lower. -/
theorem recognize_eq_of_not_tooDeep (hle : low.levels ≤ high.levels)
    (h : ¬ (recognize low input).TooDeep) :
    (recognize high input).tokens = (recognize low input).tokens ∧
      (recognize high input).outcome = (recognize low input).outcome := by
  obtain hlt | heq := Nat.lt_or_eq_of_le hle
  · cases deepened_recognize hlt input with
    | same _ htokens houtcome => exact ⟨htokens, houtcome⟩
    | further _ _ hdeep _ _ => exact absurd hdeep h
  · obtain ⟨levels, hlow⟩ := low
    obtain ⟨levels', hhigh⟩ := high
    obtain rfl : levels = levels' := heq
    exact ⟨rfl, rfl⟩

theorem valid_of_le (hle : low.levels ≤ high.levels)
    (h : (Verdict.evaluate low input).valid = true) :
    (Verdict.evaluate high input).valid = true := by
  have houtcome := (recognize_eq_of_not_tooDeep hle (not_tooDeep_of_valid h)).2
  unfold Verdict.evaluate Verdict.ofAttempt at h ⊢
  rw [houtcome]
  exact h

end

/-- The lower limit makes no difference or stops the recognition at a parenthesis or a minus sign,
where the higher one goes on. No limit is higher than the greatest one. -/
theorem recognize_under_higher_limit (n m : Nat) (h : n ≤ m) (input : Text) :
    let low := recognize (.ofNat n) input
    let high := recognize (.ofNat m) input
    (¬ low.TooDeep →
      Verdict.ofAttempt high = Verdict.ofAttempt low ∧ high.outcome = low.outcome) ∧
    (low.TooDeep → min n maxNesting < min m maxNesting → ∃ t more,
      high.tokens = low.tokens ++ t :: more ∧ (t.kind = .openParen ∨ t.kind = .minus)) ∧
    (min n maxNesting < min m maxNesting → (low.TooDeep ↔ low.tokens ≠ high.tokens)) ∧
    ((Verdict.evaluate (.ofNat n) input).valid = true →
      (Verdict.evaluate (.ofNat m) input).valid = true) ∧
    (∀ k, maxNesting ≤ k → recognize (.ofNat k) input = recognize .greatest input) ∧
    ∀ k, (Verdict.evaluate (.ofNat k) input).valid = true →
      (Verdict.evaluate .greatest input).valid = true := by
  intro low high
  have hle : min n maxNesting ≤ min m maxNesting := by omega
  have hsame : ¬ low.TooDeep → high.tokens = low.tokens ∧ high.outcome = low.outcome :=
    recognize_eq_of_not_tooDeep hle
  have hfurther : low.TooDeep → min n maxNesting < min m maxNesting → ∃ t more,
      high.tokens = low.tokens ++ t :: more ∧ (t.kind = .openParen ∨ t.kind = .minus) := by
    intro hdeep hlt
    have hdeepened : low.Deepened high := deepened_recognize hlt input
    cases hdeepened with
    | same hlow _ _ => exact absurd hdeep hlow
    | further t more _ ht htokens => exact ⟨t, more, htokens, ht⟩
  refine ⟨fun hlow => ?_, hfurther, fun hlt => ⟨fun hdeep heq => ?_, fun hne => ?_⟩,
    valid_of_le hle, fun k hk => by rw [NestingLimit.ofNat_of_le hk],
    fun k hk => valid_of_le (NestingLimit.ofNat k).levels_le hk⟩
  · obtain ⟨htokens, houtcome⟩ := hsame hlow
    exact ⟨by rw [Verdict.ofAttempt, Verdict.ofAttempt, htokens, houtcome], houtcome⟩
  · obtain ⟨t, more, htokens, -⟩ := hfurther hdeep hlt
    rw [← heq, List.self_eq_append_right] at htokens
    cases htokens
  · by_contra hlow
    exact hne (hsame hlow).1.symm

/-- A sign within a group has no room under the limit 1. -/
theorem recognize_under_higher_limit_of_sign_in_group :
    1 ≤ 2 ∧ (recognize (.ofNat 1) "2 * (x - -1.5)".toList).TooDeep ∧
      let low := recognize (.ofNat 1) "2 * (x - -1.5)".toList
      let high := recognize (.ofNat 2) "2 * (x - -1.5)".toList
      (¬ low.TooDeep →
        Verdict.ofAttempt high = Verdict.ofAttempt low ∧ high.outcome = low.outcome) ∧
      (low.TooDeep → min 1 maxNesting < min 2 maxNesting → ∃ t more,
        high.tokens = low.tokens ++ t :: more ∧ (t.kind = .openParen ∨ t.kind = .minus)) ∧
      (min 1 maxNesting < min 2 maxNesting → (low.TooDeep ↔ low.tokens ≠ high.tokens)) ∧
      ((Verdict.evaluate (.ofNat 1) "2 * (x - -1.5)".toList).valid = true →
        (Verdict.evaluate (.ofNat 2) "2 * (x - -1.5)".toList).valid = true) ∧
      (∀ k, maxNesting ≤ k → recognize (.ofNat k) "2 * (x - -1.5)".toList =
        recognize .greatest "2 * (x - -1.5)".toList) ∧
      ∀ k, (Verdict.evaluate (.ofNat k) "2 * (x - -1.5)".toList).valid = true →
        (Verdict.evaluate .greatest "2 * (x - -1.5)".toList).valid = true :=
  ⟨by decide, ⟨1, by decide +kernel⟩, recognize_under_higher_limit 1 2 (by decide) _⟩

end ArithGrammar
