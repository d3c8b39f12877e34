import ArithGrammar.Proofs.JoinedByOperator

/-!
# Texts in parentheses

A text that is put in parentheses is read as it is on its own with one level less: the two
parentheses stand around its tokens, the second one only if it is valid, and it is refused for the
same cause. Only the limit that is named in a refusal for want of room tells the two apart
(`Attempt.SameUnder`), as the place of the text does for the spans (`Attempt.Relocated`).
-/
namespace ArithGrammar
open Attempt Reading
open Text (byteLength)

/-- The failure as it is reported under the limit. -/
def Failure.under (limit : Nat) : Failure → Failure
  | .tooDeep _ => .tooDeep limit
  | .mismatch => .mismatch
  | .badSlice error => .badSlice error

/-- The second attempt is made under the limit, and otherwise the two do not differ. -/
structure Attempt.SameUnder {α : Type} (limit : Nat) (x y : Attempt α) : Prop where
  tokens : y.tokens = x.tokens
  outcome : y.outcome = x.outcome.mapError (Failure.under limit)

theorem congruence_sameUnder (limit : Nat) : Congruence fun _ x y => x.SameUnder limit y where
  refl {α x} h := by
    constructor
    · rfl
    · obtain ⟨tokens, trace, failure | a⟩ := x
      · cases failure with
        | tooDeep n => exact absurd ⟨n, rfl⟩ h
        | mismatch => rfl
        | badSlice error => rfl
      · rfl
  bind {α β x y f g} hxy hfg := by
    have houtcome := hxy.outcome
    cases hout : x.outcome with
    | error failure =>
        rw [hout] at houtcome
        have hf := bind_of_error hout f
        have hg := bind_of_error houtcome g
        constructor
        · rw [hf.1, hg.1, hxy.tokens]
        · rw [hf.2, hg.2]
          rfl
    | ok a =>
        rw [hout] at houtcome
        have hf := bind_of_ok hout f
        have hg := bind_of_ok houtcome g
        have ha := hfg a hout
        constructor
        · rw [hf.tokens, hg.tokens, hxy.tokens, ha.tokens]
        · rw [hf.outcome, hg.outcome, ha.outcome]

/-- Where there is the same room the limit makes no other difference. -/
theorem sameUnder_factor (n limit room : Nat) (v : View) :
    (factor n room v).SameUnder limit (factor limit room v) := by
  induction room generalizing v with
  | zero =>
      apply (congruence_sameUnder limit).operand
      · intro v s _
        exact ⟨rfl, rfl⟩
      · intro v s _
        exact ⟨rfl, rfl⟩
  | succ room ih =>
      apply (congruence_sameUnder limit).operand
      · intro v s _
        exact (congruence_sameUnder limit).group ih v
      · intro v s _
        exact (congruence_sameUnder limit).sign ih v

theorem sameUnder_recognize (limit : NestingLimit) (input : Text) :
    (recognize limit input).SameUnder limit.levels (recognize limit input) :=
  (congruence_sameUnder limit.levels).same_bind (not_tooDeep_trim _) fun v _ =>
    (congruence_sameUnder limit.levels).expression (sameUnder_factor _ _ _) v

/-- A failure is a mismatch, or want of room under the limit itself. -/
theorem failure_recognize {limit : NestingLimit} {input : Text} {failure : Failure}
    (h : (recognize limit input).outcome = .error failure) :
    failure = .mismatch ∨ failure = .tooDeep limit.levels := by
  cases failure with
  | mismatch => exact .inl rfl
  | tooDeep n =>
      have hsame := (sameUnder_recognize limit input).outcome
      rw [h] at hsame
      have hn := Except.error.inj hsame
      exact .inr hn
  | badSlice error =>
      obtain ⟨read, rest, -, -, -, hout⟩ := covers_recognize limit input
      rw [h] at hout
      exact absurd rfl (hout.2 error)

namespace Reading
variable {f : View → Attempt View} {v : View} {s : Text} {n m : Nat}

theorem behindFactor_of_nil (h : v.text = .ok []) : behindFactor f v = pure () := by
  have hempty : v.isEmpty = true := (View.isEmpty_iff h).mpr rfl
  rw [behindFactor, products_of_notAhead h CharSet.notAhead_nil, pure_bind,
    sums_of_notAhead h CharSet.notAhead_nil, pure_bind, if_pos hempty]

theorem reads_fromFactor_group (h : v.text = .ok ('(' :: (s ++ [')'])))
    (hclose : Literal.closing? (s ++ [')']) = some (byteLength s)) :
    (fromFactor (factor n (m + 1)) v).Reads [Token.placed v.start .openParen ['(']]
      (expression (factor n m) ((v.back (s ++ [')'])).splitAt (byteLength s)).1 >>= fun _ =>
        keep (Token.placed (v.start + 1 + byteLength s) .closeParen [')'])) := by
  have hrest := View.text_back_cons h
  have hlast := View.text_back hrest
  have hstart := View.start_back hrest
  rw [View.back_back] at hlast hstart
  rw [View.start_back_cons h] at hstart
  have hgroup := (reads_operand_open (g := sign (factor n m)) h).trans
    (reads_group (f := factor n m) h hclose)
  have hfrom := hgroup.bind fun w => trim w >>= behindFactor (factor n (m + 1))
  rw [bind_assoc] at hfrom
  refine hfrom.tail ?_
  apply congruence_reads.bind (.refl _)
  intro _ _
  have hend := View.text_back_cons hlast
  have hparen := reads_char hlast rfl .closeParen
  rw [show (v.back [')']).start = v.start + 1 + byteLength s from hstart] at hparen
  have hkeep : (keep (Token.placed (v.start + 1 + byteLength s) .closeParen [')'])).Reads
      [Token.placed (v.start + 1 + byteLength s) .closeParen [')']] (pure ()) := ⟨rfl, rfl⟩
  apply hparen.bind_pure.of_tail hkeep
  rw [trim_eq_pure hend, pure_bind, behindFactor_of_nil (View.text_trimmed hend)]
  exact .refl _

end Reading

section
variable {limit limit' : NestingLimit} {a : Text} {failure : Failure} {room : Nat}

/-- A text in parentheses is read as an expression within them, with one level less of room. -/
theorem reads_recognize_group (hlimit : limit.levels = room + 1)
    (ha : Literal.closing? (a ++ [')']) = some (byteLength a)) :
    ∃ inner : View, inner.Stands 1 a ∧
      (recognize limit ('(' :: (a ++ [')']))).Reads [Token.placed 0 .openParen ['(']]
        (expression (factor limit.levels room) inner >>= fun _ =>
          keep (Token.placed (1 + byteLength a) .closeParen [')'])) := by
  have hwhole := View.text_whole ('(' :: (a ++ [')']))
  have hsolid : CharSet.blank.NotAhead ('(' :: (a ++ [')'])) := CharSet.notAhead_cons.mpr rfl
  have hends : Text.EndsSolid ('(' :: (a ++ [')'])) := by
    simp [Text.EndsSolid, List.getLast?_cons, CharSet.contains]
  have htrimmed : (View.whole ('(' :: (a ++ [')']))).trimmed = View.whole ('(' :: (a ++ [')'])) := by
    rw [View.trimmed_eq_back hwhole hends, CharSet.afterRun_eq_self hsolid, View.back_self hwhole]
  have hexpression := reads_expression_factor (f := factor limit.levels limit.levels) hwhole
  have hgroup := reads_fromFactor_group (n := limit.levels) (m := room) hwhole ha
  rw [htrimmed] at hexpression
  rw [← hlimit] at hgroup
  rw [recognize, trim_eq_pure hwhole, pure_bind, htrimmed]
  exact ⟨_, (View.Stands.whole _).back_cons.splitAt_fst, hexpression.trans hgroup⟩

/-- Within the parentheses the text is read as it is on its own under the next lower limit. -/
theorem recognize_grouped (hlimit : limit.levels = limit'.levels + 1)
    (ha : Literal.closing? (a ++ [')']) = some (byteLength a)) :
    ∃ x : Attempt Unit,
      (recognize limit ('(' :: (a ++ [')']))).Reads [Token.placed 0 .openParen ['(']]
        (x >>= fun _ => keep (Token.placed (1 + byteLength a) .closeParen [')'])) ∧
      x.tokens = (recognize limit' a).tokens.map (Token.shift 1) ∧
      x.outcome = (recognize limit' a).outcome.mapError (Failure.under limit.levels) := by
  obtain ⟨inner, hinner, hreads⟩ := reads_recognize_group hlimit ha
  have hown := View.text_whole a
  have hsame : (recognize limit' a).SameUnder limit.levels
      (trim (View.whole a) >>= expression (factor limit.levels limit'.levels)) :=
    (congruence_sameUnder limit.levels).same_bind (not_tooDeep_trim _) fun v _ =>
      (congruence_sameUnder limit.levels).expression (sameUnder_factor _ _ _) v
  have hplace : (View.whole a).Relocated 1 inner :=
    ⟨a, hown, hinner.text_eq, fun _ => hinner.start_eq⟩
  have hmoved : (trim (View.whole a) >>= expression (factor limit.levels limit'.levels)).Relocated 1
      (fun _ _ => True) (expression (factor limit.levels limit'.levels) inner) := by
    rw [trim_eq_pure hown, pure_bind]
    apply relocated_expression_of_trimmed (local_factor _ _) (View.text_trimmed hown) hinner.text_eq
    rw [View.trimmed_trimmed hown]
    exact hplace.trimmed hown
  refine ⟨_, hreads, ?_, ?_⟩
  · rw [hmoved.tokens, hsame.tokens]
  · rw [hmoved.outcome_eq, hsame.outcome]

theorem recognize_grouped_of_ok (hlimit : limit.levels = limit'.levels + 1)
    (ha : Literal.closing? (a ++ [')']) = some (byteLength a))
    (h : (recognize limit' a).outcome = .ok ()) :
    (recognize limit ('(' :: (a ++ [')']))).tokens = Token.placed 0 .openParen ['('] ::
        ((recognize limit' a).tokens.map (Token.shift 1) ++
          [Token.placed (1 + byteLength a) .closeParen [')']]) ∧
      (recognize limit ('(' :: (a ++ [')']))).outcome = .ok () := by
  obtain ⟨x, hreads, htokens, houtcome⟩ := recognize_grouped hlimit ha
  rw [h] at houtcome
  have hclose := bind_of_ok houtcome fun _ =>
    keep (Token.placed (1 + byteLength a) .closeParen [')'])
  constructor
  · rw [hreads.tokens, hclose.tokens, htokens]
    rfl
  · rw [hreads.outcome, hclose.outcome]
    rfl

theorem recognize_grouped_of_error (hlimit : limit.levels = limit'.levels + 1)
    (ha : Literal.closing? (a ++ [')']) = some (byteLength a))
    (h : (recognize limit' a).outcome = .error failure) :
    (recognize limit ('(' :: (a ++ [')']))).tokens =
        Token.placed 0 .openParen ['('] :: (recognize limit' a).tokens.map (Token.shift 1) ∧
      (recognize limit ('(' :: (a ++ [')']))).outcome =
        .error (failure.under limit.levels) := by
  obtain ⟨x, hreads, htokens, houtcome⟩ := recognize_grouped hlimit ha
  rw [h] at houtcome
  have hfail := bind_of_error houtcome fun _ =>
    keep (Token.placed (1 + byteLength a) .closeParen [')'])
  constructor
  · rw [hreads.tokens, hfail.1, htokens]
    rfl
  · rw [hreads.outcome, hfail.2]

end

/-- The whole is valid under a limit if the text between the parentheses is under the next lower
one, and otherwise both are refused for the same cause. -/
theorem evaluate_grouped (n : Nat) (a : Text) (hpos : 1 ≤ n) (hle : n ≤ maxNesting)
    (ha : Literal.closing? (a ++ [')']) = some (byteLength a)) :
    let inner := Verdict.evaluate (.ofNat (n - 1)) a
    let grouped := Verdict.evaluate (.ofNat n) ('(' :: (a ++ [')']))
    let ending := (recognize (.ofNat (n - 1)) a).outcome
    let ending' := (recognize (.ofNat n) ('(' :: (a ++ [')']))).outcome
    grouped.valid = inner.valid ∧
    grouped.tokens = ⟨.openParen, ['('], ⟨0, 1⟩⟩ :: (inner.tokens.map (Token.shift 1) ++
      if inner.valid then [⟨.closeParen, [')'], ⟨byteLength a + 1, byteLength a + 2⟩⟩] else []) ∧
    (ending = .ok () ∧ ending' = .ok () ∨
      ending = .error .mismatch ∧ ending' = .error .mismatch ∨
      ending = .error (.tooDeep (n - 1)) ∧ ending' = .error (.tooDeep n)) := by
  have hlevels : (NestingLimit.ofNat n).levels = n := Nat.min_eq_left hle
  have hlevels' : (NestingLimit.ofNat (n - 1)).levels = n - 1 := Nat.min_eq_left (by omega)
  have hlimit : (NestingLimit.ofNat n).levels = (NestingLimit.ofNat (n - 1)).levels + 1 := by omega
  have hspan : Token.placed (1 + byteLength a) .closeParen [')'] =
      ⟨.closeParen, [')'], ⟨byteLength a + 1, byteLength a + 2⟩⟩ := by
    rw [Nat.add_comm]
    rfl
  unfold Verdict.evaluate Verdict.ofAttempt
  cases hout : (recognize (.ofNat (n - 1)) a).outcome with
  | ok u =>
      obtain ⟨htokens, houtcome⟩ := recognize_grouped_of_ok hlimit ha hout
      rw [htokens, houtcome, hspan]
      exact ⟨rfl, rfl, .inl ⟨rfl, rfl⟩⟩
  | error failure =>
      obtain ⟨htokens, houtcome⟩ := recognize_grouped_of_error hlimit ha hout
      rw [htokens, houtcome, hlevels]
      refine ⟨rfl, congrArg (List.cons _) (List.append_nil _).symm, .inr ?_⟩
      obtain rfl | rfl := failure_recognize hout
      · exact .inl ⟨rfl, rfl⟩
      · rw [hlevels']
        exact .inr ⟨rfl, rfl⟩

/-- The group behind the sign has no room on its own under the limit 1, nor in a group under 2. -/
theorem evaluate_grouped_of_tooDeep :
    1 ≤ 2 ∧ 2 ≤ maxNesting ∧
      Literal.closing? (" x+ -(2) ".toList ++ [')']) = some (byteLength " x+ -(2) ".toList) ∧
      let inner := Verdict.evaluate (.ofNat (2 - 1)) " x+ -(2) ".toList
      let grouped := Verdict.evaluate (.ofNat 2) ('(' :: (" x+ -(2) ".toList ++ [')']))
      let ending := (recognize (.ofNat (2 - 1)) " x+ -(2) ".toList).outcome
      let ending' := (recognize (.ofNat 2) ('(' :: (" x+ -(2) ".toList ++ [')']))).outcome
      grouped.valid = inner.valid ∧
      grouped.tokens = ⟨.openParen, ['('], ⟨0, 1⟩⟩ :: (inner.tokens.map (Token.shift 1) ++
        if inner.valid then [⟨.closeParen, [')'], ⟨byteLength " x+ -(2) ".toList + 1,
          byteLength " x+ -(2) ".toList + 2⟩⟩] else []) ∧
      (ending = .ok () ∧ ending' = .ok () ∨
        ending = .error .mismatch ∧ ending' = .error .mismatch ∨
        ending = .error (.tooDeep (2 - 1)) ∧ ending' = .error (.tooDeep 2)) := by
  have hclose : Literal.closing? (" x+ -(2) ".toList ++ [')']) =
      some (byteLength " x+ -(2) ".toList) := by decide +kernel
  exact ⟨by decide, by decide, hclose, evaluate_grouped 2 _ (by decide) (by decide) hclose⟩

end ArithGrammar
