import ArithGrammar.Proofs.NestingLimits
import ArithGrammar.Session

/-!
# The verdicts of a session stand on their own

Of all that happens in a session, a verdict depends only on its text and on the limit in force,
which is the last one chosen. A verdict is numbered by the texts evaluated in front of it, and
nothing that comes later changes it. Questions about verdicts leave the session as it is, so one
that cannot be answered is like no question at all (`run_independent`). Two verdicts on one text
have the same tokens only if they are the same, whatever the limits were
(`Verdict.eq_of_tokens_eq`).
-/
namespace ArithGrammar

namespace SessionStep

/-- The limit that the step puts in force, if it chooses one. -/
def chosen? : SessionStep → Option NestingLimit
  | limit n => some (.ofNat n)
  | greatest => some .greatest
  | evaluate _ | token _ _ | compare _ _ => none

def input? : SessionStep → Option Text
  | evaluate input => some input
  | limit _ | greatest | token _ _ | compare _ _ => none

def inputs (steps : List SessionStep) : List Text := steps.filterMap input?

end SessionStep

/-- Under two limits a text gets the same tokens only along with the same verdict. -/
theorem Verdict.eq_of_tokens_eq {limit limit' : NestingLimit} {input : Text}
    (h : (evaluate limit input).tokens = (evaluate limit' input).tokens) :
    evaluate limit input = evaluate limit' input := by
  wlog hle : limit.levels ≤ limit'.levels generalizing limit limit'
  · exact (this h.symm (Nat.le_of_not_le hle)).symm
  by_cases hdeep : (recognize limit input).TooDeep
  · obtain hlt | heq := Nat.lt_or_eq_of_le hle
    · -- the higher limit goes on with a token that the lower one has no room for
      cases deepened_recognize hlt input with
      | same hnot _ _ => exact absurd hdeep hnot
      | further t more _ _ htokens =>
          have hself : (recognize limit input).tokens =
              (recognize limit input).tokens ++ t :: more := h.trans htokens
          rw [List.self_eq_append_right] at hself
          cases hself
    · obtain ⟨levels, hlevels⟩ := limit
      obtain ⟨levels', hlevels'⟩ := limit'
      obtain rfl : levels = levels' := heq
      rfl
  · obtain ⟨htokens, houtcome⟩ := recognize_eq_of_not_tooDeep hle hdeep
    rw [evaluate, evaluate, ofAttempt, ofAttempt, htokens, houtcome]

namespace Session
variable {s : Session} {front behind : List SessionStep} {x : SessionStep}

/-- The limit in force behind the steps, the one at the start if none of them chooses. -/
def limitBehind (start : NestingLimit) (steps : List SessionStep) : NestingLimit :=
  (steps.filterMap SessionStep.chosen?).getLast?.getD start

/-- Two stored verdicts are compared, and the part of the answer asked for is yes. -/
def Agree (s : Session) (part : Comparison → Bool) (a b : Nat) : Prop :=
  ∃ c, (s.step (.compare a b)).1 = .comparison c ∧ part c = true

/-- What a step leaves: the limit that it chooses, and its verdict behind those there are. -/
theorem snd_step (s : Session) (x : SessionStep) :
    (s.step x).2 = ⟨x.chosen?.getD s.limit,
      s.verdicts ++ (x.input?.map (Verdict.evaluate s.limit)).toList⟩ := by
  cases x with
  | limit n => exact congrArg (Session.mk _) (List.append_nil _).symm
  | greatest => exact congrArg (Session.mk _) (List.append_nil _).symm
  | evaluate input => rfl
  | token verdict index =>
      have hsame : (s.step (.token verdict index)).2 = s := by
        rw [step]
        split <;> rfl
      exact hsame.trans (congrArg (Session.mk s.limit) (List.append_nil _).symm)
  | compare left right =>
      have hsame : (s.step (.compare left right)).2 = s := by
        rw [step]
        split <;> rfl
      exact hsame.trans (congrArg (Session.mk s.limit) (List.append_nil _).symm)

theorem snd_step_question (hchosen : x.chosen? = none) (hinput : x.input? = none) :
    (s.step x).2 = s := by
  rw [snd_step, hchosen, hinput]
  exact congrArg (Session.mk s.limit) (List.append_nil _)

theorem fst_step_token {k : Nat} {v : Verdict} (hv : s.verdicts[k]? = some v) (i : Nat) :
    (s.step (.token k i)).1 = (v.tokens[i]?).elim .missing .token := by
  rw [step, hv, Option.bind_some]
  cases v.tokens[i]? <;> rfl

theorem agree_iff {part : Comparison → Bool} {a b : Nat} {u v : Verdict}
    (hu : s.verdicts[a]? = some u) (hv : s.verdicts[b]? = some v) :
    s.Agree part a b ↔ part (compare u v) = true := by
  have hstep : (s.step (.compare a b)).1 = .comparison (compare u v) := by
    rw [step, hu, hv]
  rw [Agree, hstep]
  constructor
  · rintro ⟨c, hc, hpart⟩
    rwa [SessionResult.comparison.inj hc]
  · exact fun hpart => ⟨_, rfl, hpart⟩

/-- Only stored verdicts are compared. -/
theorem Agree.exists_verdicts {part : Comparison → Bool} {a b : Nat} (h : s.Agree part a b) :
    ∃ u v, s.verdicts[a]? = some u ∧ s.verdicts[b]? = some v := by
  obtain ⟨c, hstep, -⟩ := h
  rw [step] at hstep
  split at hstep
  · exact ⟨_, _, ‹_›, ‹_›⟩
  · cases hstep

/-- A part of the answers that tells whether something about the verdicts is equal. -/
theorem equivalence_agree {α : Type} {part : Comparison → Bool} (f : Verdict → α)
    (hpart : ∀ u v, part (compare u v) = true ↔ f u = f v) (s : Session) :
    Equivalence fun a b : Fin s.verdicts.length => s.Agree part a b := by
  have hiff (a b : Fin s.verdicts.length) :
      s.Agree part a b ↔ f s.verdicts[a] = f s.verdicts[b] :=
    (agree_iff (List.getElem?_eq_getElem a.isLt) (List.getElem?_eq_getElem b.isLt)).trans
      (hpart _ _)
  refine ⟨fun a => (hiff a a).mpr rfl, fun {a b} hab => ?_, fun {a b c} hab hbc => ?_⟩
  · exact (hiff b a).mpr ((hiff a b).mp hab).symm
  · exact (hiff a c).mpr (((hiff a b).mp hab).trans ((hiff b c).mp hbc))

theorem compare_verdicts (u v : Verdict) : (compare u v).verdicts = true ↔ u = v :=
  decide_eq_true_iff

theorem compare_tokens (u v : Verdict) : (compare u v).tokens = true ↔ u.tokens = v.tokens :=
  decide_eq_true_iff

theorem Agree.tokens {a b : Nat} (h : s.Agree Comparison.verdicts a b) :
    s.Agree Comparison.tokens a b := by
  obtain ⟨u, v, hu, hv⟩ := h.exists_verdicts
  rw [agree_iff hu hv, compare_verdicts] at h
  rw [agree_iff hu hv, compare_tokens, h]

theorem limitBehind_cons (start : NestingLimit) (x : SessionStep) (steps : List SessionStep) :
    limitBehind start (x :: steps) = limitBehind (x.chosen?.getD start) steps := by
  rw [limitBehind, limitBehind, List.filterMap_cons]
  cases x.chosen? with
  | none => rfl
  | some limit => rw [List.getLast?_cons, Option.getD_some, Option.getD_some]

theorem limit_run (s : Session) (steps : List SessionStep) :
    (s.run steps).2.limit = limitBehind s.limit steps := by
  induction steps generalizing s with
  | nil => rfl
  | cons x steps ih => rw [run, ih, snd_step, limitBehind_cons]

theorem verdicts_run_prefix (s : Session) (steps : List SessionStep) :
    s.verdicts <+: (s.run steps).2.verdicts := by
  induction steps generalizing s with
  | nil => exact List.prefix_rfl
  | cons x steps ih =>
      have hstep : s.verdicts <+: (s.step x).2.verdicts := by
        rw [snd_step]
        exact List.prefix_append _ _
      exact hstep.trans (ih (s.step x).2)

/-- A stored verdict is found under its number ever after. -/
theorem verdicts_run_kept {a : Nat} {v : Verdict} (hv : s.verdicts[a]? = some v)
    (steps : List SessionStep) : (s.run steps).2.verdicts[a]? = some v := by
  obtain ⟨more, hkept⟩ := s.verdicts_run_prefix steps
  obtain ⟨ha, -⟩ := List.getElem?_eq_some_iff.mp hv
  rw [← hkept, List.getElem?_append_left ha, hv]

theorem length_verdicts_run (s : Session) (steps : List SessionStep) :
    (s.run steps).2.verdicts.length =
      s.verdicts.length + (SessionStep.inputs steps).length := by
  induction steps generalizing s with
  | nil => rfl
  | cons x steps ih =>
      rw [run, ih, snd_step, SessionStep.inputs, SessionStep.inputs, List.filterMap_cons,
        List.length_append, Nat.add_assoc]
      cases x.input? with
      | none => exact congrArg _ (Nat.zero_add _)
      | some input => exact congrArg _ (Nat.add_comm _ _)

/-- The verdict on a text is numbered by the texts in front of it and is kept to the end. -/
theorem verdicts_run_evaluate (limit : NestingLimit) (front behind : List SessionStep)
    (input : Text) :
    ((start limit).run (front ++ .evaluate input :: behind)).2.verdicts[
      (SessionStep.inputs front).length]? =
        some (.evaluate (limitBehind limit front) input) := by
  have hlength : ((start limit).run front).2.verdicts.length =
      (SessionStep.inputs front).length := by
    rw [length_verdicts_run, start, List.length_nil, Nat.zero_add]
  have hlimit : ((start limit).run front).2.limit = limitBehind limit front := limit_run _ _
  rw [run_append]
  generalize (start limit).run front = r at hlength hlimit
  rw [run]
  refine verdicts_run_kept ?_ behind
  rw [snd_step, ← hlength, ← hlimit, List.getElem?_append_right (Nat.le_refl _), Nat.sub_self]
  rfl

theorem snd_run_append (s : Session) (front behind : List SessionStep) :
    (s.run (front ++ behind)).2 = ((s.run front).2.run behind).2 := by
  rw [run_append]

theorem length_results (s : Session) (steps : List SessionStep) :
    (s.run steps).1.length = steps.length := by
  induction steps generalizing s with
  | nil => rfl
  | cons x steps ih => rw [run, List.length_cons, ih, List.length_cons]

theorem result_run (s : Session) (front behind : List SessionStep) (x : SessionStep) :
    (s.run (front ++ x :: behind)).1[front.length]? = some ((s.run front).2.step x).1 := by
  rw [run_append, List.getElem?_append_right (s.length_results front).le, length_results,
    Nat.sub_self]
  rfl

/-- Without a question all other results are the same, and so is the session in the end. -/
theorem run_without_question (hchosen : x.chosen? = none) (hinput : x.input? = none) :
    s.run (front ++ behind) = ((s.run (front ++ x :: behind)).1.eraseIdx front.length,
      (s.run (front ++ x :: behind)).2) := by
  rw [run_append, run_append s front (x :: behind), run, snd_step_question hchosen hinput,
    List.eraseIdx_append_of_length_le (s.length_results front).le, length_results, Nat.sub_self]
  rfl

theorem exists_evaluate_of_input {steps : List SessionStep} {a : Nat} {input : Text}
    (h : (SessionStep.inputs steps)[a]? = some input) :
    ∃ front behind, steps = front ++ .evaluate input :: behind ∧
      (SessionStep.inputs front).length = a := by
  induction steps generalizing a with
  | nil => cases h
  | cons x steps ih =>
      cases hx : x.input? with
      | none =>
          rw [SessionStep.inputs, List.filterMap_cons_none hx] at h
          obtain ⟨front, behind, rfl, hlength⟩ := ih h
          refine ⟨x :: front, behind, rfl, ?_⟩
          rw [SessionStep.inputs, List.filterMap_cons_none hx]
          exact hlength
      | some other =>
          rw [SessionStep.inputs, List.filterMap_cons_some hx] at h
          cases a with
          | zero =>
              rw [List.getElem?_cons_zero, Option.some.injEq] at h
              subst h
              refine ⟨[], steps, ?_, rfl⟩
              cases x <;> cases hx
              rfl
          | succ a =>
              obtain ⟨front, behind, rfl, hlength⟩ := ih h
              refine ⟨x :: front, behind, rfl, ?_⟩
              rw [SessionStep.inputs, List.filterMap_cons_some hx, List.length_cons]
              exact congrArg (· + 1) hlength

/-- What a step of a session answers and leaves depends on the steps in front of it only by the
limit in force and by the verdicts they reached. Each verdict is that of its text alone under this
limit and is kept as it is. A question about a token is without an answer just where the verdict has
no such token, and nothing else changes if it is left out. To be the same is an equivalence on the
stored verdicts, and so is to have the same tokens, which is implied, and which implies it where the
text is the same. -/
theorem run_independent (limit : NestingLimit) (steps : List SessionStep) :
    let session := start limit
    let results := (session.run steps).1
    let last := (session.run steps).2
    let same := last.Agree Comparison.verdicts
    let sameTokens := last.Agree Comparison.tokens
    (∀ front input behind, steps = front ++ .evaluate input :: behind →
      let verdict := Verdict.evaluate (limitBehind limit front) input
      results[front.length]? = some (.verdict verdict) ∧
        last.verdicts[(SessionStep.inputs front).length]? = some verdict) ∧
    last.verdicts.length = (SessionStep.inputs steps).length ∧
    (∀ front behind, steps = front ++ behind →
      (session.run front).2.verdicts <+: last.verdicts) ∧
    (∀ front k i behind, steps = front ++ .token k i :: behind →
      (∀ v, (session.run front).2.verdicts[k]? = some v →
        (results[front.length]? = some .missing ↔ v.tokens.length ≤ i) ∧
        ∀ t, results[front.length]? = some (.token t) ↔ v.tokens[i]? = some t) ∧
      session.run (front ++ behind) = (results.eraseIdx front.length, last)) ∧
    (∀ front a b behind, steps = front ++ .compare a b :: behind → ∀ u v,
      (session.run front).2.verdicts[a]? = some u → (session.run front).2.verdicts[b]? = some v →
      ∃ c, results[front.length]? = some (.comparison c) ∧
        (c.verdicts = true ↔ same a b) ∧ (c.tokens = true ↔ sameTokens a b)) ∧
    (Equivalence fun a b : Fin last.verdicts.length => same a b) ∧
    (Equivalence fun a b : Fin last.verdicts.length => sameTokens a b) ∧
    (∀ a b, same a b → sameTokens a b) ∧
    ∀ a b input, (SessionStep.inputs steps)[a]? = some input →
      (SessionStep.inputs steps)[b]? = some input → (sameTokens a b ↔ same a b) := by
  intro session results last same sameTokens
  refine ⟨?_, ?_, ?_, ?_, ?_, equivalence_agree id compare_verdicts last,
    equivalence_agree Verdict.tokens compare_tokens last, fun a b => Agree.tokens, ?_⟩
  · rintro front input behind rfl
    have hlimit : (session.run front).2.limit = limitBehind limit front := limit_run _ _
    refine ⟨?_, verdicts_run_evaluate limit front behind input⟩
    rw [← hlimit]
    exact result_run session front behind _
  · exact (length_verdicts_run session steps).trans (Nat.zero_add _)
  · rintro front behind rfl
    have hlast : last = ((session.run front).2.run behind).2 :=
      snd_run_append session front behind
    rw [hlast]
    exact verdicts_run_prefix _ behind
  · rintro front k i behind rfl
    refine ⟨fun v hv => ?_, run_without_question rfl rfl⟩
    have hresult : results[front.length]? = some ((v.tokens[i]?).elim .missing .token) := by
      rw [← fst_step_token hv i]
      exact result_run session front behind _
    rw [hresult, ← List.getElem?_eq_none_iff]
    cases v.tokens[i]? with
    | none => simp
    | some t => simp
  · rintro front a b behind rfl u v hu hv
    have hanswer : ((session.run front).2.step (.compare a b)).1 = .comparison (compare u v) := by
      rw [step, hu, hv]
    have hlast : last = ((session.run front).2.run (.compare a b :: behind)).2 :=
      snd_run_append session front _
    have hu' : last.verdicts[a]? = some u := by
      rw [hlast]
      exact verdicts_run_kept hu _
    have hv' : last.verdicts[b]? = some v := by
      rw [hlast]
      exact verdicts_run_kept hv _
    refine ⟨compare u v, ?_, (agree_iff hu' hv').symm, (agree_iff hu' hv').symm⟩
    rw [← hanswer]
    exact result_run session front behind _
  · intro a b input ha hb
    obtain ⟨front, behind, rfl, rfl⟩ := exists_evaluate_of_input ha
    have hu := verdicts_run_evaluate limit front behind input
    obtain ⟨front', behind', hsteps, rfl⟩ := exists_evaluate_of_input hb
    have hv := verdicts_run_evaluate limit front' behind' input
    rw [← hsteps] at hv
    have hsame := (agree_iff hu hv).trans (compare_verdicts _ _)
    have htokens := (agree_iff hu hv).trans (compare_tokens _ _)
    refine htokens.trans (Iff.trans ?_ hsame.symm)
    exact ⟨Verdict.eq_of_tokens_eq, congrArg Verdict.tokens⟩

end Session

end ArithGrammar
