import ArithGrammar.Proofs.Completion
import ArithGrammar.Proofs.NestingLimits
import ArithGrammar.Proofs.OpenStack

/-!
# Nesting as the tokens show it

The room of a rule and the height of the stack of what its tokens have open are two ways to count the
same: where a factor may open `room` more groups and signs, the stack may grow by `room`, and at the
end of the factor all that it opened is closed again (`Attempt.Nests`). So the stack never grows beyond
the limit, it is as high as the limit where room was wanting, and the greatest height it reaches is the
least limit under which a valid text is accepted (`openAfter_recognize`). The empty group behind an
operator stands outside of this count, since it is read without asking for room.
-/
namespace ArithGrammar
open Attempt Reading
open Text (dropBytes?)

namespace Attempt
variable {α β : Type} {limit : Nat} {st st' st'' : List Opened} {x : Attempt α} {kind : TokenKind}

theorem eq_ok_of_ofSlice {s : Except Text.SliceError α} {a : α}
    (h : (ofSlice s).outcome = .ok a) : s = .ok a := by
  cases s with
  | error e => cases h
  | ok b =>
      obtain rfl : b = a := Except.ok.inj h
      rfl

/-- With `st` open, a success leaves `st'` open, and a failure for want of room as much as the limit
allows. On the way there is never more, except within an empty group that is refused. -/
structure Nests (limit : Nat) (st st' : List Opened) (x : Attempt α) : Prop where
  ok : ∀ a, x.outcome = .ok a → Opened.run st (x.tokens.map Token.kind) = some st'
  full : x.TooDeep →
    ∃ top, Opened.run st (x.tokens.map Token.kind) = some top ∧ top.length = limit
  within : ∃ kept pair, x.tokens = kept ++ pair ∧ Opened.Within limit st (kept.map Token.kind) ∧
    (pair = [] ∨ x.outcome = .error .mismatch ∧
      ∃ y z, pair = [y, z] ∧ y.kind = .openParen ∧ z.kind = .closeParen)

namespace Nests

theorem silent (h : st.length ≤ limit) (htokens : x.tokens = []) (hx : ¬ x.TooDeep) :
    x.Nests limit st st := by
  constructor
  · intro _ _
    rw [htokens]
    rfl
  · exact fun hdeep => absurd hdeep hx
  · exact ⟨[], [], htokens, .nil h, .inl rfl⟩

theorem pure (h : st.length ≤ limit) (a : α) : (pure a : Attempt α).Nests limit st st :=
  silent h rfl (not_tooDeep_pure a)

theorem ofSlice (h : st.length ≤ limit) (s : Except Text.SliceError α) :
    (ofSlice s).Nests limit st st :=
  silent h rfl (not_tooDeep_ofSlice s)

theorem enter (h : st.length ≤ limit) (rule : Rule) (v : View) :
    (enter rule v).Nests limit st st :=
  silent h rfl (not_tooDeep_enter rule v)

theorem mismatch (h : st.length ≤ limit) :
    (fail .mismatch : Attempt α).Nests limit st st' := by
  constructor
  · exact nofun
  · exact fun hdeep => absurd hdeep not_tooDeep_mismatch
  · exact ⟨[], [], rfl, .nil h, .inl rfl⟩

theorem tooDeep (n : Nat) (h : st.length = limit) :
    (fail (.tooDeep n) : Attempt α).Nests limit st st' := by
  constructor
  · exact nofun
  · exact fun _ => ⟨st, rfl, h⟩
  · exact ⟨[], [], rfl, .nil h.le, .inl rfl⟩

theorem read (hstep : Opened.step st kind = some st') (h : st.length ≤ limit)
    (h' : st'.length ≤ limit) (len : Nat) (v : View) : (read kind len v).Nests limit st st' := by
  unfold Attempt.read View.take
  cases (v.splitAt len).1.text with
  | error e =>
      constructor
      · exact nofun
      · rintro ⟨n, hn⟩
        cases hn
      · exact ⟨[], [], rfl, .nil h, .inl rfl⟩
  | ok s =>
      constructor
      · intro _ _
        change (Opened.step st kind).bind _ = _
        rw [hstep]
        rfl
      · rintro ⟨n, hn⟩
        cases hn
      · exact ⟨_, [], (List.append_nil _).symm, .single hstep h h', .inl rfl⟩

theorem bind {f : α → Attempt β} (hx : x.Nests limit st st')
    (hf : ∀ a, x.outcome = .ok a → (f a).Nests limit st' st'') :
    (x >>= f).Nests limit st st'' := by
  obtain ⟨kept, pair, htokens, hkept, hpair⟩ := hx.within
  cases hout : x.outcome with
  | error failure =>
      obtain ⟨hbind, houtcome⟩ := bind_of_error hout f
      constructor
      · rw [houtcome]
        exact nofun
      · rintro ⟨n, hn⟩
        obtain rfl : failure = .tooDeep n := Except.error.inj (houtcome.symm.trans hn)
        rw [hbind]
        exact hx.full ⟨n, hout⟩
      · refine ⟨kept, pair, by rw [hbind, htokens], hkept, ?_⟩
        rcases hpair with hnil | ⟨hmismatch, hkinds⟩
        · exact .inl hnil
        · obtain rfl : failure = .mismatch := Except.error.inj (hout.symm.trans hmismatch)
          exact .inr ⟨houtcome, hkinds⟩
  | ok a =>
      obtain ⟨hbind, houtcome⟩ := bind_of_ok hout f
      have hrun := hx.ok a hout
      have ha := hf a hout
      have hbehind (ks : List TokenKind) :
          Opened.run st (x.tokens.map Token.kind ++ ks) = Opened.run st' ks := by
        rw [Opened.run_append, hrun, Option.bind_some]
      constructor
      · intro b hb
        rw [hbind, List.map_append, hbehind]
        exact ha.ok b (houtcome.symm.trans hb)
      · rintro ⟨n, hn⟩
        rw [hbind, List.map_append, hbehind]
        exact ha.full ⟨n, houtcome.symm.trans hn⟩
      · obtain ⟨more, pair', htokens', hmore, hpair'⟩ := ha.within
        have hnil : pair = [] := by
          rcases hpair with hnil | ⟨hmismatch, -⟩
          · exact hnil
          · rw [hout] at hmismatch
            cases hmismatch
        rw [hnil, List.append_nil] at htokens
        subst htokens
        refine ⟨x.tokens ++ more, pair', by rw [hbind, htokens', List.append_assoc], ?_, ?_⟩
        · rw [List.map_append]
          exact hkept.append hrun hmore
        · rwa [houtcome]

theorem exists_run {front behind : List Token} (h : x.Nests limit st st')
    (hsplit : x.tokens = front ++ behind) :
    ∃ top, Opened.run st (front.map Token.kind) = some top ∧ (top.length ≤ limit ∨
      x.outcome = .error .mismatch ∧ ∃ kept y z, front = kept ++ [y] ∧ behind = [z] ∧
        y.kind = .openParen ∧ z.kind = .closeParen) := by
  obtain ⟨kept, pair, htokens, hkept, hpair⟩ := h.within
  rw [htokens] at hsplit
  rcases List.append_eq_append_iff.mp hsplit with ⟨more, rfl, rfl⟩ | ⟨more, rfl, -⟩
  · obtain ⟨top, htop, hle⟩ := hkept.exists_run_le
    rw [List.map_append, Opened.run_append, htop, Option.bind_some]
    rcases hpair with hnil | ⟨hmismatch, y, z, hyz, hy, hz⟩
    · obtain ⟨rfl, -⟩ := List.append_eq_nil_iff.mp hnil
      exact ⟨top, rfl, .inl hle⟩
    · cases more with
      | nil => exact ⟨top, rfl, .inl hle⟩
      | cons u more =>
          obtain ⟨rfl, hz'⟩ := List.cons.inj hyz
          cases more with
          | nil =>
              refine ⟨.group :: top, ?_, .inr ⟨hmismatch, kept, u, z, rfl, hz', hy, hz⟩⟩
              rw [List.map_singleton, hy]
              rfl
          | cons w more =>
              obtain ⟨rfl, hnil⟩ := List.cons.inj hz'
              obtain ⟨rfl, -⟩ := List.append_eq_nil_iff.mp hnil
              refine ⟨Opened.endSigns top, ?_, .inl ((Opened.length_endSigns_le top).trans hle)⟩
              rw [List.map_cons, List.map_singleton, hy, hz]
              rfl
  · rw [List.map_append] at hkept
    obtain ⟨top, htop, hle⟩ := hkept.of_append
    exact ⟨top, htop, .inl hle⟩

theorem within_of_ok {a : α} (h : x.Nests limit st st') (hout : x.outcome = .ok a) :
    Opened.Within limit st (x.tokens.map Token.kind) := by
  obtain ⟨kept, pair, htokens, hkept, hnil | ⟨hmismatch, -⟩⟩ := h.within
  · rw [hnil, List.append_nil] at htokens
    rwa [htokens]
  · rw [hout] at hmismatch
    cases hmismatch

end Nests

end Attempt

namespace Reading
variable {f g : View → Attempt View} {room limit : Nat} {st : List Opened}

/-- Whatever is open, the reader ends an operand, and may have `room` more open on the way. -/
def NestsOperand (room : Nat) (f : View → Attempt View) : Prop :=
  ∀ st v, (f v).Nests (st.length + room) st (Opened.endSigns st)

theorem nests_number (h : st.length ≤ limit) (v : View) :
    (number v).Nests limit st (Opened.endSigns st) := by
  have hend := (Opened.length_endSigns_le st).trans h
  refine .bind (.ofSlice h _) fun rest _ => ?_
  split
  · refine .bind (.read rfl h hend _ v) fun v _ => ?_
    refine .bind (.read rfl hend hend _ v) fun v _ => ?_
    exact .read (Opened.step_fraction st) hend hend _ v
  · exact .read rfl h hend _ v
  · exact .mismatch h

theorem nests_name (h : st.length ≤ limit) (v : View) :
    (name v).Nests limit st (Opened.endSigns st) := by
  have hend := (Opened.length_endSigns_le st).trans h
  refine .bind (.ofSlice h _) fun rest _ => ?_
  split
  · exact .read rfl h hend _ v
  · exact .mismatch h

theorem nestsOperand_operand (hf : NestsOperand room f) (hg : NestsOperand room g) :
    NestsOperand room (operand f g) := by
  intro st v
  have hle : st.length ≤ st.length + room := Nat.le_add_right _ _
  refine .bind (.enter hle _ v) fun _ _ => ?_
  refine .bind (.ofSlice hle _) fun head _ => ?_
  cases head with
  | none => exact .mismatch hle
  | some c =>
      dsimp only
      split_ifs
      · exact nests_number hle v
      · exact nests_name hle v
      · exact hf st v
      · exact hg st v
      · exact .mismatch hle

/-- The parentheses of an empty group are read although there may be no room for them. -/
theorem nests_emptyGroup {v : View} {st' : List Opened} (h : st.length ≤ limit)
    (hv : v.beginsWith ['(', ')'] = .ok true) :
    (do let v ← read .openParen 1 v
        let _ ← read .closeParen 1 v
        fail .mismatch : Attempt View).Nests limit st st' := by
  have htext : ∃ r, v.text = .ok ('(' :: ')' :: r) := by
    cases hs : v.text with
    | error e => simp [View.beginsWith, hs, Except.map] at hv
    | ok s =>
        rw [View.beginsWith_eq hs] at hv
        obtain ⟨r, rfl⟩ := List.isPrefixOf_iff_prefix.mp (Except.ok.inj hv)
        exact ⟨r, rfl⟩
  obtain ⟨r, hr⟩ := htext
  have hreads := reads_emptyGroup hr
  constructor
  · intro w hw
    rw [hreads.outcome] at hw
    cases hw
  · rintro ⟨n, hn⟩
    rw [hreads.outcome] at hn
    cases hn
  · exact ⟨[], _, hreads.tokens, .nil h, .inr ⟨hreads.outcome, _, _, rfl, rfl, rfl⟩⟩

/-! Only a factor follows signs. Around it an operand has ended or none has begun. -/

section
variable (hf : NestsOperand room f) (hst : Opened.endSigns st = st)
include hf hst

theorem nests_factor (v : View) : (f v).Nests (st.length + room) st st := by
  have hfactor := hf st v
  rwa [hst] at hfactor

theorem nests_products (n : Nat) (v : View) :
    (products f n v).Nests (st.length + room) st st := by
  have hle : st.length ≤ st.length + room := Nat.le_add_right _ _
  induction n generalizing v with
  | zero => exact .pure hle v
  | succ n ih =>
      refine .bind (.ofSlice hle _) fun ahead _ => ?_
      split_ifs
      · refine .bind (.read rfl hle hle _ v) fun v _ => ?_
        refine .bind (.ofSlice hle _) fun v _ => ?_
        refine .bind (nests_factor hf hst v) fun v _ => ?_
        exact .bind (.ofSlice hle _) fun v _ => ih v
      · exact .pure hle v

theorem nests_term (v : View) : (term f v).Nests (st.length + room) st st := by
  have hle : st.length ≤ st.length + room := Nat.le_add_right _ _
  refine .bind (.enter hle _ v) fun _ _ => ?_
  refine .bind (nests_factor hf hst v) fun v _ => ?_
  exact .bind (.ofSlice hle _) fun v _ => nests_products hf hst v.length v

theorem nests_sums (n : Nat) (v : View) : (sums f n v).Nests (st.length + room) st st := by
  have hle : st.length ≤ st.length + room := Nat.le_add_right _ _
  induction n generalizing v with
  | zero => exact .pure hle v
  | succ n ih =>
      refine .bind (.ofSlice hle _) fun ahead _ => ?_
      split_ifs
      · refine .bind (.read rfl hle hle _ v) fun v _ => ?_
        refine .bind (.ofSlice hle _) fun v _ => ?_
        refine .bind (.ofSlice hle _) fun empty hempty => ?_
        split_ifs with h
        · rw [h] at hempty
          exact nests_emptyGroup hle (eq_ok_of_ofSlice hempty)
        · exact .bind (nests_term hf hst v) fun v _ => ih v
      · exact .pure hle v

theorem nests_expression (v : View) : (expression f v).Nests (st.length + room) st st := by
  have hle : st.length ≤ st.length + room := Nat.le_add_right _ _
  refine .bind (.enter hle _ v) fun _ _ => ?_
  refine .bind (.ofSlice hle _) fun v _ => ?_
  refine .bind (nests_term hf hst v) fun v _ => ?_
  refine .bind (nests_sums hf hst v.length v) fun v _ => ?_
  split_ifs
  · exact .pure hle ()
  · exact .mismatch hle

end

theorem nestsOperand_group (hf : NestsOperand room f) : NestsOperand (room + 1) (group f) := by
  intro st v
  have hle : st.length ≤ st.length + (room + 1) := Nat.le_add_right _ _
  have hle' : (Opened.group :: st).length ≤ st.length + (room + 1) := by
    rw [List.length_cons]
    omega
  have hend := (Opened.length_endSigns_le st).trans hle
  refine .bind (.read rfl hle hle' _ v) fun v _ => ?_
  refine .bind (.ofSlice hle' _) fun rest _ => ?_
  cases Literal.closing? rest with
  | none => exact .mismatch hle'
  | some close =>
      have hgroup : Opened.endSigns (.group :: st) = .group :: st := rfl
      have hinner := nests_expression hf hgroup (v.splitAt close).1
      rw [List.length_cons, Nat.add_right_comm, Nat.add_assoc] at hinner
      exact .bind hinner fun _ _ => .read rfl hle' hend _ _

theorem nestsOperand_sign (hf : NestsOperand room f) : NestsOperand (room + 1) (sign f) := by
  intro st v
  have hle : st.length ≤ st.length + (room + 1) := Nat.le_add_right _ _
  have hle' : (Opened.sign :: st).length ≤ st.length + (room + 1) := by
    rw [List.length_cons]
    omega
  refine .bind (.read rfl hle hle' _ v) fun v _ => ?_
  refine .bind (.ofSlice hle' _) fun v _ => ?_
  have hinner := hf (.sign :: st) v
  rwa [List.length_cons, Nat.add_right_comm, Nat.add_assoc] at hinner

/-- The room of a factor is the room on the stack. -/
theorem nestsOperand_factor (limit room : Nat) : NestsOperand room (factor limit room) := by
  induction room with
  | zero =>
      exact nestsOperand_operand (fun _ _ => .tooDeep limit rfl) (fun _ _ => .tooDeep limit rfl)
  | succ room ih =>
      exact nestsOperand_operand (nestsOperand_group ih) (nestsOperand_sign ih)

end Reading

theorem nests_recognize (limit : NestingLimit) (input : Text) :
    (recognize limit input).Nests limit.levels [] [] := by
  have hfactor := Reading.nestsOperand_factor limit.levels limit.levels
  refine .bind (.ofSlice (Nat.zero_le _) _) fun v _ => ?_
  have hnothing : Opened.endSigns [] = [] := rfl
  have hexpression := Reading.nests_expression hfactor hnothing v
  rwa [List.length_nil, Nat.zero_add] at hexpression

/-- An attempt that has more room reads on where the first one has none. -/
theorem exists_ahead_of_deepened {p : Part} {room : Nat} {input : Text} {x y : Attempt Unit}
    (hx : x.TooDeep) (hy : Found Attempt.Ends p room 0 input y) (h : x.Deepened y) :
    ∃ (read gap : Text) (c : Char) (rest : Text), input = read ++ (gap ++ c :: rest) ∧
      Laid 0 x.tokens read ∧ gap.Blank ∧ (c = '(' ∨ c = '-') := by
  have hformed := hy.formed
  obtain ⟨read, rest, rfl, hlaid, -⟩ := hy
  cases h with
  | same hnot _ _ => exact absurd hx hnot
  | further t more _ ht htokens =>
      rw [htokens] at hlaid hformed
      obtain ⟨front, behind, rfl, hfront, gap, left, rfl, hgap, -⟩ := hlaid.of_append
      obtain ⟨hne, hall⟩ := hformed t (by simp)
      obtain ⟨c, cs, hcs⟩ := List.exists_cons_of_ne_nil hne
      rw [hcs] at hall
      obtain ⟨hc, -⟩ := CharSet.all_cons.mp hall
      change t.text = c :: cs at hcs
      change t.kind.charSet.contains c = true at hc
      refine ⟨front, gap, c, cs ++ left ++ rest, ?_, hfront, hgap, ?_⟩
      · rw [hcs]
        simp only [List.append_assoc, List.cons_append]
      · rcases ht with ht | ht
        · rw [ht] at hc
          exact .inl (of_decide_eq_true hc)
        · rw [ht] at hc
          exact .inr (of_decide_eq_true hc)

/-- Where room was wanting, a parenthesis or a minus sign comes next. One level more would have had
room for it, also where no limit allows that many. -/
theorem exists_ahead_of_tooDeep {limit : NestingLimit} {input : Text}
    (h : (recognize limit input).TooDeep) :
    ∃ (read gap : Text) (c : Char) (rest : Text), input = read ++ (gap ++ c :: rest) ∧
      Laid 0 (recognize limit input).tokens read ∧ gap.Blank ∧ (c = '(' ∨ c = '-') := by
  have hfactor := finds_factor limit.levels (limit.levels + 1)
  have hdeeper := (finds_expression hfactor).trim (View.Stands.whole input)
  apply exists_ahead_of_deepened h hdeeper
  apply congruence_deepened.same_bind (not_tooDeep_trim _)
  intro v _
  exact congruence_deepened.expression (deepened_factor (Nat.lt_succ_self _)) v

section
variable {n : Nat} {input : Text}

theorem outcome_of_valid {limit : NestingLimit}
    (h : (Verdict.evaluate limit input).valid = true) :
    (recognize limit input).outcome = .ok () := by
  cases hout : (recognize limit input).outcome with
  | ok u => rfl
  | error failure =>
      rw [Verdict.evaluate, Verdict.ofAttempt, hout] at h
      cases h

theorem mostOpen_le_of_valid {limit : NestingLimit}
    (h : (Verdict.evaluate limit input).valid = true) :
    Token.mostOpen (Verdict.evaluate limit input).tokens ≤ limit.levels :=
  ((nests_recognize limit input).within_of_ok (outcome_of_valid h)).peak_le

/-- A text that is valid under the greatest limit is so under just those that are not below what its
tokens have open. -/
theorem valid_iff_mostOpen_le (h : (Verdict.evaluate .greatest input).valid = true) :
    (Verdict.evaluate (.ofNat n) input).valid = true ↔
      Token.mostOpen (Verdict.evaluate .greatest input).tokens ≤ n := by
  have hle : (NestingLimit.ofNat n).levels ≤ NestingLimit.greatest.levels :=
    (NestingLimit.ofNat n).levels_le
  constructor
  · intro hvalid
    have htokens : (Verdict.evaluate .greatest input).tokens =
        (Verdict.evaluate (.ofNat n) input).tokens :=
      (recognize_eq_of_not_tooDeep hle (not_tooDeep_of_valid hvalid)).1
    have hmost := mostOpen_le_of_valid hvalid
    rw [htokens]
    exact hmost.trans (Nat.min_le_left _ _)
  · intro hmost
    by_cases hdeep : (recognize (.ofNat n) input).TooDeep
    · rcases Nat.lt_or_ge n maxNesting with hn | hn
      · -- under the greatest limit one more group or sign was opened
        exfalso
        have hlt : (NestingLimit.ofNat n).levels < NestingLimit.greatest.levels :=
          Nat.lt_of_le_of_lt (Nat.min_le_left _ _) hn
        obtain ⟨top, htop, hheight⟩ := (nests_recognize (.ofNat n) input).full hdeep
        rw [NestingLimit.levels_ofNat, Nat.min_eq_left hn.le] at hheight
        cases deepened_recognize hlt input with
        | same hnot _ _ => exact hnot hdeep
        | further t more _ ht htokens =>
            have hmore := Opened.length_lt_peak htop ht (more.map Token.kind)
            rw [← List.map_cons, ← List.map_append, ← htokens, hheight] at hmore
            exact absurd hmost (Nat.not_le.mpr hmore)
      · rw [NestingLimit.ofNat_of_le hn]
        exact h
    · have houtcome := (recognize_eq_of_not_tooDeep hle hdeep).2
      unfold Verdict.evaluate Verdict.ofAttempt at h ⊢
      rwa [← houtcome]

end

/-- The tokens have never more open than the limit, an empty group that is refused apart, nothing where
they are accepted and as much as the limit where room was wanting. What they have open at most is the
least limit that accepts them. -/
theorem openAfter_recognize (n : Nat) (input : Text) :
    let attempt := recognize (.ofNat n) input
    (∀ front behind, attempt.tokens = front ++ behind →
      ∃ st, Token.openAfter front = some st ∧ (st.length ≤ min n maxNesting ∨
        attempt.outcome = .error .mismatch ∧ ∃ kept x y, front = kept ++ [x] ∧ behind = [y] ∧
          x.kind = .openParen ∧ y.kind = .closeParen)) ∧
    (attempt.outcome = .ok () → Token.openAfter attempt.tokens = some []) ∧
    (attempt.TooDeep →
      (∃ st, Token.openAfter attempt.tokens = some st ∧ st.length = min n maxNesting) ∧
      ∃ gap c rest, dropBytes? input (Token.readUntil attempt.tokens) = some (gap ++ c :: rest) ∧
        Text.Blank gap ∧ (c = '(' ∨ c = '-')) ∧
    ((Verdict.evaluate .greatest input).valid = true →
      ((Verdict.evaluate (.ofNat n) input).valid = true ↔
        Token.mostOpen (Verdict.evaluate .greatest input).tokens ≤ n)) := by
  intro attempt
  have hnests := nests_recognize (.ofNat n) input
  refine ⟨fun front behind h => hnests.exists_run h, hnests.ok (), fun hdeep => ?_,
    valid_iff_mostOpen_le⟩
  obtain ⟨read, gap, c, rest, hinput, hlaid, hgap, hc⟩ := exists_ahead_of_tooDeep hdeep
  have hdrop := Text.dropBytes?_eq_some_iff.mpr ⟨read, hinput, rfl⟩
  rw [← hlaid.readUntil_eq] at hdrop
  exact ⟨hnests.full hdeep, gap, c, rest, hdrop, hgap, hc⟩

/-- Groups and signs beside each other are not open at once. -/
example : Token.mostOpen (Verdict.evaluate .greatest "(1) * -2 - -(x - -3)".toList).tokens = 3 := by
  decide +kernel

end ArithGrammar
