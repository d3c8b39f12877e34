import ArithGrammar.Proofs.ExtendedView
import ArithGrammar.Proofs.Language
import ArithGrammar.Proofs.LoopBounds
import ArithGrammar.Proofs.OnePass
import ArithGrammar.Proofs.Tiling

/-!
# Groups that are looked up and groups that are not

Reading in one pass comes to the same as looking up the end of each group first. The two go on side
by side, one on a view that ends with the group and the other on a view that goes on behind it, and
each rule leaves such views again (`OnePass.InStep`).

The two part only where a group is not closed in the text at all. This is noticed behind its
opening parenthesis if its end is looked up. In one pass more may be read, but the text is refused
as well (`Attempt.CutShort`).
-/
namespace ArithGrammar
open Text (byteLength)

namespace Attempt
variable {α β γ δ : Type} {top : View} {R : α → β → Prop} {S : γ → δ → Prop} {x x' : Attempt α}
  {y y' : Attempt β} {ts : List Token} {a : α} {b : β}

/-- The first attempt stops behind an opening parenthesis that nothing closes before the end of
`top`. The second reads the same, and perhaps more before it fails. -/
structure CutShort (top : View) (x : Attempt α) (y : Attempt β) : Prop where
  outcome : x.outcome = .error .mismatch
  outcome' : ∃ failure, y.outcome = .error failure
  tokens : x.tokens <+: y.tokens
  unmatched : ∃ (before : List Token) (v : View) (s : Text),
    x.tokens = before ++ [Token.placed v.start .openParen ['(']] ∧ v.back [] = top.back [] ∧
      v.text = .ok ('(' :: s) ∧ Literal.closing? s = none

/-- Both attempts read the same tokens and end alike, unless the first is cut short. -/
inductive Agrees (top : View) (R : α → β → Prop) (x : Attempt α) (y : Attempt β) : Prop
  | ok {a : α} {b : β} : y.tokens = x.tokens → x.outcome = .ok a → y.outcome = .ok b → R a b →
      Agrees top R x y
  | error {failure : Failure} : y.tokens = x.tokens → x.outcome = .error failure →
      y.outcome = .error failure → Agrees top R x y
  | cutShort : CutShort top x y → Agrees top R x y

namespace Agrees

theorem pure (h : R a b) : Agrees top R (pure a : Attempt α) (pure b : Attempt β) :=
  .ok rfl rfl rfl h

theorem fail (failure : Failure) :
    Agrees top R (fail failure : Attempt α) (fail failure : Attempt β) := .error rfl rfl rfl

theorem of_reads (hx : x.Reads ts x') (hy : y.Reads ts y') (h : Agrees top R x' y') :
    Agrees top R x y := by
  cases h with
  | ok htokens ha hb hab =>
      exact .ok (by rw [hx.tokens, hy.tokens, htokens]) (hx.outcome.trans ha)
        (hy.outcome.trans hb) hab
  | error htokens ha hb =>
      exact .error (by rw [hx.tokens, hy.tokens, htokens]) (hx.outcome.trans ha)
        (hy.outcome.trans hb)
  | cutShort h =>
      obtain ⟨failure, hfailure⟩ := h.outcome'
      obtain ⟨before, v, s, htokens, hv⟩ := h.unmatched
      refine .cutShort ⟨hx.outcome.trans h.outcome, ⟨failure, hy.outcome.trans hfailure⟩, ?_,
        ts ++ before, v, s, by rw [hx.tokens, htokens, List.append_assoc], hv⟩
      rw [hx.tokens, hy.tokens]
      exact (List.prefix_append_right_inj ts).mpr h.tokens

theorem bind {f : α → Attempt γ} {g : β → Attempt δ} (h : Agrees top R x y)
    (hfg : ∀ a b, x.outcome = .ok a → y.outcome = .ok b → R a b → Agrees top S (f a) (g b)) :
    Agrees top S (x >>= f) (y >>= g) := by
  cases h with
  | @ok a b htokens ha hb hab =>
      have hg := bind_of_ok hb g
      rw [htokens] at hg
      exact of_reads (bind_of_ok ha f) hg (hfg a b ha hb hab)
  | error htokens ha hb =>
      obtain ⟨hf, hf'⟩ := bind_of_error ha f
      obtain ⟨hg, hg'⟩ := bind_of_error hb g
      exact .error (by rw [hf, hg, htokens]) hf' hg'
  | cutShort h =>
      obtain ⟨failure, hfailure⟩ := h.outcome'
      obtain ⟨hf, hf'⟩ := bind_of_error h.outcome f
      obtain ⟨hg, hg'⟩ := bind_of_error hfailure g
      exact .cutShort ⟨hf', ⟨failure, hg'⟩, by rw [hf, hg]; exact h.tokens,
        by rw [hf]; exact h.unmatched⟩

end Agrees

end Attempt

namespace OnePass
open Attempt Reading

/-- The readers agree on every view and an extension of it. -/
def InStep (top : View) (f g : View → Attempt View) : Prop :=
  ∀ ⦃rest w v⦄, View.Within top rest w v → Agrees top (View.Within top rest) (f w) (g v)

section
variable {top w v a b : View} {rest s t r gap : Text} {c : Char} {f f' g g' : View → Attempt View}
  {x y : Attempt View} {room n m : Nat} {set : CharSet}

theorem agrees_of_char {α β : Type} {R : α → β → Prop} {x x' : Attempt α} {y y' : Attempt β}
    {kind : TokenKind} (h : View.Extends top rest (c :: s) gap w v)
    (hx : x.Reads [Token.placed w.start kind [c]] x')
    (hy : y.Reads [Token.placed v.start kind [c]] y') (hxy : Agrees top R x' y') :
    Agrees top R x y := by
  rw [← h.start_eq (by simp)] at hy
  exact .of_reads hx hy hxy

theorem agrees_number (h : View.Extends top rest (c :: s) gap w v)
    (hc : CharSet.digit.contains c = true) :
    Agrees top (View.Within top rest) (number w) (number v) := by
  have hdigit : CharSet.digit.NotAhead (gap ++ rest) := h.notAhead_gap (by decide) (by decide)
  have hdot : CharSet.dot.NotAhead (gap ++ rest) := h.notAhead_gap (by decide) (by decide)
  have hstart := h.start_eq (by simp)
  obtain ⟨t, r, hs, hne, ht, hr, hnone⟩ | ⟨whole, fraction, r, hs, -, hw, hne, hf, hr⟩ :=
    Literal.number_cases hc s
  · rw [hs] at h
    have hv := h.text_eq'
    rw [List.append_assoc] at hv
    have hreads := reads_integer h.text_eq hne ht hr hnone
    have hreads' := reads_integer hv hne ht (hr.append hdigit)
      (Literal.decimal?_append_eq_none ht hr hnone hdigit hdot)
    rw [← hstart] at hreads'
    exact .of_reads hreads hreads' (.pure ⟨r, gap, h.back (.of_set rfl rfl ht)⟩)
  · rw [hs] at h
    have hv := h.text_eq'
    rw [List.append_assoc] at hv
    have hreads := reads_decimal h.text_eq hw hne hf hr
    have hreads' := reads_decimal hv hw hne hf (hr.append hdigit)
    rw [← hstart] at hreads'
    have hbalanced : Balanced (whole ++ '.' :: fraction) :=
      .append (.of_set rfl rfl hw) (.append (.char (by decide) (by decide)) (.of_set rfl rfl hf))
    exact .of_reads hreads hreads' (.pure ⟨r, gap, h.back hbalanced⟩)

theorem agrees_name (h : View.Extends top rest (c :: s) gap w v)
    (hc : CharSet.nameStart.contains c = true) :
    Agrees top (View.Within top rest) (name w) (name v) := by
  have hpart : CharSet.namePart.NotAhead (gap ++ rest) := h.notAhead_gap (by decide) (by decide)
  have hstart := h.start_eq (by simp)
  obtain ⟨t, r, hs, hall, hr⟩ := Literal.name_cases c s
  rw [hs] at h
  have hv := h.text_eq'
  rw [List.append_assoc] at hv
  have hreads := reads_name h.text_eq hc hall hr
  have hreads' := reads_name hv hc hall (hr.append hpart)
  rw [← hstart] at hreads'
  have hname : CharSet.namePart.All (c :: t) := Name.all ⟨c, t, hc, hall⟩
  exact .of_reads hreads hreads' (.pure ⟨r, gap, h.back (.of_set rfl rfl hname)⟩)

theorem agrees_sign (hfg : InStep top f g) (h : View.Extends top rest ('-' :: s) gap w v) :
    Agrees top (View.Within top rest) (sign f w) (sign g v) := by
  obtain ⟨t, gap', hback, -⟩ := (h.back_cons (by decide) (by decide)).trimmed
  exact agrees_of_char h (reads_sign h.text_eq) (reads_sign h.text_eq') (hfg ⟨t, gap', hback⟩)

/-- No factor begins with what follows where the first view ends. -/
theorem reads_operand_gap (h : View.Extends top rest [] gap w v) :
    (operand f g v).Reads [] (fail .mismatch) := by
  have hv := h.text_eq'
  have hdigit : CharSet.digit.NotAhead (gap ++ rest) := h.notAhead_gap (by decide) (by decide)
  have hname : CharSet.nameStart.NotAhead (gap ++ rest) := h.notAhead_gap (by decide) (by decide)
  have hopen : CharSet.openParen.NotAhead (gap ++ rest) := h.notAhead_gap (by decide) (by decide)
  have hminus : CharSet.minus.NotAhead (gap ++ rest) := h.notAhead_gap (by decide) (by decide)
  rw [List.nil_append] at hv
  generalize gap ++ rest = z at hv hdigit hname hopen hminus
  cases z with
  | nil => exact reads_operand_nil hv
  | cons c z =>
      have hreads := reads_operand (f := f) (g := g) hv
      rwa [CharSet.notAhead_cons.mp hdigit, CharSet.notAhead_cons.mp hname,
        CharSet.notAhead_cons.mp hopen, CharSet.notAhead_cons.mp hminus] at hreads

theorem agrees_operand
    (hf : ∀ ⦃rest s gap w v⦄, View.Extends top rest ('(' :: s) gap w v →
      Agrees top (View.Within top rest) (f w) (f' v))
    (hg : ∀ ⦃rest s gap w v⦄, View.Extends top rest ('-' :: s) gap w v →
      Agrees top (View.Within top rest) (g w) (g' v)) :
    InStep top (operand f g) (operand f' g') := by
  rintro rest w v ⟨t, gap, h⟩
  cases t with
  | nil => exact .of_reads (reads_operand_nil h.text_eq) (reads_operand_gap h) (.fail .mismatch)
  | cons c s =>
      refine .of_reads (reads_operand h.text_eq) (reads_operand h.text_eq') ?_
      split_ifs with hdigit hname hopen hminus
      · exact agrees_number h hdigit
      · exact agrees_name h hname
      · obtain rfl : c = '(' := of_decide_eq_true hopen
        exact hf h
      · obtain rfl : c = '-' := of_decide_eq_true hminus
        exact hg h
      · exact .fail .mismatch

/-- Two loops that go on at the characters of a set, in steps that agree. -/
theorem agrees_loop {loop loop' : Nat → View → Attempt View} (hset : set ≠ .blank)
    (hclose : set.contains ')' = false)
    (hstop : ∀ n ⦃v s⦄, View.text v = .ok s → set.NotAhead s → loop n v = pure v)
    (hstop' : ∀ n ⦃v s⦄, View.text v = .ok s → set.NotAhead s → loop' n v = pure v)
    (hstep : ∀ ⦃w v c s gap⦄, View.Extends top rest (c :: s) gap w v → set.contains c = true →
      ∃ ts round round', (∀ n, (loop (n + 1) w).Reads ts (round >>= loop n)) ∧
        (∀ n, (loop' (n + 1) v).Reads ts (round' >>= loop' n)) ∧
        Agrees top (View.WithinSolid top rest) round round' ∧
        (∀ a, round.outcome = .ok a → ∃ t, a.text = .ok t ∧ byteLength t ≤ byteLength s) ∧
        ∀ b, round'.outcome = .ok b → ∃ t, b.text = .ok t ∧
          byteLength t ≤ byteLength (s ++ (gap ++ rest)))
    (h : View.Extends top rest t gap w v) (hsolid : CharSet.blank.NotAhead t)
    (hn : byteLength t ≤ n) (hm : byteLength (t ++ (gap ++ rest)) ≤ m) :
    Agrees top (View.WithinSolid top rest) (loop n w) (loop' m v) := by
  induction n generalizing m w v t gap with
  | zero =>
      obtain rfl : t = [] := Text.byteLength_eq_zero.mp (Nat.le_zero.mp hn)
      have hgap : set.NotAhead (gap ++ rest) := h.notAhead_gap hset hclose
      rw [hstop 0 h.text_eq CharSet.notAhead_nil, hstop' m h.text_eq' hgap]
      exact .pure ⟨[], gap, h, hsolid⟩
  | succ n ih =>
      by_cases ht : set.NotAhead t
      · have hgap : set.NotAhead (t ++ (gap ++ rest)) := ht.append (h.notAhead_gap hset hclose)
        rw [hstop (n + 1) h.text_eq ht, hstop' m h.text_eq' hgap]
        exact .pure ⟨t, gap, h, hsolid⟩
      · obtain ⟨c, s, rfl, hc⟩ := CharSet.exists_of_not_notAhead ht
        have hsize := c.utf8Size_pos
        rw [Text.byteLength_cons] at hn
        rw [List.cons_append, Text.byteLength_cons] at hm
        obtain ⟨m, rfl⟩ : ∃ k, m = k + 1 := ⟨m - 1, by omega⟩
        obtain ⟨ts, round, round', hround, hround', hagrees, hless, hless'⟩ := hstep h hc
        refine .of_reads (hround n) (hround' m) (hagrees.bind fun a b ha hb hab => ?_)
        obtain ⟨t, gap', hext, hahead⟩ := hab
        obtain ⟨t₁, ht₁, hle⟩ := hless a ha
        obtain ⟨t₂, ht₂, hle'⟩ := hless' b hb
        obtain rfl := Except.ok.inj (ht₁.symm.trans hext.text_eq)
        obtain rfl := Except.ok.inj (ht₂.symm.trans hext.text_eq')
        exact ih hext hahead (by omega) (by omega)

theorem agrees_trim (h : View.Within top rest w v) :
    Agrees top (View.WithinSolid top rest) (trim w) (trim v) := by
  obtain ⟨t, gap, h⟩ := h
  rw [trim_eq_pure h.text_eq, trim_eq_pure h.text_eq']
  exact .pure h.trimmed

/-- The terms of a group that is closed end at its parenthesis, or in front of something else. -/
theorem agrees_closing {inner after : Text} (hinner : Balanced inner)
    (h : View.Extends top rest ('(' :: (inner ++ ')' :: after)) gap w v)
    (hab : View.WithinSolid top (')' :: (after ++ (gap ++ rest))) a b) :
    Agrees top (View.Within top rest)
      ((if a.isEmpty then pure () else fail .mismatch) >>= fun _ =>
        read .closeParen 1 (w.back (')' :: after)))
      (trim b >>= closing) := by
  obtain ⟨t, gap', hab, hsolid⟩ := hab
  have hb := hab.text_eq'
  have hend := hab.endsSolid
  have hback := View.trimmed_eq_back hb hend
  have htrimmed := View.text_trimmed hb
  rw [Text.trimmed_of_endsSolid hend] at htrimmed
  rw [trim_eq_pure hb, pure_bind]
  cases t with
  | nil =>
      have hafter : CharSet.blank.afterRun ([] ++ (gap' ++ ')' :: (after ++ (gap ++ rest)))) =
          ')' :: (after ++ (gap ++ rest)) := by
        rw [List.nil_append, CharSet.afterRun_append hab.blank,
          CharSet.afterRun_eq_self hab.notAhead_rest]
      rw [hafter] at hback htrimmed
      rw [View.back_eq_of_end_eq (hab.end_eq.trans h.end_eq.symm)] at hback
      rw [hback] at htrimmed ⊢
      have hclosed := reads_char (View.text_back (View.text_back_cons h.text_eq)) rfl .closeParen
      have hclosed' := reads_closing htrimmed
      have hstart := View.Extends.start_back_eq (s := '(' :: inner) (r := ')' :: after) h
        (List.cons_ne_nil _ _)
      rw [List.cons_append] at hstart
      rw [← hstart] at hclosed'
      have hgroup : Balanced ('(' :: inner ++ [')']) := .group hinner
      have hsplit : '(' :: (inner ++ ')' :: after) = '(' :: inner ++ [')'] ++ after := by simp
      rw [hsplit] at h
      rw [if_pos ((View.isEmpty_iff hab.text_eq).mpr rfl), pure_bind]
      exact .of_reads hclosed hclosed' (.pure ⟨after, gap, h.back hgroup⟩)
  | cons c t =>
      have hc : c ≠ ')' := by
        rintro rfl
        exact (hab.balanced (List.cons_ne_nil _ _)).not_closeParen
      have hafter : CharSet.closeParen.NotAhead
          (CharSet.blank.afterRun (c :: t ++ (gap' ++ ')' :: (after ++ (gap ++ rest))))) := by
        have hahead := CharSet.notAhead_cons.mp hsolid
        rw [List.cons_append, CharSet.afterRun_eq_self (CharSet.notAhead_cons.mpr hahead),
          CharSet.notAhead_cons]
        exact decide_eq_false hc
      rw [if_neg (by simp [View.isEmpty_iff hab.text_eq]), closing_of_notAhead htrimmed hafter]
      exact .fail .mismatch

variable (hf : Finds View.Stands .factor room f) (hg : Finds View.Stands .factor room g)
  (hfg : InStep top f g)
include hf hg hfg

theorem agrees_products (h : View.Extends top rest t gap w v) (hsolid : CharSet.blank.NotAhead t) :
    Agrees top (View.WithinSolid top rest) (products f w.length w) (products g v.length v) := by
  refine agrees_loop (by decide) (by decide) (fun _ _ _ => products_of_notAhead)
    (fun _ _ _ => products_of_notAhead) (fun w v c s gap h hc => ?_) h hsolid
    (View.length_eq h.text_eq).ge (View.length_eq h.text_eq').ge
  have hop : Balanced [c] := .of_set rfl rfl (CharSet.all_cons.mpr ⟨hc, CharSet.all_nil⟩)
  obtain ⟨t, gap', hback, -⟩ := (h.back (s := [c]) hop).trimmed
  refine ⟨[Token.placed w.start .mulOp [c]], f (w.back s).trimmed >>= trim,
    g (v.back (s ++ (gap ++ rest))).trimmed >>= trim, fun n => ?_, fun n => ?_,
    (hfg ⟨t, gap', hback⟩).bind fun a b _ _ hab => agrees_trim hab,
    fun a ha => hf.exists_text_round (View.text_back_cons h.text_eq) ha,
    fun b hb => hg.exists_text_round (View.text_back_cons h.text_eq') hb⟩
  · rw [bind_assoc]
    exact reads_products h.text_eq hc
  · rw [bind_assoc, h.start_eq (List.cons_ne_nil c s)]
    exact reads_products h.text_eq' hc

theorem agrees_term (h : View.Within top rest w v) :
    Agrees top (View.WithinSolid top rest) (term f w) (term g v) := by
  refine .of_reads (reads_term f w) (reads_term g v) ((hfg h).bind fun a b _ _ hab => ?_)
  refine (agrees_trim hab).bind fun a b _ _ hab => ?_
  obtain ⟨t, gap, hab, hsolid⟩ := hab
  exact agrees_products hf hg hfg hab hsolid

theorem agrees_sums (h : View.Extends top rest t gap w v) (hsolid : CharSet.blank.NotAhead t) :
    Agrees top (View.WithinSolid top rest) (sums f w.length w) (sums g v.length v) := by
  refine agrees_loop (by decide) (by decide) (fun _ _ _ => sums_of_notAhead)
    (fun _ _ _ => sums_of_notAhead) (fun w v c s gap h hc => ?_) h hsolid
    (View.length_eq h.text_eq).ge (View.length_eq h.text_eq').ge
  have hstart := h.start_eq (List.cons_ne_nil c s)
  have hop : Balanced [c] := .of_set rfl rfl (CharSet.all_cons.mpr ⟨hc, CharSet.all_nil⟩)
  obtain ⟨t, gap', hback, -⟩ := (h.back (s := [c]) hop).trimmed
  have ht : t = Text.trimmed s :=
    Except.ok.inj (hback.text_eq.symm.trans (View.text_trimmed (View.text_back_cons h.text_eq)))
  have ht' : t ++ (gap' ++ rest) = Text.trimmed (s ++ (gap ++ rest)) :=
    Except.ok.inj (hback.text_eq'.symm.trans
      (View.text_trimmed (View.text_back_cons h.text_eq')))
  have hiff := hback.emptyGroup_iff
  rw [ht', ht] at hiff
  by_cases hguard : ['(', ')'] <+: Text.trimmed s
  · obtain ⟨r, hr⟩ := hguard
    obtain ⟨r', hr'⟩ := hiff.mpr ⟨r, hr⟩
    refine ⟨_, fail .mismatch, fail .mismatch, fun n => reads_sums_empty h.text_eq hc hr.symm,
      fun n => ?_, .fail .mismatch, nofun, nofun⟩
    rw [hstart, hback.start_eq (by simp [ht, ← hr])]
    exact reads_sums_empty h.text_eq' hc hr'.symm
  · refine ⟨[Token.placed w.start .addOp [c]], term f (w.back s).trimmed,
      term g (v.back (s ++ (gap ++ rest))).trimmed, fun n => reads_sums h.text_eq hc hguard,
      fun n => ?_, agrees_term hf hg hfg ⟨t, gap', hback⟩,
      fun a ha => (finds_term hf).exists_text_trimmed (View.text_back_cons h.text_eq) ha,
      fun b hb => (finds_term hg).exists_text_trimmed (View.text_back_cons h.text_eq') hb⟩
    rw [hstart]
    exact reads_sums h.text_eq' hc (hguard ∘ hiff.mp)

theorem agrees_terms (h : View.Within top rest w v) :
    Agrees top (View.WithinSolid top rest) (terms f w) (terms g v) := by
  obtain ⟨t, gap, h⟩ := h
  obtain ⟨t', gap', htrimmed, -⟩ := h.trimmed
  refine .of_reads (reads_terms h.text_eq) (reads_terms h.text_eq') ?_
  refine (agrees_term hf hg hfg ⟨t', gap', htrimmed⟩).bind fun a b _ _ hab => ?_
  obtain ⟨t, gap, hab, hsolid⟩ := hab
  exact agrees_sums hf hg hfg hab hsolid

/-- A group that is closed is closed at the same place in one pass. -/
theorem agrees_group_closed {inner after : Text} (hinner : Balanced inner)
    (h : View.Extends top rest ('(' :: (inner ++ ')' :: after)) gap w v) :
    Agrees top (View.Within top rest) (Reading.group f w) (group g v) := by
  have hv : v.text = .ok ('(' :: (inner ++ ')' :: (after ++ (gap ++ rest)))) := by
    simpa using h.text_eq'
  have hclose := Literal.closing?_append hinner after
  refine agrees_of_char h (Reading.reads_group h.text_eq hclose) (reads_group hv) ?_
  rw [expression_eq_terms, Attempt.bind_assoc]
  exact (agrees_terms hf hg hfg ⟨inner, [], h.inside hinner⟩).bind fun a b _ _ hab =>
    agrees_closing hinner h hab

theorem agrees_group (h : View.Extends top rest ('(' :: s) gap w v) :
    Agrees top (View.Within top rest) (Reading.group f w) (group g v) := by
  cases hclose : Literal.closing? s with
  | some n =>
      obtain ⟨inner, after, rfl, -, hinner⟩ := Literal.exists_balanced_of_closing? hclose
      exact agrees_group_closed hf hg hfg hinner h
  | none =>
      obtain rfl : rest = [] := by
        by_contra hrest
        obtain ⟨n, hn⟩ := (h.balanced hrest).exists_closing?
        have hsome := Literal.closing?_of_append_blank h.blank hn
        cases hclose.symm.trans hsome
      have hv := h.text_eq'
      rw [List.append_nil, List.cons_append] at hv
      have hnone := Literal.closing?_append_blank h.blank hclose
      have hreads := Reading.reads_group_unmatched (f := f) h.text_eq hclose
      have hreads' := reads_group (f := g) hv
      rw [h.start_eq (List.cons_ne_nil _ _)] at hreads
      have htokens : (Reading.group f w).tokens = [Token.placed v.start .openParen ['(']] :=
        hreads.tokens
      refine .cutShort ⟨hreads.outcome, outcome_group_of_closing?_eq_none hg hv hnone, ?_, [], v,
        _, htokens, h.end_eq, hv, hnone⟩
      rw [htokens, hreads'.tokens]
      exact List.prefix_append _ _

end

variable {top v : View}

theorem inStep_factor (top : View) (limit room : Nat) :
    InStep top (Reading.factor limit room) (factor limit room) := by
  induction room with
  | zero =>
      exact agrees_operand (fun _ _ _ _ _ _ => .fail (.tooDeep limit))
        (fun _ _ _ _ _ _ => .fail (.tooDeep limit))
  | succ room ih =>
      exact agrees_operand
        (fun _ _ _ _ _ h =>
          agrees_group (Reading.finds_factor limit room) (finds_factor limit room) ih h)
        (fun _ _ _ _ _ h => agrees_sign ih h)

theorem agrees_recognize (limit : NestingLimit) (input : Text) :
    Agrees (View.whole input).trimmed (fun _ _ => True) (ArithGrammar.recognize limit input)
      (recognize limit input) := by
  have hwhole := View.text_whole input
  have htext := View.text_trimmed hwhole
  have hwithin : View.Extends (View.whole input).trimmed [] (Text.trimmed input) []
      (View.whole input).trimmed (View.whole input).trimmed :=
    ⟨htext, by simpa using htext, fun _ => rfl, rfl, CharSet.all_nil,
      by simpa using Text.endsSolid_trimmed input, .inl rfl, fun h => absurd rfl h⟩
  rw [ArithGrammar.recognize, recognize, trim_eq_pure hwhole, pure_bind, pure_bind,
    expression_eq_terms]
  have hterms := agrees_terms (Reading.finds_factor limit.levels limit.levels)
    (finds_factor limit.levels limit.levels) (inStep_factor _ limit.levels limit.levels)
    ⟨_, _, hwithin⟩
  refine hterms.bind fun a b _ _ hab => ?_
  obtain ⟨t, gap, hab, -⟩ := hab
  have hempty : t ++ (gap ++ []) = [] ↔ t = [] := by
    refine ⟨fun h => (List.append_eq_nil_iff.mp h).1, ?_⟩
    rintro rfl
    have hend := hab.endsSolid
    rw [List.append_nil, List.nil_append] at hend ⊢
    exact hend.eq_nil hab.blank
  by_cases ht : t = []
  · rw [if_pos ((View.isEmpty_iff hab.text_eq).mpr ht),
      if_pos ((View.isEmpty_iff hab.text_eq').mpr (hempty.mpr ht))]
    exact .pure trivial
  · rw [if_neg (ht ∘ (View.isEmpty_iff hab.text_eq).mp),
      if_neg (ht ∘ hempty.mp ∘ (View.isEmpty_iff hab.text_eq').mp)]
    exact .fail .mismatch

end OnePass

/-- The token is an opening parenthesis that nothing closes in the text behind it. -/
def Token.Unmatched (input : Text) (t : Token) : Prop :=
  t.kind = .openParen ∧ ∃ rest, Text.slice input (t.span.start + 1) (byteLength input) = .ok rest ∧
    Literal.closing? rest = none

/-- The verdict on a text that is read in one pass. -/
def OnePass.evaluate (limit : NestingLimit) (input : Text) : Verdict :=
  Verdict.ofAttempt (OnePass.recognize limit input)

namespace Verdict
variable {x : Attempt Unit}

theorem valid_of_ok (h : x.outcome = .ok ()) : (ofAttempt x).valid = true := by
  rw [ofAttempt, h]
  rfl

theorem not_valid_of_error {failure : Failure} (h : x.outcome = .error failure) :
    (ofAttempt x).valid = false := by
  rw [ofAttempt, h]
  rfl

end Verdict

section
variable {limit : NestingLimit} {input s : Text} {v : View}

/-- What no parenthesis closes before the blanks at the end is not closed in the whole text. -/
theorem unmatched_of_text (hend : v.back [] = (View.whole input).trimmed.back [])
    (hv : v.text = .ok ('(' :: s)) (hnone : Literal.closing? s = none) :
    (Token.placed v.start .openParen ['(']).Unmatched input := by
  have hsource := congrArg View.source hend
  have hstop := congrArg View.stop hend
  rw [View.source_back, View.source_back, View.source_trimmed, View.source_whole] at hsource
  rw [View.stop_back, View.stop_back] at hstop
  obtain ⟨before, after, hinput, hbefore, hlen⟩ := View.text_eq_ok_iff.mp hv
  rw [hsource] at hinput
  obtain ⟨behind, hblank, hbehind, -⟩ := Text.eq_run_append_trimmed input
  have hwhole := View.text_whole input
  have hrun := CharSet.run_append_afterRun .blank input
  rw [hbehind, ← List.append_assoc] at hrun
  have hafter : after = behind := by
    have hslice := Text.slice_behind (before ++ '(' :: s) after
    have hslice' := Text.slice_behind (CharSet.blank.run input ++ Text.trimmed input) behind
    have hlen' : byteLength (CharSet.blank.run input ++ Text.trimmed input) = v.stop := by
      rw [hstop, View.stop_eq (View.text_trimmed hwhole), View.start_trimmed hwhole,
        View.start_whole, Nat.zero_add, Text.byteLength_append]
    rw [← hinput, Text.byteLength_append, hbefore, hlen] at hslice
    rw [hrun, hlen'] at hslice'
    exact Except.ok.inj (hslice.symm.trans hslice')
  subst hafter
  refine ⟨rfl, s ++ after, ?_, Literal.closing?_append_blank hblank hnone⟩
  have hslice := Text.slice_behind (before ++ ['(']) (s ++ after)
  have hsplit : before ++ ['('] ++ (s ++ after) = input := by
    rw [hinput]
    simp
  rw [hsplit, Text.byteLength_append, hbefore] at hslice
  exact hslice

theorem not_unmatched_of_valid (h : (Verdict.evaluate limit input).valid = true) :
    ∀ t ∈ (Verdict.evaluate limit input).tokens.getLast?, ¬ t.Unmatched input := by
  obtain ⟨T, -, s, behind, -, -, hs⟩ := exists_spells_of_valid h
  rintro t ht ⟨hopen, -⟩
  have hmem : t.terminal ∈ T.terminals.getLast? := by
    rw [← hs.terminals, List.getLast?_map]
    exact Option.mem_map_of_mem _ ht
  have hlast : t.kind.endsOperand = true := T.ordered.last _ hmem
  rw [hopen] at hlast
  cases hlast

end

/-- Both verdicts are the same. Their tokens differ at most if the last one in the verdict opens a
group that is not closed, and then one pass has read the same and perhaps more. -/
theorem evaluate_agrees_with_onePass (n : Nat) (input : Text) :
    let verdict := Verdict.evaluate (.ofNat n) input
    let onePass := OnePass.evaluate (.ofNat n) input
    verdict.valid = onePass.valid ∧
      ((¬ ∃ t ∈ verdict.tokens.getLast?, t.Unmatched input) → verdict.tokens = onePass.tokens) ∧
      ((∃ t ∈ verdict.tokens.getLast?, t.Unmatched input) →
        verdict.valid = false ∧ onePass.valid = false ∧ verdict.tokens <+: onePass.tokens) := by
  intro verdict onePass
  have hmatched : verdict.valid = true → ¬ ∃ t ∈ verdict.tokens.getLast?, t.Unmatched input := by
    rintro hvalid ⟨t, ht, hunmatched⟩
    exact not_unmatched_of_valid hvalid t ht hunmatched
  cases OnePass.agrees_recognize (.ofNat n) input with
  | ok htokens hx hy _ =>
      have hvalid : verdict.valid = true := Verdict.valid_of_ok hx
      have hvalid' : onePass.valid = true := Verdict.valid_of_ok hy
      exact ⟨hvalid.trans hvalid'.symm, fun _ => htokens.symm,
        fun h => absurd h (hmatched hvalid)⟩
  | error htokens hx hy =>
      have hvalid : verdict.valid = false := Verdict.not_valid_of_error hx
      have hvalid' : onePass.valid = false := Verdict.not_valid_of_error hy
      have hprefix : verdict.tokens <+: onePass.tokens := by
        refine ⟨[], ?_⟩
        rw [List.append_nil]
        exact htokens.symm
      exact ⟨hvalid.trans hvalid'.symm, fun _ => htokens.symm, fun _ => ⟨hvalid, hvalid', hprefix⟩⟩
  | cutShort h =>
      obtain ⟨failure, hfailure⟩ := h.outcome'
      obtain ⟨before, v, s, htokens, hend, hv, hnone⟩ := h.unmatched
      have hvalid : verdict.valid = false := Verdict.not_valid_of_error h.outcome
      have hvalid' : onePass.valid = false := Verdict.not_valid_of_error hfailure
      have hlast : Token.placed v.start .openParen ['('] ∈ verdict.tokens.getLast? := by
        have htokens' : verdict.tokens = before ++ [Token.placed v.start .openParen ['(']] :=
          htokens
        rw [htokens', List.getLast?_concat]
        rfl
      refine ⟨hvalid.trans hvalid'.symm, fun hnot => ?_, fun _ => ⟨hvalid, hvalid', h.tokens⟩⟩
      exact absurd ⟨_, hlast, unmatched_of_text hend hv hnone⟩ hnot

/-- In the second group of this text what follows the parenthesis is read in one pass only. -/
example : (Verdict.evaluate (.ofNat 2) "(1) * (2 - ".toList).tokens.length = 5 ∧
    (OnePass.evaluate (.ofNat 2) "(1) * (2 - ".toList).tokens.length = 7 := by
  decide +kernel

end ArithGrammar
