import ArithGrammar.Proofs.Completeness

/-!
# Longest match

Numbers and names are read to their end: no literal goes on behind its token in the text. What a
scanner sees is the text of a view only, which may end before the whole text does. But a view ends
where the text ends, in front of a blank or in front of a closing parenthesis, and no literal goes
on in any of these (`View.Bounded`). So the longest run within the view is the longest one of the
text, and digits that make no decimal number in the view make none in the text either.
-/
namespace ArithGrammar
open Attempt Reading
open Text (byteLength dropBytes?)

/-- The token has the form of its kind and goes on as far as that allows, where `rest` is the text
behind it and `next` the token read next. In front of a dot and a digit an integer ends only if the
dot is read next. -/
def Token.Longest (t : Token) (next : Option Token) (rest : Text) : Prop :=
  match t.kind with
  | .integer => t.text ≠ [] ∧ CharSet.digit.All t.text ∧ CharSet.digit.NotAhead rest ∧
      ((∀ u ∈ next, u.kind ≠ .dot) → ∀ r, rest = '.' :: r → CharSet.digit.NotAhead r)
  | .fraction => t.text ≠ [] ∧ CharSet.digit.All t.text ∧ CharSet.digit.NotAhead rest
  | .identifier => (∃ x : Name, t.text = x.text) ∧ CharSet.namePart.NotAhead rest
  | kind => ∃ c, t.text = [c] ∧ kind.charSet.contains c = true

/-- The token goes on as far as its kind allows in the text. -/
def Token.LongestIn (input : Text) (t : Token) (next : Option Token) : Prop :=
  ∃ rest, dropBytes? input t.span.stop = some rest ∧ t.Longest next rest

def Token.AllLongest (input : Text) : List Token → Prop
  | [] => True
  | t :: ts => t.LongestIn input ts.head? ∧ AllLongest input ts

namespace Token
variable {input rest : Text} {t : Token} {ts us : List Token} {next : Option Token}

theorem Longest.of_last (h : t.Longest none rest) (next : Option Token) : t.Longest next rest := by
  unfold Longest at h ⊢
  split at h
  · obtain ⟨hne, hall, hahead, hdot⟩ := h
    exact ⟨hne, hall, hahead, fun _ => hdot (by simp)⟩
  · exact h
  · exact h
  · exact h

theorem LongestIn.of_last (h : t.LongestIn input none) (next : Option Token) :
    t.LongestIn input next := by
  obtain ⟨rest, hrest, hlongest⟩ := h
  exact ⟨rest, hrest, hlongest.of_last next⟩

namespace AllLongest

theorem append (hts : AllLongest input ts) (hus : AllLongest input us) :
    AllLongest input (ts ++ us) := by
  induction ts with
  | nil => exact hus
  | cons t ts ih =>
      obtain ⟨ht, hts⟩ := hts
      constructor
      · cases ts with
        | nil => exact ht.of_last _
        | cons u ts => exact ht
      · exact ih hts

theorem of_append (h : AllLongest input (ts ++ us)) : AllLongest input us := by
  induction ts with
  | nil => exact h
  | cons t ts ih => exact ih h.2

end AllLongest

end Token

/-- No literal goes on in blanks, nor behind them in what none goes on in. -/
theorem Text.EndsLiteral.behind {gap s : Text} (hgap : gap.Blank) (h : s.EndsLiteral) :
    (gap ++ s).EndsLiteral := by
  cases gap with
  | nil => exact h
  | cons c gap =>
      obtain ⟨hc, -⟩ := CharSet.all_cons.mp hgap
      constructor
      · exact CharSet.notAhead_cons.mpr (CharSet.not_of_blank (by decide) hc)
      · exact CharSet.notAhead_cons.mpr (CharSet.not_of_blank (by decide) hc)

theorem Text.dropBytes?_add {s t r : Text} {n : Nat} (h : dropBytes? s n = some (t ++ r)) :
    dropBytes? s (n + byteLength t) = some r := by
  obtain ⟨before, rfl, rfl⟩ := dropBytes?_eq_some_iff.mp h
  apply dropBytes?_eq_some_iff.mpr
  exact ⟨before ++ t, by rw [List.append_assoc], Text.byteLength_append before t⟩

/-- The view has the text `s` in the input, where no literal goes on behind it. -/
structure View.Bounded (input s : Text) (v : View) : Prop where
  text_eq : v.text = .ok s
  behind : ∃ after, dropBytes? input v.start = some (s ++ after) ∧ after.EndsLiteral

/-- The view has some text in the input, where no literal goes on behind it. -/
def View.InBounds (input : Text) (v : View) : Prop := ∃ s, v.Bounded input s

namespace View.Bounded
variable {input s t r : Text} {v : View} {c : Char}

theorem whole (input : Text) : (View.whole input).Bounded input input := by
  constructor
  · exact View.text_whole input
  · exact ⟨[], by simp, .nil⟩

theorem back (h : v.Bounded input (t ++ r)) : (v.back r).Bounded input r := by
  obtain ⟨after, hdrop, hafter⟩ := h.behind
  rw [List.append_assoc] at hdrop
  constructor
  · exact View.text_back h.text_eq
  · refine ⟨after, ?_, hafter⟩
    rw [View.start_back h.text_eq]
    exact Text.dropBytes?_add hdrop

theorem back_cons (h : v.Bounded input (c :: s)) : (v.back s).Bounded input s := h.back (t := [c])

theorem trimmed (h : v.Bounded input s) : v.trimmed.Bounded input s.trimmed := by
  obtain ⟨after, hdrop, hafter⟩ := h.behind
  obtain ⟨behind, hblank, hbehind, -⟩ := Text.eq_run_append_trimmed s
  have hs := CharSet.run_append_afterRun .blank s
  rw [hbehind] at hs
  rw [← hs, List.append_assoc, List.append_assoc] at hdrop
  constructor
  · exact View.text_trimmed h.text_eq
  · refine ⟨behind ++ after, ?_, hafter.behind hblank⟩
    rw [View.start_trimmed h.text_eq]
    exact Text.dropBytes?_add hdrop

theorem splitAt_fst (h : v.Bounded input (t ++ ')' :: r)) :
    (v.splitAt (byteLength t)).1.Bounded input t := by
  obtain ⟨after, hdrop, -⟩ := h.behind
  rw [List.append_assoc] at hdrop
  constructor
  · exact View.text_splitAt_fst h.text_eq
  · have hfollows : TokenKind.closeParen.followsOperand = true := rfl
    exact ⟨')' :: r ++ after, hdrop, .of_followsOperand hfollows rfl⟩

theorem longest_char {kind : TokenKind} (h : v.Bounded input (c :: s))
    (hkind : ∀ next rest, (Token.placed v.start kind [c]).Longest next rest) :
    Token.AllLongest input [Token.placed v.start kind [c]] := by
  obtain ⟨after, hdrop, -⟩ := h.behind
  exact ⟨⟨_, Text.dropBytes?_add (t := [c]) hdrop, hkind _ _⟩, trivial⟩

theorem longest_integer (h : v.Bounded input (t ++ r)) (hne : t ≠ []) (ht : CharSet.digit.All t)
    (hr : CharSet.digit.NotAhead r) (hnone : Literal.decimal? (t ++ r) = none) :
    Token.AllLongest input [Token.placed v.start .integer t] := by
  obtain ⟨after, hdrop, hafter⟩ := h.behind
  rw [List.append_assoc] at hdrop
  refine ⟨⟨_, Text.dropBytes?_add hdrop, hne, ht, hr.append hafter.not_digit, ?_⟩, trivial⟩
  intro _ rest hrest
  have hmore := Literal.decimal?_append_eq_none ht hr hnone hafter.not_digit hafter.2
  rw [hrest] at hmore
  exact (Literal.decimal?_dot_eq_none_iff ht).mp hmore

theorem longest_decimal {whole fraction : Text} (h : v.Bounded input (whole ++ '.' :: fraction ++ r))
    (hne : whole ≠ []) (hw : CharSet.digit.All whole) (hne' : fraction ≠ [])
    (hf : CharSet.digit.All fraction) (hr : CharSet.digit.NotAhead r) :
    Token.AllLongest input [Token.placed v.start .integer whole,
      Token.placed (v.start + byteLength whole) .dot ['.'],
      Token.placed (v.start + byteLength whole + 1) .fraction fraction] := by
  obtain ⟨after, hdrop, hafter⟩ := h.behind
  simp only [List.append_assoc, List.cons_append] at hdrop
  have hdot := Text.dropBytes?_add hdrop
  have hfraction := Text.dropBytes?_add (t := ['.']) hdot
  have hrest := Text.dropBytes?_add hfraction
  refine ⟨⟨_, hdot, hne, hw, ?_, ?_⟩, ⟨_, hfraction, '.', rfl, rfl⟩,
    ⟨_, hrest, hne', hf, hr.append hafter.not_digit⟩, trivial⟩
  · exact CharSet.notAhead_cons.mpr Literal.not_digit_dot
  · intro hnext
    exact absurd rfl (hnext _ rfl)

theorem longest_name (x : Name) (h : v.Bounded input (x.text ++ r))
    (hr : CharSet.namePart.NotAhead r) :
    Token.AllLongest input [Token.placed v.start .identifier x.text] := by
  obtain ⟨after, hdrop, hafter⟩ := h.behind
  rw [List.append_assoc] at hdrop
  exact ⟨⟨_, Text.dropBytes?_add hdrop, ⟨x, rfl⟩, hr.append hafter.1⟩, trivial⟩

end View.Bounded

/-- The tokens of the attempt go on as far as their kinds allow, and what a success comes to is as
promised. -/
structure Attempt.MatchesLongest {α : Type} (input : Text) (leaves : α → Prop) (x : Attempt α) :
    Prop where
  tokens : Token.AllLongest input x.tokens
  leaves : ∀ a, x.outcome = .ok a → leaves a

namespace Attempt.MatchesLongest
variable {α β : Type} {input : Text} {leaves : α → Prop} {leaves' : β → Prop} {x y : Attempt α}
  {ts : List Token}

theorem pure {a : α} (h : leaves a) : (pure a : Attempt α).MatchesLongest input leaves := by
  constructor
  · trivial
  · intro b hb
    obtain rfl : a = b := Except.ok.inj hb
    exact h

theorem fail (failure : Failure) :
    (fail failure : Attempt α).MatchesLongest input leaves := ⟨trivial, nofun⟩

theorem of_reads (h : x.Reads ts y) (hts : Token.AllLongest input ts)
    (hy : y.MatchesLongest input leaves) : x.MatchesLongest input leaves := by
  constructor
  · rw [h.tokens]
    exact hts.append hy.tokens
  · rw [h.outcome]
    exact hy.leaves

theorem bind {f : α → Attempt β} (h : x.MatchesLongest input leaves)
    (k : ∀ a, leaves a → (f a).MatchesLongest input leaves') :
    (x >>= f).MatchesLongest input leaves' := by
  cases hout : x.outcome with
  | error failure =>
      obtain ⟨htokens, houtcome⟩ := bind_of_error hout f
      constructor
      · rw [htokens]
        exact h.tokens
      · rw [houtcome]
        exact nofun
  | ok a => exact of_reads (bind_of_ok hout f) h.tokens (k a (h.leaves a hout))

end Attempt.MatchesLongest

namespace Reading
variable {α : Type} {input s : Text} {leaves : α → Prop} {f g : View → Attempt View} {v : View}
  {c : Char} {n : Nat}

def ReadsLongest (input : Text) (leaves : α → Prop) (f : View → Attempt α) : Prop :=
  ∀ ⦃v : View⦄ ⦃s : Text⦄, v.Bounded input s → (f v).MatchesLongest input leaves

theorem ReadsLongest.trim {f : View → Attempt α} (hf : ReadsLongest input leaves f) :
    ReadsLongest input leaves (fun v => trim v >>= f) := by
  intro v s h
  dsimp only
  rw [trim_eq_pure h.text_eq, pure_bind]
  exact hf h.trimmed

theorem matchesLongest_number (h : v.Bounded input (c :: s)) (hc : CharSet.digit.contains c = true) :
    (number v).MatchesLongest input (View.InBounds input) := by
  obtain ⟨t, r, hs, hne, ht, hr, hnone⟩ | ⟨whole, fraction, r, hs, hwhole, hw, hne, hf, hr⟩ :=
    Literal.number_cases hc s
  · rw [hs] at h
    have hreads := reads_integer h.text_eq hne ht hr hnone
    exact .of_reads hreads (h.longest_integer hne ht hr hnone) (.pure ⟨r, h.back⟩)
  · rw [hs] at h
    have hreads := reads_decimal h.text_eq hw hne hf hr
    exact .of_reads hreads (h.longest_decimal hwhole hw hne hf hr) (.pure ⟨r, h.back⟩)

theorem matchesLongest_name (h : v.Bounded input (c :: s))
    (hc : CharSet.nameStart.contains c = true) :
    (name v).MatchesLongest input (View.InBounds input) := by
  obtain ⟨t, r, hs, ht, hr⟩ := Literal.name_cases c s
  rw [hs] at h
  have hreads := reads_name h.text_eq hc ht hr
  have hrest := View.Bounded.back (t := c :: t) h
  exact .of_reads hreads (h.longest_name ⟨c, t, hc, ht⟩ hr) (.pure ⟨r, hrest⟩)

theorem matchesLongest_group (hf : ReadsLongest input (fun _ => True) (expression f))
    (h : v.Bounded input ('(' :: s)) :
    (group f v).MatchesLongest input (View.InBounds input) := by
  have hopen : Token.AllLongest input [Token.placed v.start .openParen ['(']] :=
    h.longest_char fun _ _ => ⟨'(', rfl, rfl⟩
  have hrest := h.back_cons
  cases hclose : Literal.closing? s with
  | none => exact .of_reads (reads_group_unmatched h.text_eq hclose) hopen (.fail _)
  | some n =>
      obtain ⟨inner, after, rfl, rfl⟩ := Literal.exists_of_closing? hclose
      have hbehind := hrest.back
      have hreads := reads_char hbehind.text_eq rfl .closeParen
      refine .of_reads (reads_group h.text_eq hclose) hopen ?_
      apply Attempt.MatchesLongest.bind (hf hrest.splitAt_fst)
      intro _ _
      exact .of_reads hreads (hbehind.longest_char fun _ _ => ⟨')', rfl, rfl⟩)
        (.pure ⟨after, hbehind.back_cons⟩)

theorem matchesLongest_sign (hf : ReadsLongest input (View.InBounds input) f)
    (h : v.Bounded input ('-' :: s)) :
    (sign f v).MatchesLongest input (View.InBounds input) :=
  .of_reads (reads_sign h.text_eq) (h.longest_char fun _ _ => ⟨'-', rfl, rfl⟩)
    (hf h.back_cons.trimmed)

theorem readsLongest_operand
    (hf : ∀ ⦃v s⦄, View.Bounded input ('(' :: s) v →
      (f v).MatchesLongest input (View.InBounds input))
    (hg : ∀ ⦃v s⦄, View.Bounded input ('-' :: s) v →
      (g v).MatchesLongest input (View.InBounds input)) :
    ReadsLongest input (View.InBounds input) (operand f g) := by
  intro v s h
  cases s with
  | nil => exact .of_reads (reads_operand_nil h.text_eq) trivial (.fail _)
  | cons c s =>
      refine .of_reads (reads_operand h.text_eq) trivial ?_
      split_ifs with hdigit hname hopen hminus
      · exact matchesLongest_number h hdigit
      · exact matchesLongest_name h hname
      · obtain rfl : c = '(' := of_decide_eq_true hopen
        exact hf h
      · obtain rfl : c = '-' := of_decide_eq_true hminus
        exact hg h
      · exact .fail _

theorem readsLongest_products (hf : ReadsLongest input (View.InBounds input) f) (n : Nat) :
    ReadsLongest input (View.InBounds input) (products f n) := by
  induction n with
  | zero => exact fun v s h => .pure ⟨s, h⟩
  | succ n ih =>
      intro v s h
      by_cases hahead : CharSet.mulOp.NotAhead s
      · rw [products_of_notAhead h.text_eq hahead]
        exact .pure ⟨s, h⟩
      · obtain ⟨c, r, rfl, hc⟩ := CharSet.exists_of_not_notAhead hahead
        refine .of_reads (reads_products h.text_eq hc) (h.longest_char fun _ _ => ⟨c, rfl, hc⟩) ?_
        apply Attempt.MatchesLongest.bind (hf h.back_cons.trimmed)
        rintro w ⟨t, hw⟩
        exact ih.trim hw

theorem readsLongest_term (hf : ReadsLongest input (View.InBounds input) f) :
    ReadsLongest input (View.InBounds input) (term f) := by
  intro v s h
  have hproducts : ReadsLongest input (View.InBounds input) (fun w => products f w.length w) :=
    fun w t hw => readsLongest_products hf w.length hw
  refine .of_reads (reads_term f v) trivial ?_
  apply Attempt.MatchesLongest.bind (hf h)
  rintro w ⟨t, hw⟩
  exact hproducts.trim hw

theorem readsLongest_sums (hf : ReadsLongest input (View.InBounds input) f) (n : Nat) :
    ReadsLongest input (View.InBounds input) (sums f n) := by
  induction n with
  | zero => exact fun v s h => .pure ⟨s, h⟩
  | succ n ih =>
      intro v s h
      by_cases hahead : CharSet.addOp.NotAhead s
      · rw [sums_of_notAhead h.text_eq hahead]
        exact .pure ⟨s, h⟩
      obtain ⟨c, r, rfl, hc⟩ := CharSet.exists_of_not_notAhead hahead
      have hop : Token.AllLongest input [Token.placed v.start .addOp [c]] :=
        h.longest_char fun _ _ => ⟨c, rfl, hc⟩
      have hnext := h.back_cons.trimmed
      by_cases hguard : ['(', ')'] <+: Text.trimmed r
      · -- the two parentheses of the empty group are read before it is refused
        obtain ⟨rest, hrest⟩ := hguard
        rw [← hrest] at hnext
        have hopen : Token.AllLongest input
            [Token.placed (v.back r).trimmed.start .openParen ['(']] :=
          hnext.longest_char fun _ _ => ⟨'(', rfl, rfl⟩
        have hclose : Token.AllLongest input
            [Token.placed ((v.back r).trimmed.start + 1) .closeParen [')']] := by
          have hstart : ((v.back r).trimmed.back (')' :: rest)).start =
              (v.back r).trimmed.start + 1 := View.start_back_cons hnext.text_eq
          rw [← hstart]
          exact hnext.back_cons.longest_char fun _ _ => ⟨')', rfl, rfl⟩
        exact .of_reads (reads_sums_empty h.text_eq hc hrest.symm)
          (hop.append (hopen.append hclose)) (.fail _)
      · refine .of_reads (reads_sums h.text_eq hc hguard) hop ?_
        apply Attempt.MatchesLongest.bind (readsLongest_term hf hnext)
        rintro w ⟨t, hw⟩
        exact ih hw

theorem readsLongest_expression (hf : ReadsLongest input (View.InBounds input) f) :
    ReadsLongest input (fun _ => True) (expression f) := by
  intro v s h
  refine .of_reads (reads_expression h.text_eq) trivial ?_
  apply Attempt.MatchesLongest.bind (readsLongest_term hf h.trimmed)
  rintro w ⟨t, hw⟩
  apply Attempt.MatchesLongest.bind (readsLongest_sums hf w.length hw)
  intro w _
  split_ifs
  · exact .pure trivial
  · exact .fail _

theorem readsLongest_factor (input : Text) (limit room : Nat) :
    ReadsLongest input (View.InBounds input) (factor limit room) := by
  induction room with
  | zero => exact readsLongest_operand (fun _ _ _ => .fail _) (fun _ _ _ => .fail _)
  | succ room ih =>
      exact readsLongest_operand
        (fun _ _ h => matchesLongest_group (readsLongest_expression ih) h)
        (fun _ _ h => matchesLongest_sign ih h)

end Reading

theorem allLongest_recognize (limit : NestingLimit) (input : Text) :
    Token.AllLongest input (recognize limit input).tokens := by
  have hfactor := Reading.readsLongest_factor input limit.levels limit.levels
  exact ((Reading.readsLongest_expression hfactor).trim (View.Bounded.whole input)).tokens

end ArithGrammar
