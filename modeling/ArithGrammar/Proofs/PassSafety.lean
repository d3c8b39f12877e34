import ArithGrammar.Proofs.CheckedPass
import ArithGrammar.Proofs.LoopBounds

/-!
# No check fails

The pass with its checks does what recognition does, so none of its checks fails on any text and
under any limit (`checked_recognize`). `Checked.Runs d P p x` says so of a step `p` of the pass and
an attempt `x`: from the depth `d` on the step comes to what the attempt comes to, tokens and trace
included, and is back at that depth however it ends. It goes through sequences (`Runs.bind`), so
there is one statement for each operation on views, and one for each rule.

All that the checks need is that a view has a text. Every operation leaves a view that has one, and
no more of it than before, which is why the loops run out of operators before their bounds.
-/
namespace ArithGrammar
open Text (byteLength)

theorem View.SoundIn.of_text {input s : Text} {v : View} (hv : v.source = input)
    (h : v.text = .ok s) : v.SoundIn input := by
  obtain ⟨before, after, hsource, hstart, hstop⟩ := View.text_eq_ok_iff.mp h
  rw [hv] at hsource
  refine ⟨hv, by omega, ?_, ?_, ?_⟩
  · rw [hsource, Text.byteLength_append, Text.byteLength_append]
    omega
  · exact Text.isBoundary_iff.mpr ⟨before, s ++ after, by simpa using hsource, hstart⟩
  · exact Text.isBoundary_iff.mpr ⟨before ++ s, after, hsource, by
      rw [Text.byteLength_append, hstart, hstop]⟩

/-- The view is one of the text, and has at most `n` bytes of it. -/
def View.Left (input : Text) (n : Nat) (v : View) : Prop :=
  v.source = input ∧ ∃ s, v.text = .ok s ∧ byteLength s ≤ n

namespace View.Left
variable {input t r : Text} {v : View} {n m : Nat}

theorem mono (h : v.Left input n) (hnm : n ≤ m) : v.Left input m := by
  obtain ⟨hv, s, hs, hle⟩ := h
  exact ⟨hv, s, hs, hle.trans hnm⟩

theorem back (hv : v.source = input) (h : v.text = .ok (t ++ r)) :
    (v.back r).Left input (byteLength (t ++ r)) := by
  refine ⟨hv, r, View.text_back h, ?_⟩
  rw [Text.byteLength_append]
  omega

end View.Left

namespace Checked
open Attempt
variable {α β : Type} {d : Nat} {P : α → Prop} {Q : β → Prop} {p : Checked α} {x : Attempt α}
  {input s t r : Text} {v w : View} {c : Char}

/-- From the depth on the step does what the attempt does, and gets back to that depth. -/
structure Runs (d : Nat) (P : α → Prop) (p : Checked α) (x : Attempt α) : Prop where
  run : ∀ tokens trace, p.run.run ⟨tokens, trace, d⟩ =
    some (x.outcome, ⟨tokens ++ x.tokens, trace ++ x.trace, d⟩)
  post : ∀ a, x.outcome = .ok a → P a

namespace Runs

theorem pure {a : α} (h : P a) : Runs d P (pure a : Checked α) (pure a : Attempt α) := by
  refine ⟨fun tokens trace => ?_, ?_⟩
  · simp only [pure_eq, List.append_nil]
    rfl
  · rintro b hb
    obtain rfl : a = b := Except.ok.inj hb
    exact h

theorem fail (failure : Failure) :
    Runs d P (throw failure : Checked α) (fail failure : Attempt α) := by
  refine ⟨fun tokens trace => ?_, nofun⟩
  simp only [fail_eq, List.append_nil]
  rfl

theorem bind {q : α → Checked β} {f : α → Attempt β} (h : Runs d P p x)
    (k : ∀ a, P a → Runs d Q (q a) (f a)) : Runs d Q (p >>= q) (x >>= f) := by
  obtain ⟨xs, events, outcome⟩ := x
  obtain ⟨hrun, hpost⟩ := h
  cases outcome with
  | error failure =>
      refine ⟨fun tokens trace => ?_, nofun⟩
      rw [ExceptT.run_bind, StateT.run_bind, hrun]
      rfl
  | ok a =>
      obtain ⟨hrun', hpost'⟩ := k a (hpost a rfl)
      refine ⟨fun tokens trace => ?_, hpost'⟩
      rw [ExceptT.run_bind, StateT.run_bind, hrun, ok_bind, ← List.append_assoc, ← List.append_assoc]
      exact hrun' _ _

theorem mono {Q : α → Prop} (h : Runs d P p x) (hPQ : ∀ a, P a → Q a) : Runs d Q p x :=
  ⟨h.run, fun a ha => hPQ a (h.post a ha)⟩

theorem ite {b : Prop} [Decidable b] {q : Checked α} {y : Attempt α} (hp : b → Runs d P p x)
    (hq : ¬ b → Runs d P q y) : Runs d P (if b then p else q) (if b then x else y) := by
  split_ifs with hb
  · exact hp hb
  · exact hq hb

end Runs

theorem require_eq {p : Prop} [Decidable p] (hp : p) : require p = pure () := if_pos hp

theorem rest_eq (h : v.text = .ok s) : rest v = pure s := by
  rw [rest, h]
  rfl

theorem headIn_eq (h : v.text = .ok s) (set : CharSet) :
    headIn set v = pure (s.head?.any set.contains) := by
  rw [headIn, View.headIn_eq h]
  rfl

theorem sound_eq (hv : v.source = input) (h : v.text = .ok s) : sound input v = pure v := by
  rw [sound, require_eq (View.SoundIn.of_text hv h), pure_bind]

theorem splitAt_eq (hv : v.source = input) (h : v.text = .ok (t ++ r)) :
    splitAt input (byteLength t) v = pure ((v.splitAt (byteLength t)).1, v.back r) := by
  rw [splitAt, sound_eq (v := (v.splitAt (byteLength t)).1) hv (View.text_splitAt_fst h),
    View.splitAt_snd h, sound_eq (v := v.back r) hv (View.text_back h), pure_bind, pure_bind]

/-- What is dropped in front and behind is blank, and no more than there is. -/
theorem trim_eq (hv : v.source = input) (h : v.text = .ok s) : trim input v = pure v.trimmed := by
  have hs := CharSet.run_append_afterRun .blank s
  have hfront : byteLength s = byteLength (CharSet.blank.run s) +
      byteLength (CharSet.blank.afterRun s) := by
    rw [← Text.byteLength_append, hs]
  obtain ⟨behind, -, hafter, hlen⟩ := Text.eq_run_append_trimmed s
  have hbehind : byteLength (CharSet.blank.afterRun s) =
      byteLength (Text.trimmed s) + byteLength behind := by
    rw [← Text.byteLength_append, ← hafter]
  have hkept : byteLength s - byteLength (CharSet.blank.afterRun s) =
      byteLength (CharSet.blank.run s) := by omega
  have hkept' : byteLength (CharSet.blank.afterRun s) - byteLength (Text.trimmed s) =
      byteLength behind := by omega
  have hstop := View.stop_eq h
  have hsplit : v.text = .ok (CharSet.blank.run s ++ CharSet.blank.afterRun s) := by rwa [hs]
  have hback : { v with start := v.start + byteLength (CharSet.blank.run s) } =
      v.back (CharSet.blank.afterRun s) := by
    rw [← View.start_back hsplit]
    rfl
  have htrimmed : View.mk (v.back (CharSet.blank.afterRun s)).source
      (v.back (CharSet.blank.afterRun s)).start
      ((v.back (CharSet.blank.afterRun s)).stop - byteLength behind) = v.trimmed := by
    rw [← hback, View.trimmed, View.chars_eq h, hlen]
  have hrest := View.text_back hsplit
  rw [trim, rest_eq h, pure_bind]
  dsimp only
  rw [require_eq (by omega), pure_bind, hkept, hback, sound_eq (v := v.back _) hv hrest, pure_bind,
    rest_eq hrest, pure_bind]
  have hdef : (CharSet.blank.afterRun s).rdropWhile CharSet.blank.contains = Text.trimmed s := rfl
  rw [hdef, require_eq (by rw [View.stop_back]; omega), pure_bind, hkept', htrimmed,
    sound_eq (v := v.trimmed) hv (View.text_trimmed h)]

theorem runs_enter (h : v.text = .ok s) (rule : Rule) :
    Runs d (fun _ => True) (enter rule v) (Attempt.enter rule v) := by
  refine ⟨fun tokens trace => ?_, fun _ _ => trivial⟩
  rw [enter, rest_eq h, pure_bind]
  simp only [Attempt.enter, List.append_nil]
  rfl

theorem runs_keep (t : Token) : Runs d (fun _ => True) (keep t) (Attempt.keep t) :=
  ⟨fun _ _ => rfl, fun _ _ => trivial⟩

theorem map_utf8Size_eq_one (h : byteLength t = 1) : t.map Char.utf8Size = [1] := by
  cases t with
  | nil => cases h
  | cons c t =>
      have hc := c.utf8Size_pos
      rw [Text.byteLength_cons] at h
      obtain rfl : t = [] := Text.byteLength_eq_zero.mp (by omega)
      simpa using h

theorem runs_read (hv : v.source = input) (h : v.text = .ok (t ++ r)) (kind : TokenKind) :
    Runs d (· = v.back r) (read input kind (byteLength t) v)
      (Attempt.read kind (byteLength t) v) := by
  rw [read, Attempt.read, View.take_eq h, ofSlice_ok_bind, piece, pure_bind]
  dsimp only
  rw [Token.text_placed, require_eq map_utf8Size_eq_one, pure_bind]
  refine (runs_keep _).bind fun _ _ => ?_
  rw [sound_eq (v := v.back r) hv (View.text_back h)]
  exact .pure rfl

theorem runs_char (hv : v.source = input) (h : v.text = .ok (c :: s)) (hc : c.utf8Size = 1)
    (kind : TokenKind) :
    Runs d (· = v.back s) (read input kind 1 v) (Attempt.read kind 1 v) := by
  have hone : byteLength [c] = 1 := by simp [hc]
  rw [← hone]
  exact runs_read (t := [c]) hv h kind

theorem decimal?_eq (s : Text) : decimal? s = pure (Literal.decimal? s) := by
  have hs := List.takeWhile_append_dropWhile (p := fun c => !CharSet.dot.contains c) (l := s)
  have hhead := List.head?_dropWhile_not (fun c => !CharSet.dot.contains c) s
  rw [decimal?, Literal.decimal?]
  generalize s.takeWhile (fun c => !CharSet.dot.contains c) = whole at hs ⊢
  generalize s.dropWhile (fun c => !CharSet.dot.contains c) = behind at hs hhead ⊢
  cases behind with
  | nil => rfl
  | cons c fraction =>
      obtain rfl : c = '.' := by simpa [CharSet.contains] using hhead
      subst hs
      have hwhole : Text.slice (whole ++ '.' :: fraction) 0 (byteLength whole) = .ok whole :=
        Text.slice_eq_ok_iff.mpr ⟨[], '.' :: fraction, rfl, rfl, Nat.zero_add _⟩
      have hfraction : Text.slice (whole ++ '.' :: fraction) (byteLength whole + 1)
          (byteLength (whole ++ '.' :: fraction)) = .ok fraction := by
        refine Text.slice_eq_ok_iff.mpr ⟨whole ++ ['.'], [], by simp, ?_, ?_⟩
        · rw [Text.byteLength_append]
          rfl
        · rw [Text.byteLength_append, Nat.add_assoc]
          rfl
      dsimp only
      rw [hwhole, hfraction, piece, pure_bind]
      split_ifs <;> rfl

/-- A closing parenthesis takes one from the groups that are open. -/
theorem closingFrom_cons (left : Nat) (c : Char) (s : Text) :
    closingFrom (left + 1) (c :: s) =
      if Literal.openedAfter (left + 1) c = 0 then pure (some 0)
      else closingFrom (Literal.openedAfter (left + 1) c) s >>= fun n =>
        pure (n.map (c.utf8Size + ·)) := by
  have hopened : 1 ≤ if CharSet.openParen.contains c then left + 1 + 1 else left + 1 := by
    split_ifs <;> omega
  have hafter : (if CharSet.closeParen.contains c then
      (if CharSet.openParen.contains c then left + 1 + 1 else left + 1) - 1
      else if CharSet.openParen.contains c then left + 1 + 1 else left + 1) =
        Literal.openedAfter (left + 1) c := by
    unfold Literal.openedAfter
    by_cases hopen : c = '('
    · subst hopen
      rfl
    · have hcontains : CharSet.openParen.contains c = false := decide_eq_false hopen
      rw [hcontains]
      rfl
  rw [closingFrom, require_eq fun _ => hopened, pure_bind, hafter]

/-- Before every character at least one group is open. -/
theorem closingFrom_eq (left : Nat) (s : Text) :
    closingFrom (left + 1) s = pure (Literal.closingFrom (left + 1) s) := by
  induction s generalizing left with
  | nil => rfl
  | cons c s ih =>
      rw [closingFrom_cons]
      by_cases hzero : Literal.openedAfter (left + 1) c = 0
      · rw [if_pos hzero, Literal.closingFrom, hzero]
      · obtain ⟨opened, hopened⟩ := Nat.exists_eq_succ_of_ne_zero hzero
        rw [if_neg hzero, Literal.closingFrom_cons _ _ _ hzero, hopened, ih, pure_bind]

theorem closing?_eq (s : Text) : closingFrom 1 s = pure (Literal.closing? s) := closingFrom_eq 0 s

theorem runs_number (hv : v.source = input) (h : v.text = .ok (c :: s))
    (hc : CharSet.digit.contains c = true) :
    Runs d (View.Left input (byteLength (c :: s))) (number input v) (Reading.number v) := by
  rw [number, Reading.number, rest_eq h, pure_bind, decimal?_eq, pure_bind, h, ofSlice_ok_bind]
  obtain ⟨t, r, hs, hne, ht, hr, hnone⟩ | ⟨whole, fraction, r, hs, -, hw, hne, hf, hr⟩ :=
    Literal.number_cases hc s
  · rw [hs] at h ⊢
    rw [hnone, Literal.integer?_append hne ht hr]
    dsimp only
    rw [pure_bind, Literal.integer?_append hne ht hr]
    refine (runs_read hv h .integer).mono ?_
    rintro _ rfl
    exact .back hv h
  · have hsplit : v.text = .ok (whole ++ '.' :: (fraction ++ r)) := by
      rw [h, hs]
      simp
    have hlen : byteLength whole + 1 + byteLength fraction - byteLength whole - 1 =
        byteLength fraction := by omega
    rw [hs, Literal.decimal?_append hw hne hf hr]
    dsimp only
    rw [hlen]
    refine (runs_read hv hsplit .integer).bind ?_
    rintro _ rfl
    refine (runs_char (v := v.back _) hv (View.text_back hsplit) rfl .dot).bind ?_
    rintro _ rfl
    rw [require_eq (by omega), pure_bind]
    have hfraction := View.text_back_cons (View.text_back hsplit)
    refine (runs_read (v := v.back _) hv hfraction .fraction).mono ?_
    rintro _ rfl
    rw [hs] at h
    exact .back (v := v) hv h

theorem runs_name (hv : v.source = input) (h : v.text = .ok (c :: s))
    (hc : CharSet.nameStart.contains c = true) :
    Runs d (View.Left input (byteLength (c :: s))) (name input v) (Reading.name v) := by
  obtain ⟨t, r, hs, hall, hr⟩ := Literal.name_cases c s
  rw [hs] at h ⊢
  rw [name, Reading.name, rest_eq h, pure_bind, h, ofSlice_ok_bind, Literal.name?_cons hc hall hr]
  refine (runs_read hv h .identifier).mono ?_
  rintro _ rfl
  exact .back hv h

def Follows (input : Text) (d : Nat) (p : View → Checked View) (f : View → Attempt View) : Prop :=
  ∀ ⦃v s⦄, View.source v = input → v.text = .ok s →
    Runs d (View.Left input (byteLength s)) (p v) (f v)

section
variable {p : View → Checked View} {f : View → Attempt View} {n : Nat}

theorem Follows.trimmed (hf : Follows input d p f) (hv : v.source = input) (h : v.text = .ok s) :
    Runs d (View.Left input (byteLength s)) (p v.trimmed) (f v.trimmed) :=
  (hf (v := v.trimmed) hv (View.text_trimmed h)).mono fun _ hw =>
    hw.mono (Text.byteLength_trimmed_le s)

theorem runs_sign (hf : Follows input d p f) (hv : v.source = input)
    (h : v.text = .ok ('-' :: s)) :
    Runs d (View.Left input (byteLength ('-' :: s))) (sign input p v) (Reading.sign f v) := by
  have hback := View.text_back_cons h
  rw [sign, Reading.sign]
  refine (runs_char hv h rfl .minus).bind ?_
  rintro _ rfl
  rw [trim_eq (v := v.back s) hv hback, trim_eq_pure hback, pure_bind, pure_bind]
  refine (hf.trimmed (v := v.back s) hv hback).mono fun w hw => hw.mono ?_
  rw [Text.byteLength_cons]
  omega

/-- The view has at most `n` bytes of the text and no blanks at its ends. -/
def Settled (input : Text) (n : Nat) (w : View) : Prop := w.Left input n ∧ w.trimmed = w

theorem Settled.mono {m : Nat} (h : Settled input n w) (hnm : n ≤ m) : Settled input m w :=
  ⟨h.1.mono hnm, h.2⟩

theorem runs_products (hf : Follows input d p f) (hv : v.source = input) (h : v.text = .ok s)
    (hsettled : v.trimmed = v) (hn : byteLength s ≤ n) :
    Runs d (Settled input (byteLength s)) (products input p n v) (Reading.products f n v) := by
  induction n generalizing v s with
  | zero =>
      obtain rfl : s = [] := Text.byteLength_eq_zero.mp (Nat.le_zero.mp hn)
      rw [products, headIn_eq h, pure_bind]
      exact .pure ⟨⟨hv, [], h, le_rfl⟩, hsettled⟩
  | succ n ih =>
      by_cases hs : CharSet.mulOp.NotAhead s
      · rw [products, headIn_eq h, pure_bind, CharSet.notAhead_iff_any.mp hs,
          Reading.products_of_notAhead h hs]
        exact .pure ⟨⟨hv, s, h, le_rfl⟩, hsettled⟩
      · obtain ⟨c, s, rfl, hc⟩ := CharSet.exists_of_not_notAhead hs
        have hback := View.text_back_cons h
        have hsize := c.utf8Size_pos
        have hone := CharSet.utf8Size_eq_one hc
        rw [Text.byteLength_cons] at hn ⊢
        rw [products, Reading.products, headIn_eq h, View.headIn_eq h, pure_bind, ofSlice_ok_bind,
          List.head?_cons, Option.any_some, if_pos hc, if_pos hc]
        refine (runs_char hv h hone .mulOp).bind ?_
        rintro _ rfl
        rw [trim_eq (v := v.back s) hv hback, trim_eq_pure hback, pure_bind, pure_bind]
        refine (hf.trimmed (v := v.back s) hv hback).bind ?_
        rintro w ⟨hw, t, ht, hle⟩
        have htrimmed := Text.byteLength_trimmed_le t
        rw [trim_eq hw ht, trim_eq_pure ht, pure_bind, pure_bind]
        refine (ih (v := w.trimmed) hw (View.text_trimmed ht) (View.trimmed_trimmed ht)
          (by omega)).mono fun u hu => hu.mono (by omega)

theorem runs_term (hf : Follows input d p f) (hv : v.source = input) (h : v.text = .ok s)
    (hsettled : v.trimmed = v) :
    Runs d (Settled input (byteLength s)) (term input p v) (Reading.term f v) := by
  rw [term, Reading.term]
  refine (runs_enter h .term).bind fun _ _ => ?_
  rw [trim_eq hv h, pure_bind, hsettled]
  refine (hf hv h).bind ?_
  rintro w ⟨hw, t, ht, hle⟩
  have htrimmed := Text.byteLength_trimmed_le t
  rw [trim_eq hw ht, trim_eq_pure ht, pure_bind, pure_bind]
  exact (runs_products hf (v := w.trimmed) hw (View.text_trimmed ht) (View.trimmed_trimmed ht)
    (View.length_eq (View.text_trimmed ht)).ge).mono fun u hu => hu.mono (by omega)

theorem runs_sums (hf : Follows input d p f) (hv : v.source = input) (h : v.text = .ok s)
    (hn : byteLength s ≤ n) :
    Runs d (View.Left input (byteLength s)) (sums input p n v) (Reading.sums f n v) := by
  induction n generalizing v s with
  | zero =>
      obtain rfl : s = [] := Text.byteLength_eq_zero.mp (Nat.le_zero.mp hn)
      rw [sums, headIn_eq h, pure_bind]
      exact .pure ⟨hv, [], h, le_rfl⟩
  | succ n ih =>
      by_cases hs : CharSet.addOp.NotAhead s
      · rw [sums, headIn_eq h, pure_bind, CharSet.notAhead_iff_any.mp hs,
          Reading.sums_of_notAhead h hs]
        exact .pure ⟨hv, s, h, le_rfl⟩
      · obtain ⟨c, s, rfl, hc⟩ := CharSet.exists_of_not_notAhead hs
        have hback := View.text_back_cons h
        have hsize := c.utf8Size_pos
        have hone := CharSet.utf8Size_eq_one hc
        have htrimmed := View.text_trimmed hback
        have hle := Text.byteLength_trimmed_le s
        rw [Text.byteLength_cons] at hn ⊢
        rw [sums, Reading.sums, headIn_eq h, View.headIn_eq h, pure_bind, ofSlice_ok_bind,
          List.head?_cons, Option.any_some, if_pos hc, if_pos hc]
        refine (runs_char hv h hone .addOp).bind ?_
        rintro _ rfl
        rw [trim_eq (v := v.back s) hv hback, trim_eq_pure hback, pure_bind, pure_bind,
          View.beginsWith_eq htrimmed, piece, pure_bind, ofSlice_ok_bind]
        by_cases hguard : ['(', ')'] <+: Text.trimmed s
        · obtain ⟨r, hr⟩ := hguard
          rw [← hr, if_pos (by simp), if_pos (by simp)]
          rw [← hr] at htrimmed
          refine (runs_char (v := (v.back s).trimmed) hv htrimmed rfl .openParen).bind ?_
          rintro _ rfl
          refine (runs_char (v := (v.back s).trimmed.back _) hv (View.text_back_cons htrimmed) rfl
            .closeParen).bind fun _ _ => ?_
          exact .fail .mismatch
        · rw [if_neg (by simpa using hguard), if_neg (by simpa using hguard)]
          refine (runs_term hf (v := (v.back s).trimmed) hv htrimmed
            (View.trimmed_trimmed hback)).bind ?_
          rintro w ⟨⟨hw, t, ht, htle⟩, hsettled⟩
          rw [trim_eq hw ht, pure_bind, hsettled]
          exact (ih hw ht (by omega)).mono fun u hu => hu.mono (by omega)

theorem runs_expression (hf : Follows input d p f) (hv : v.source = input) (h : v.text = .ok s) :
    Runs d (fun _ => True) (expression input p v) (Reading.expression f v) := by
  rw [expression, Reading.expression]
  refine (runs_enter h .expression).bind fun _ _ => ?_
  rw [trim_eq hv h, trim_eq_pure h, pure_bind, pure_bind]
  refine (runs_term hf (v := v.trimmed) hv (View.text_trimmed h) (View.trimmed_trimmed h)).bind ?_
  rintro w ⟨⟨hw, t, ht, -⟩, hsettled⟩
  rw [trim_eq hw ht, pure_bind, hsettled]
  refine (runs_sums hf hw ht (View.length_eq ht).ge).bind fun u _ => ?_
  split_ifs
  · exact .pure trivial
  · exact .fail .mismatch

theorem runs_group (hf : Follows input d p f) (hv : v.source = input)
    (h : v.text = .ok ('(' :: s)) :
    Runs d (View.Left input (byteLength ('(' :: s))) (group input p v) (Reading.group f v) := by
  have hback := View.text_back_cons h
  rw [group, Reading.group]
  refine (runs_char hv h rfl .openParen).bind ?_
  rintro _ rfl
  rw [rest_eq hback, pure_bind, closing?_eq, pure_bind, hback, ofSlice_ok_bind]
  cases hclose : Literal.closing? s with
  | none => exact .fail .mismatch
  | some n =>
      obtain ⟨inner, after, rfl, rfl⟩ := Literal.exists_of_closing? hclose
      have hinner := View.text_splitAt_fst hback
      have hleft := View.text_back hback
      have hsplit := View.splitAt_snd hback
      dsimp only
      rw [splitAt_eq (v := v.back _) hv hback, pure_bind]
      change Runs d _ _ (Reading.expression f _ >>= fun _ =>
        Attempt.read .closeParen 1 (View.splitAt (v.back _) (byteLength inner)).2)
      rw [hsplit]
      refine (runs_expression hf (v := ((v.back _).splitAt _).1) hv hinner).bind fun _ _ => ?_
      rw [require_eq ⟨View.start_back hback, by rw [View.chars_eq hleft]; rfl⟩, pure_bind]
      refine (runs_char (v := (v.back _).back _) hv hleft rfl .closeParen).mono ?_
      rintro _ rfl
      have hgroup : '(' :: (inner ++ ')' :: after) = '(' :: inner ++ [')'] ++ after := by simp
      rw [hgroup] at h ⊢
      exact .back (v := v) hv h

theorem runs_deeper {x : Attempt View} {R : View → Prop} (h : Runs (d + 1) R (p v) x) :
    Runs d R (deeper p v) x := by
  refine ⟨fun tokens trace => ?_, h.post⟩
  have hopen : (deeper p v).run.run ⟨tokens, trace, d⟩ =
      (ExceptT.lift (p v).run >>= fun y => do
        require (1 ≤ (← get).depth)
        modify fun st => { st with depth := st.depth - 1 }
        ExceptT.mk (pure y) : Checked View).run.run ⟨tokens, trace, d + 1⟩ := rfl
  rw [hopen, ExceptT.run_bind, ExceptT.run_lift, StateT.run_bind, StateT.run_map, h.run]
  rfl

theorem runs_nested {limit : Nat} {x : Attempt View} {R : View → Prop} (hd : d < limit)
    (h : Runs (d + 1) R (p v) x) : Runs d R (nested limit p v) x := by
  refine ⟨fun tokens trace => ?_, h.post⟩
  have hopen : (nested limit p v).run.run ⟨tokens, trace, d⟩ =
      (if limit ≤ d then throw (.tooDeep limit) else deeper p v : Checked View).run.run
        ⟨tokens, trace, d⟩ := rfl
  rw [hopen, if_neg (by omega)]
  exact (runs_deeper h).run tokens trace

theorem runs_nested_full {limit : Nat} {R : View → Prop} :
    Runs limit R (nested limit p v) (fail (.tooDeep limit)) := by
  refine ⟨fun tokens trace => ?_, nofun⟩
  have hopen : (nested limit p v).run.run ⟨tokens, trace, limit⟩ =
      (if limit ≤ limit then throw (.tooDeep limit) else deeper p v : Checked View).run.run
        ⟨tokens, trace, limit⟩ := rfl
  rw [hopen, if_pos le_rfl]
  simp only [fail_eq, List.append_nil]
  rfl

theorem runs_operand {p' : View → Checked View} {f' : View → Attempt View}
    (hf : ∀ ⦃v s⦄, View.source v = input → v.text = .ok ('(' :: s) →
      Runs d (View.Left input (byteLength ('(' :: s))) (p v) (f v))
    (hf' : ∀ ⦃v s⦄, View.source v = input → v.text = .ok ('-' :: s) →
      Runs d (View.Left input (byteLength ('-' :: s))) (p' v) (f' v)) :
    Follows input d (operand input p p') (Reading.operand f f') := by
  intro v s hv h
  rw [operand, Reading.operand]
  refine (runs_enter h .factor).bind fun _ _ => ?_
  rw [View.head?_eq h, ofSlice_ok_bind]
  simp only [headIn_eq h, pure_bind]
  cases s with
  | nil => exact .fail .mismatch
  | cons c s =>
      simp only [List.head?_cons, Option.any_some]
      refine .ite (fun hdigit => runs_number hv h hdigit) fun _ => ?_
      refine .ite (fun hname => runs_name hv h hname) fun _ => ?_
      refine .ite (fun hopen => ?_) fun _ => .ite (fun hminus => ?_) fun _ => .fail .mismatch
      · obtain rfl : c = '(' := of_decide_eq_true hopen
        exact hf hv h
      · obtain rfl : c = '-' := of_decide_eq_true hminus
        exact hf' hv h

end

/-- The calls that a limit allows are enough, from the depth where so much room is left. -/
theorem follows_factor {limit room : Nat} (hd : d + room = limit) :
    Follows input d (factor input limit (room + 1)) (Reading.factor limit room) := by
  induction room generalizing d with
  | zero =>
      obtain rfl : d = limit := hd
      exact runs_operand (fun _ _ _ _ => runs_nested_full) (fun _ _ _ _ => runs_nested_full)
  | succ room ih =>
      have hlt : d < limit := by omega
      have hfactor := ih (d := d + 1) (by omega)
      exact runs_operand (fun _ _ hv h => runs_nested hlt (runs_group hfactor hv h))
        (fun _ _ hv h => runs_nested hlt (runs_sign hfactor hv h))

theorem runs_recognize (limit : NestingLimit) (input : Text) :
    Runs 0 (fun _ => True) (recognize input limit) (ArithGrammar.recognize limit input) := by
  have hwhole := View.text_whole input
  have hfactor : Follows input 0 (factor input limit.levels (limit.levels + 1))
      (Reading.factor limit.levels limit.levels) := follows_factor (Nat.zero_add _)
  have hsource : (View.whole input).source = input := rfl
  rw [recognize, ArithGrammar.recognize, sound_eq hsource hwhole, pure_bind,
    trim_eq hsource hwhole, trim_eq_pure hwhole, pure_bind, pure_bind]
  exact runs_expression hfactor (v := (View.whole input).trimmed) rfl (View.text_trimmed hwhole)

end Checked

/-- No check fails, what comes out is what recognition comes to, and the depth is what it was. -/
theorem checked_recognize (n : Nat) (input : Text) :
    let attempt := recognize (.ofNat n) input
    (Checked.recognize input (.ofNat n)).run.run ⟨[], [], 0⟩ =
        some (attempt.outcome, ⟨attempt.tokens, attempt.trace, 0⟩) ∧
      ∀ error, attempt.outcome ≠ .error (.badSlice error) := by
  intro attempt
  have hrun := (Checked.runs_recognize (.ofNat n) input).run [] []
  refine ⟨hrun, fun error herror => ?_⟩
  obtain ⟨read, rest, -, -, -, hout⟩ := covers_recognize (.ofNat n) input
  have houtcome : (recognize (.ofNat n) input).outcome = .error (.badSlice error) := herror
  rw [houtcome] at hout
  exact hout.2 error rfl

end ArithGrammar
