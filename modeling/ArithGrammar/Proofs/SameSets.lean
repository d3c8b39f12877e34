import ArithGrammar.Proofs.Completion
import ArithGrammar.Proofs.LoopBounds

/-!
# Characters count by their sets

Where a function on characters leaves every character in the sets that it is in, and puts it in no
other, the image of a text is read as the text itself: the same kinds of tokens at the same places,
with the images of their texts, and the same end for the same reason (`evaluate_image`). A character
that is in no set may take more bytes or fewer afterwards, and what stands behind it moves. But
nothing is read there: reading goes on behind a group only if all characters within are in some set,
and those take one byte each.
-/
namespace ArithGrammar
open Text (byteLength)

/-- The image of each character is in the sets of the character and in no other. -/
def KeepsSets (f : Char → Char) : Prop :=
  ∀ (set : CharSet) (c : Char), set.contains (f c) = set.contains c

def Text.InSets (s : Text) : Prop := ∀ c ∈ s, ∃ set : CharSet, set.contains c = true

theorem CharSet.All.inSets {set : CharSet} {s : Text} (hs : set.All s) : s.InSets :=
  fun c hc => ⟨set, hs c hc⟩

namespace Text.InSets
variable {s t : Text}

theorem cons {set : CharSet} {c : Char} (hc : set.contains c = true) (hs : s.InSets) :
    InSets (c :: s) := List.forall_mem_cons.mpr ⟨⟨set, hc⟩, hs⟩

theorem char {set : CharSet} {c : Char} (hc : set.contains c = true) : InSets [c] :=
  cons hc nofun

theorem append (hs : s.InSets) (ht : t.InSets) : (s ++ t).InSets :=
  List.forall_mem_append.mpr ⟨hs, ht⟩

/-- What is laid out in a text is in the sets of its terminals, and the gaps are blank. -/
theorem of_laid {start : Nat} {ts : List Token} (h : Laid start ts s)
    (hts : ∀ t ∈ ts, t.terminal.Formed) : s.InSets := by
  induction ts generalizing start s with
  | nil =>
      obtain rfl := Laid.nil_iff.mp h
      exact nofun
  | cons t ts ih =>
      obtain ⟨gap, rest, rfl, hgap, -, -, -, hrest⟩ := h
      obtain ⟨ht, hts⟩ := List.forall_mem_cons.mp hts
      exact (CharSet.All.inSets hgap).append ((CharSet.All.inSets ht.all).append (ih hrest hts))

end Text.InSets

namespace KeepsSets
variable {f : Char → Char} {set : CharSet} {s t r : Text} {c : Char}

theorem contains_comp (hf : KeepsSets f) (set : CharSet) : set.contains ∘ f = set.contains :=
  funext (hf set)

theorem openParen (hf : KeepsSets f) : f '(' = '(' := of_decide_eq_true (hf .openParen '(')

theorem closeParen (hf : KeepsSets f) : f ')' = ')' := of_decide_eq_true (hf .closeParen ')')

theorem minus (hf : KeepsSets f) : f '-' = '-' := of_decide_eq_true (hf .minus '-')

theorem dot (hf : KeepsSets f) : f '.' = '.' := of_decide_eq_true (hf .dot '.')

theorem run_map (hf : KeepsSets f) (set : CharSet) (s : Text) :
    set.run (s.map f) = (set.run s).map f := by
  rw [CharSet.run, List.takeWhile_map, hf.contains_comp]
  rfl

theorem afterRun_map (hf : KeepsSets f) (set : CharSet) (s : Text) :
    set.afterRun (s.map f) = (set.afterRun s).map f := by
  rw [CharSet.afterRun, List.dropWhile_map, hf.contains_comp]
  rfl

theorem trimmed_map (hf : KeepsSets f) (s : Text) : Text.trimmed (s.map f) = s.trimmed.map f := by
  rw [Text.trimmed, hf.afterRun_map, List.rdropWhile, ← List.map_reverse, List.dropWhile_map,
    hf.contains_comp, ← List.map_reverse]
  rfl

theorem all_map (hf : KeepsSets f) (hs : set.All s) : set.All (s.map f) :=
  List.forall_mem_map.mpr fun c hc => (hf set c).trans (hs c hc)

theorem notAhead_map (hf : KeepsSets f) (hs : set.NotAhead s) : set.NotAhead (s.map f) := by
  cases s with
  | nil => exact CharSet.notAhead_nil
  | cons c s => exact CharSet.notAhead_cons.mpr ((hf set c).trans (CharSet.notAhead_cons.mp hs))

theorem byteLength_map (hf : KeepsSets f) (hs : s.InSets) :
    byteLength (s.map f) = byteLength s := by
  induction s with
  | nil => rfl
  | cons c s ih =>
      obtain ⟨⟨set, hc⟩, hs⟩ := List.forall_mem_cons.mp hs
      have himage := CharSet.utf8Size_eq_one ((hf set c).trans hc)
      rw [List.map_cons, Text.byteLength_cons, Text.byteLength_cons, ih hs, himage,
        CharSet.utf8Size_eq_one hc]

theorem emptyGroup_map_iff (hf : KeepsSets f) : ['(', ')'] <+: s.map f ↔ ['(', ')'] <+: s := by
  have hopen : ∀ c, f c = '(' ↔ c = '(' := by
    intro c
    simpa [CharSet.contains] using hf .openParen c
  have hclose : ∀ c, f c = ')' ↔ c = ')' := by
    intro c
    simpa [CharSet.contains] using hf .closeParen c
  cases s with
  | nil => rfl
  | cons c s =>
      cases s with
      | nil => simp
      | cons d s => simp [List.cons_prefix_cons, eq_comm, hopen, hclose]

theorem decimal?_map (hf : KeepsSets f) (h : Literal.decimal? s = none) :
    Literal.decimal? (s.map f) = none := by
  have hnot : (fun c => !CharSet.dot.contains c) ∘ f = fun c => !CharSet.dot.contains c :=
    funext fun c => congrArg not (hf .dot c)
  unfold Literal.decimal? at h ⊢
  rw [List.takeWhile_map, List.dropWhile_map, hnot]
  dsimp only at h ⊢
  cases hrest : s.dropWhile fun c => !CharSet.dot.contains c with
  | nil => rfl
  | cons d fraction =>
      rw [hrest] at h
      dsimp only [List.map_cons] at h ⊢
      rw [List.all_map, hf.contains_comp]
      split_ifs at h ⊢ with hwhole
      · have hnone := Literal.integer?_eq_none_iff.mp (Option.map_eq_none_iff.mp h)
        exact Option.map_eq_none_iff.mpr (Literal.integer?_eq_none_iff.mpr (hf.notAhead_map hnone))
      · rfl

theorem openedAfter_map (hf : KeepsSets f) (opened : Nat) (c : Char) :
    Literal.openedAfter opened (f c) = Literal.openedAfter opened c := by
  rw [Literal.openedAfter, hf, hf]
  rfl

theorem closingFrom_map_eq_none (hf : KeepsSets f) {opened : Nat}
    (h : Literal.closingFrom opened s = none) : Literal.closingFrom opened (s.map f) = none := by
  induction s generalizing opened with
  | nil => rfl
  | cons c s ih =>
      by_cases hzero : Literal.openedAfter opened c = 0
      · rw [Literal.closingFrom, hzero] at h
        cases h
      · rw [Literal.closingFrom_cons _ _ _ hzero, Option.map_eq_none_iff] at h
        rw [← hf.openedAfter_map] at hzero h
        rw [List.map_cons, Literal.closingFrom_cons _ _ _ hzero, ih h, Option.map_none]

/-- The parenthesis that closes a group is the image of the one that closed it. -/
theorem closingFrom_map (hf : KeepsSets f) {opened : Nat}
    (h : Literal.closingFrom opened (s ++ ')' :: r) = some (byteLength s)) :
    Literal.closingFrom opened (s.map f ++ ')' :: r.map f) = some (byteLength (s.map f)) := by
  induction s generalizing opened with
  | nil =>
      by_cases hzero : Literal.openedAfter opened ')' = 0
      · rw [List.map_nil, List.nil_append, Literal.closingFrom, hzero]
        rfl
      · rw [List.nil_append, Literal.closingFrom_cons _ _ _ hzero] at h
        obtain ⟨n, -, hn⟩ := Option.map_eq_some_iff.mp h
        have hsize := Char.utf8Size_pos ')'
        rw [Text.byteLength_nil] at hn
        omega
  | cons c s ih =>
      by_cases hzero : Literal.openedAfter opened c = 0
      · rw [List.cons_append, Literal.closingFrom, hzero] at h
        have hsize := c.utf8Size_pos
        have hlength := Option.some.inj h
        rw [Text.byteLength_cons] at hlength
        omega
      · rw [List.cons_append, Literal.closingFrom_cons _ _ _ hzero] at h
        obtain ⟨n, hn, hlength⟩ := Option.map_eq_some_iff.mp h
        obtain rfl : n = byteLength s := Nat.add_left_cancel hlength
        rw [← hf.openedAfter_map] at hzero hn
        rw [List.map_cons, List.cons_append, Literal.closingFrom_cons _ _ _ hzero, ih hn]
        rfl

end KeepsSets

/-- The second view begins where the first one does and has the image of its text. -/
def View.Image (f : Char → Char) (v w : View) : Prop :=
  ∃ s, v.text = .ok s ∧ w.text = .ok (s.map f) ∧ w.start = v.start

namespace View.Image
variable {f : Char → Char} {v w : View} {s t r : Text}

theorem whole (f : Char → Char) (s : Text) : (View.whole s).Image f (View.whole (s.map f)) :=
  ⟨s, text_whole s, text_whole (s.map f), rfl⟩

theorem start_eq (h : v.Image f w) : w.start = v.start := by
  obtain ⟨-, -, -, hstart⟩ := h
  exact hstart

theorem text_eq (h : v.Image f w) (hv : v.text = .ok s) : w.text = .ok (s.map f) := by
  obtain ⟨s', hv', hw, -⟩ := h
  obtain rfl : s = s' := Except.ok.inj (hv.symm.trans hv')
  exact hw

theorem text_append (h : v.Image f w) (hv : v.text = .ok (t ++ r)) :
    w.text = .ok (t.map f ++ r.map f) := by
  rw [h.text_eq hv, List.map_append]

theorem back (hf : KeepsSets f) (h : v.Image f w) (hv : v.text = .ok (t ++ r)) (ht : t.InSets) :
    (v.back r).Image f (w.back (r.map f)) := by
  have hw := h.text_append hv
  refine ⟨r, View.text_back hv, View.text_back hw, ?_⟩
  rw [View.start_back hv, View.start_back hw, h.start_eq, hf.byteLength_map ht]

theorem back_cons {set : CharSet} {c : Char} (hf : KeepsSets f) (h : v.Image f w)
    (hv : v.text = .ok (c :: s)) (hc : set.contains c = true) :
    (v.back s).Image f (w.back (s.map f)) :=
  h.back (t := [c]) hf hv (.char hc)

theorem splitAt_fst (h : v.Image f w) (hv : v.text = .ok (t ++ r)) :
    (v.splitAt (byteLength t)).1.Image f (w.splitAt (byteLength (t.map f))).1 :=
  ⟨t, View.text_splitAt_fst hv, View.text_splitAt_fst (h.text_append hv), h.start_eq⟩

theorem trimmed (hf : KeepsSets f) (h : v.Image f w) : v.trimmed.Image f w.trimmed := by
  obtain ⟨s, hv, hw, hstart⟩ := h
  refine ⟨s.trimmed, View.text_trimmed hv, ?_, ?_⟩
  · rw [View.text_trimmed hw, hf.trimmed_map]
  · rw [View.start_trimmed hv, View.start_trimmed hw, hstart, hf.run_map,
      hf.byteLength_map (CharSet.all_run .blank s).inSets]

end View.Image

/-- The token with the image of its text, of the same kind and at the same place. -/
def Token.image (f : Char → Char) (t : Token) : Token := { t with text := t.text.map f }

theorem KeepsSets.image_placed {f : Char → Char} {s : Text} (hf : KeepsSets f) (hs : s.InSets)
    (start : Nat) (kind : TokenKind) :
    (Token.placed start kind s).image f = Token.placed start kind (s.map f) := by
  simp only [Token.placed, Token.image, hf.byteLength_map hs]

namespace Attempt
variable {α β γ δ : Type}

/-- The second attempt reads the images of the tokens of the first and ends like it, with values
that are related if they succeed. -/
structure Image (f : Char → Char) (V : α → β → Prop) (x : Attempt α) (y : Attempt β) : Prop where
  tokens : y.tokens = x.tokens.map (Token.image f)
  outcome : match x.outcome, y.outcome with
    | .ok a, .ok b => V a b
    | .error failure, .error failure' => failure' = failure
    | _, _ => False

namespace Image
variable {f : Char → Char} {V : α → β → Prop} {W : γ → δ → Prop} {x x' : Attempt α}
  {y y' : Attempt β} {g : α → Attempt γ} {g' : β → Attempt δ} {ts us : List Token} {a : α} {b : β}

theorem pure (h : V a b) : (pure a : Attempt α).Image f V (pure b : Attempt β) := ⟨rfl, h⟩

theorem fail (failure : Failure) :
    (fail failure : Attempt α).Image f V (fail failure : Attempt β) := ⟨rfl, rfl⟩

theorem of_reads (hx : x.Reads ts x') (hy : y.Reads us y') (hts : us = ts.map (Token.image f))
    (h : x'.Image f V y') : x.Image f V y := by
  constructor
  · rw [hx.tokens, hy.tokens, h.tokens, hts, List.map_append]
  · rw [hx.outcome, hy.outcome]
    exact h.outcome

theorem bind (h : x.Image f V y)
    (hg : ∀ a b, x.outcome = .ok a → V a b → (g a).Image f W (g' b)) :
    (x >>= g).Image f W (y >>= g') := by
  obtain ⟨xs, trace, failure | a⟩ := x <;> obtain ⟨ys, trace', failure' | b⟩ := y <;>
    obtain ⟨htokens, houtcome⟩ := h
  · exact ⟨htokens, houtcome⟩
  · exact houtcome.elim
  · exact houtcome.elim
  · obtain ⟨htokens', houtcome'⟩ := hg a b rfl houtcome
    refine ⟨?_, houtcome'⟩
    rw [ok_bind, ok_bind, List.map_append, ← htokens, ← htokens']

theorem outcome_eq {x y : Attempt Unit} (h : x.Image f (fun _ _ => True) y) :
    y.outcome = x.outcome := by
  obtain ⟨xs, trace, failure | a⟩ := x <;> obtain ⟨ys, trace', failure' | b⟩ := y <;>
    obtain ⟨-, houtcome⟩ := h
  · exact congrArg Except.error houtcome
  · exact houtcome.elim
  · exact houtcome.elim
  · rfl

end Image

end Attempt

namespace Reading
open Attempt
variable {f : Char → Char} {v w : View} {s t r : Text} {c : Char} {n room : Nat}
  {g h : View → Attempt View} {x x' y y' : Attempt View}

/-- The reader reads from the image of a view the images of what it reads from the view. -/
def Respects (f : Char → Char) (g : View → Attempt View) : Prop :=
  ∀ ⦃v w⦄, View.Image f v w → (g v).Image f (View.Image f) (g w)

theorem image_trim {α β : Type} {V : α → β → Prop} {g : View → Attempt α} {g' : View → Attempt β}
    (hf : KeepsSets f) (hg : ∀ v w, View.Image f v w → (g v).Image f V (g' w))
    (hvw : View.Image f v w) : (trim v >>= g).Image f V (trim w >>= g') := by
  obtain ⟨s, hv, hw, -⟩ := id hvw
  rw [trim_eq_pure hv, trim_eq_pure hw, pure_bind, pure_bind]
  exact hg _ _ (hvw.trimmed hf)

/-- A token is read first on both views, and its characters are in some set. -/
theorem image_of_token {α β : Type} {V : α → β → Prop} {x x' : Attempt α} {y y' : Attempt β}
    {kind : TokenKind} (hf : KeepsSets f) (hvw : View.Image f v w) (ht : t.InSets)
    (hx : x.Reads [Token.placed v.start kind t] x')
    (hy : y.Reads [Token.placed w.start kind (t.map f)] y') (hxy : x'.Image f V y') :
    x.Image f V y := by
  refine .of_reads hx hy ?_ hxy
  rw [hvw.start_eq, List.map_singleton, hf.image_placed ht]

theorem image_of_char {α β : Type} {V : α → β → Prop} {x x' : Attempt α} {y y' : Attempt β}
    {kind : TokenKind} {set : CharSet} {d : Char} (hf : KeepsSets f) (hvw : View.Image f v w)
    (hc : set.contains c = true) (hd : f c = d) (hx : x.Reads [Token.placed v.start kind [c]] x')
    (hy : y.Reads [Token.placed w.start kind [d]] y') (hxy : x'.Image f V y') :
    x.Image f V y := by
  subst hd
  exact image_of_token hf hvw (.char hc) hx hy hxy

theorem image_number (hf : KeepsSets f) (hvw : View.Image f v w) (hv : v.text = .ok (c :: s))
    (hc : CharSet.digit.contains c = true) :
    (number v).Image f (View.Image f) (number w) := by
  obtain ⟨t, r, hs, hne, ht, hr, hnone⟩ | ⟨whole, fraction, r, hs, -, hwhole, hne, hf', hr⟩ :=
    Literal.number_cases hc s
  · rw [hs] at hv
    have hnone' := hf.decimal?_map hnone
    rw [List.map_append] at hnone'
    have hreads := reads_integer (hvw.text_append hv) (by simpa using hne) (hf.all_map ht)
      (hf.notAhead_map hr) hnone'
    exact image_of_token hf hvw ht.inSets (reads_integer hv hne ht hr hnone) hreads
      (.pure (hvw.back hf hv ht.inSets))
  · rw [hs] at hv
    have hwhole' := hf.byteLength_map hwhole.inSets
    have hdot : CharSet.dot.contains '.' = true := rfl
    have htext : Text.InSets (whole ++ '.' :: fraction) :=
      hwhole.inSets.append (.cons hdot hf'.inSets)
    have hw := hvw.text_append hv
    rw [List.map_append, List.map_cons, hf.dot] at hw
    have hreads := reads_decimal hw (hf.all_map hwhole) (by simpa using hne) (hf.all_map hf')
      (hf.notAhead_map hr)
    refine .of_reads (reads_decimal hv hwhole hne hf' hr) hreads ?_ (.pure (hvw.back hf hv htext))
    simp only [List.map_cons, List.map_nil, hf.image_placed hwhole.inSets,
      hf.image_placed (.char hdot), hf.image_placed hf'.inSets, hf.dot, hvw.start_eq, hwhole']

theorem image_name (hf : KeepsSets f) (hvw : View.Image f v w) (hv : v.text = .ok (c :: s))
    (hc : CharSet.nameStart.contains c = true) : (name v).Image f (View.Image f) (name w) := by
  obtain ⟨t, r, hs, ht, hr⟩ := Literal.name_cases c s
  rw [hs] at hv
  have hset : Text.InSets (c :: t) := .cons hc ht.inSets
  have hreads := reads_name (hvw.text_append hv) ((hf .nameStart c).trans hc) (hf.all_map ht)
    (hf.notAhead_map hr)
  exact image_of_token hf hvw hset (reads_name hv hc ht hr) hreads (.pure (hvw.back hf hv hset))

/-- What an expression is read from has no character without a set. -/
theorem inSets_of_expression (hg : Finds View.Stands .factor room g) (hv : v.text = .ok s)
    (hout : (expression g v).outcome = .ok ()) : s.InSets := by
  have hfound := finds_expression hg ⟨rfl, hv⟩
  have hformed := hfound.formed
  obtain ⟨read, rest, rfl, hlaid, -, hends⟩ := hfound
  rw [hout] at hends
  obtain ⟨-, gap, left, behind, rfl, hgap, hbehind, hleft⟩ := hends
  obtain rfl : left = [] := hleft
  exact (Text.InSets.of_laid hlaid hformed).append
    ((CharSet.All.inSets hgap).append (CharSet.All.inSets hbehind))

theorem image_group (hf : KeepsSets f) (hfound : Finds View.Stands .factor room g)
    (hg : ∀ ⦃v w⦄, View.Image f v w →
      (expression g v).Image f (fun _ _ => True) (expression g w))
    (hvw : View.Image f v w) (hv : v.text = .ok ('(' :: s)) :
    (group g v).Image f (View.Image f) (group g w) := by
  have hopen : CharSet.openParen.contains '(' = true := rfl
  have hclosing : CharSet.closeParen.contains ')' = true := rfl
  have hw := hvw.text_eq hv
  rw [List.map_cons, hf.openParen] at hw
  cases hclose : Literal.closing? s with
  | none =>
      exact image_of_char hf hvw hopen hf.openParen (reads_group_unmatched hv hclose)
        (reads_group_unmatched hw (hf.closingFrom_map_eq_none hclose)) (.fail .mismatch)
  | some n =>
      obtain ⟨inner, after, rfl, rfl⟩ := Literal.exists_of_closing? hclose
      have hmap : (inner ++ ')' :: after).map f = inner.map f ++ ')' :: after.map f := by
        rw [List.map_append, List.map_cons, hf.closeParen]
      have hrest := hvw.back_cons hf hv hopen
      have hvrest := View.text_back_cons hv
      rw [hmap] at hw hrest
      refine image_of_char hf hvw hopen hf.openParen (reads_group hv hclose)
        (reads_group hw (hf.closingFrom_map hclose))
        (.bind (hg (hrest.splitAt_fst hvrest)) fun u _ hout _ => ?_)
      have hinner := inSets_of_expression hfound (View.text_splitAt_fst hvrest) hout
      have hlast := hrest.back hf hvrest hinner
      have hvlast := View.text_back hvrest
      rw [List.map_cons, hf.closeParen] at hlast
      have hwlast := hlast.text_eq hvlast
      rw [List.map_cons, hf.closeParen] at hwlast
      exact image_of_char hf hlast hclosing hf.closeParen (reads_char hvlast rfl .closeParen)
        (reads_char hwlast rfl .closeParen) (.pure (hlast.back_cons hf hvlast hclosing))

theorem image_sign (hf : KeepsSets f) (hg : Respects f g) (hvw : View.Image f v w)
    (hv : v.text = .ok ('-' :: s)) : (sign g v).Image f (View.Image f) (sign g w) := by
  have hminus : CharSet.minus.contains '-' = true := rfl
  have hw := hvw.text_eq hv
  rw [List.map_cons, hf.minus] at hw
  exact image_of_char hf hvw hminus hf.minus (reads_sign hv) (reads_sign hw)
    (hg ((hvw.back_cons hf hv hminus).trimmed hf))

theorem respects_operand (hf : KeepsSets f)
    (hg : ∀ ⦃v w s⦄, View.Image f v w → v.text = .ok ('(' :: s) →
      (g v).Image f (View.Image f) (g w))
    (hh : ∀ ⦃v w s⦄, View.Image f v w → v.text = .ok ('-' :: s) →
      (h v).Image f (View.Image f) (h w)) :
    Respects f (operand g h) := by
  intro v w hvw
  obtain ⟨s, hv, hw, -⟩ := id hvw
  cases s with
  | nil => exact .of_reads (reads_operand_nil hv) (reads_operand_nil hw) rfl (.fail .mismatch)
  | cons c s =>
      refine .of_reads (reads_operand hv) (reads_operand hw) rfl ?_
      rw [hf, hf, hf, hf]
      split_ifs with hdigit hname hopen hminus
      · exact image_number hf hvw hv hdigit
      · exact image_name hf hvw hv hname
      · obtain rfl : c = '(' := of_decide_eq_true hopen
        exact hg hvw hv
      · obtain rfl : c = '-' := of_decide_eq_true hminus
        exact hh hvw hv
      · exact .fail .mismatch

theorem respects_products (hf : KeepsSets f) (hg : Respects f g) (n : Nat) :
    Respects f (products g n) := by
  induction n with
  | zero => exact fun v w hvw => .pure hvw
  | succ n ih =>
      intro v w hvw
      obtain ⟨s, hv, hw, -⟩ := id hvw
      by_cases hs : CharSet.mulOp.NotAhead s
      · rw [products_of_notAhead hv hs, products_of_notAhead hw (hf.notAhead_map hs)]
        exact .pure hvw
      · obtain ⟨c, s, rfl, hc⟩ := CharSet.exists_of_not_notAhead hs
        refine image_of_char hf hvw hc rfl (reads_products hv hc)
          (reads_products hw ((hf .mulOp c).trans hc)) ?_
        exact .bind (hg ((hvw.back_cons hf hv hc).trimmed hf)) fun a b _ hab =>
          image_trim hf (fun v w hvw => ih hvw) hab

/-- The image may have more bytes or fewer, but the rounds of a loop make no difference. -/
theorem image_loop {loop : Nat → View → Attempt View} (hloop : ∀ n, Respects f (loop n))
    (hrounds : ∀ ⦃v s n m⦄, View.text v = .ok s → byteLength s ≤ n → byteLength s ≤ m →
      (loop n v).Reads [] (loop m v))
    (hvw : View.Image f v w) :
    (loop v.length v).Image f (View.Image f) (loop w.length w) := by
  obtain ⟨s, hv, hw, -⟩ := id hvw
  rw [View.length_eq hv, View.length_eq hw]
  exact .of_reads (hrounds hv le_rfl (le_max_left _ _)) (hrounds hw le_rfl (le_max_right _ _)) rfl
    (hloop (max (byteLength s) (byteLength (s.map f))) hvw)

theorem respects_term (hf : KeepsSets f) (hfound : Finds View.Stands .factor room g)
    (hg : Respects f g) : Respects f (term g) := by
  intro v w hvw
  refine .of_reads (reads_term g v) (reads_term g w) rfl (.bind (hg hvw) fun a b _ hab => ?_)
  exact image_trim hf (fun v w hvw => image_loop (respects_products hf hg)
    (fun _ _ _ _ => reads_products_rounds hfound) hvw) hab

theorem respects_sums (hf : KeepsSets f) (hfound : Finds View.Stands .factor room g)
    (hg : Respects f g) (n : Nat) : Respects f (sums g n) := by
  induction n with
  | zero => exact fun v w hvw => .pure hvw
  | succ n ih =>
      intro v w hvw
      obtain ⟨s, hv, hw, -⟩ := id hvw
      by_cases hs : CharSet.addOp.NotAhead s
      · rw [sums_of_notAhead hv hs, sums_of_notAhead hw (hf.notAhead_map hs)]
        exact .pure hvw
      · obtain ⟨c, s, rfl, hc⟩ := CharSet.exists_of_not_notAhead hs
        have hc' := (hf .addOp c).trans hc
        have hrest := (hvw.back_cons hf hv hc).trimmed hf
        by_cases hguard : ['(', ')'] <+: Text.trimmed s
        · obtain ⟨r, hr⟩ := hguard
          have hguard' : Text.trimmed (s.map f) = '(' :: ')' :: r.map f := by
            rw [hf.trimmed_map, ← hr, List.map_append, List.map_cons, List.map_singleton,
              hf.openParen, hf.closeParen]
            rfl
          have hopen : CharSet.openParen.contains '(' = true := rfl
          have hclose : CharSet.closeParen.contains ')' = true := rfl
          refine .of_reads (reads_sums_empty hv hc hr.symm) (reads_sums_empty hw hc' hguard') ?_
            (.fail .mismatch)
          simp only [List.map_cons, List.map_nil, hf.image_placed (.char hc),
            hf.image_placed (.char hopen), hf.image_placed (.char hclose), hf.openParen,
            hf.closeParen, hvw.start_eq, hrest.start_eq]
        · have hguard' : ¬ ['(', ')'] <+: Text.trimmed (s.map f) := by
            rwa [hf.trimmed_map, hf.emptyGroup_map_iff]
          refine image_of_char hf hvw hc rfl (reads_sums hv hc hguard)
            (reads_sums hw hc' hguard') ?_
          exact .bind (respects_term hf hfound hg hrest) fun a b _ hab => ih hab

theorem image_expression (hf : KeepsSets f) (hfound : Finds View.Stands .factor room g)
    (hg : Respects f g) (hvw : View.Image f v w) :
    (expression g v).Image f (fun _ _ => True) (expression g w) := by
  obtain ⟨s, hv, hw, -⟩ := id hvw
  apply Image.of_reads (reads_expression hv) (reads_expression hw) rfl
  refine .bind (respects_term hf hfound hg (hvw.trimmed hf)) fun a b _ hab => ?_
  have hsums := image_loop (respects_sums hf hfound hg)
    (fun _ _ _ _ => reads_sums_rounds hfound) hab
  refine .bind hsums fun a b _ hab => ?_
  obtain ⟨t, ha, hb, -⟩ := id hab
  by_cases ht : t = []
  · have hmap : t.map f = [] := List.map_eq_nil_iff.mpr ht
    rw [if_pos ((View.isEmpty_iff ha).mpr ht), if_pos ((View.isEmpty_iff hb).mpr hmap)]
    exact .pure trivial
  · have hmap : t.map f ≠ [] := ht ∘ List.map_eq_nil_iff.mp
    rw [if_neg (ht ∘ (View.isEmpty_iff ha).mp), if_neg (hmap ∘ (View.isEmpty_iff hb).mp)]
    exact .fail .mismatch

theorem respects_factor (hf : KeepsSets f) (limit room : Nat) :
    Respects f (factor limit room) := by
  induction room with
  | zero =>
      exact respects_operand hf (fun _ _ _ _ _ => .fail (.tooDeep limit))
        (fun _ _ _ _ _ => .fail (.tooDeep limit))
  | succ room ih =>
      have hfound := finds_factor limit room
      exact respects_operand hf
        (fun _ _ _ hvw hv => image_group hf hfound
          (fun _ _ hvw => image_expression hf hfound ih hvw) hvw hv)
        (fun _ _ _ hvw hv => image_sign hf ih hvw hv)

end Reading

theorem image_recognize {f : Char → Char} (hf : KeepsSets f) (limit : NestingLimit)
    (input : Text) :
    (recognize limit input).Image f (fun _ _ => True) (recognize limit (input.map f)) := by
  have hfound := Reading.finds_factor limit.levels limit.levels
  have hfactor := Reading.respects_factor hf limit.levels limit.levels
  exact Reading.image_trim hf (fun v w hvw => Reading.image_expression hf hfound hfactor hvw)
    (.whole f input)

/-- A text and its image have the same verdict for the same reason, with the same kinds of tokens at
the same places, whose texts are the images of each other. -/
theorem evaluate_image (f : Char → Char) (hf : KeepsSets f) (n : Nat) (input : Text) :
    (recognize (.ofNat n) (input.map f)).outcome = (recognize (.ofNat n) input).outcome ∧
      Verdict.evaluate (.ofNat n) (input.map f) =
        ⟨(Verdict.evaluate (.ofNat n) input).valid,
          (Verdict.evaluate (.ofNat n) input).tokens.map fun t =>
            ⟨t.kind, t.text.map f, t.span⟩⟩ := by
  have himage := image_recognize hf (.ofNat n) input
  refine ⟨himage.outcome_eq, ?_⟩
  rw [Verdict.evaluate, Verdict.ofAttempt, himage.outcome_eq, himage.tokens]
  rfl

/-- One digit for another, and a character without a set for one of more bytes. -/
theorem evaluate_image_of_wider :
    let f : Char → Char := fun c => if c = '7' then '0' else if c = 'é' then '世' else c
    KeepsSets f ∧
      (recognize (.ofNat 2) ("(x7 + 7) * é(7)".toList.map f)).outcome =
          (recognize (.ofNat 2) "(x7 + 7) * é(7)".toList).outcome ∧
        Verdict.evaluate (.ofNat 2) ("(x7 + 7) * é(7)".toList.map f) =
          ⟨(Verdict.evaluate (.ofNat 2) "(x7 + 7) * é(7)".toList).valid,
            (Verdict.evaluate (.ofNat 2) "(x7 + 7) * é(7)".toList).tokens.map fun t =>
              ⟨t.kind, t.text.map f, t.span⟩⟩ := by
  intro f
  have hf : KeepsSets f := by
    intro set c
    dsimp only [f]
    split_ifs with hseven haccent
    · subst hseven
      cases set <;> rfl
    · subst haccent
      cases set <;> rfl
    · rfl
  exact ⟨hf, evaluate_image f hf 2 _⟩

end ArithGrammar
