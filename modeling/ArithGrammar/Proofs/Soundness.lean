import ArithGrammar.Proofs.Covering
import ArithGrammar.Proofs.Parentheses
import ArithGrammar.Proofs.ReadingSteps
import ArithGrammar.Proofs.Viable
import ArithGrammar.Verdict
import Mathlib.Tactic.SplitIfs

/-!
# What is read is derived

What a rule reads is derived from the grammar when the rule succeeds, and cut when it fails, with
as much room for groups and signs as the rule has. `Finds leaves p room f` says so of a reader `f`
for the part `p`, and there is one lemma for each rule. They take the statement on factors as a
hypothesis, which only the induction on the room supplies (`finds_factor`).
-/
namespace ArithGrammar

namespace Reading
open Attempt
open Text (byteLength)
variable {α : Type} {leaves : α → Nat → Text → Prop} {f g : View → Attempt View} {v : View}
  {s t r : Text} {c : Char} {room n start : Nat} {p q o : Part}

/-- The attempt covers a tree of the part, or fails where its terminals are cut. -/
abbrev Found (leaves : α → Nat → Text → Prop) (p : Part) (room start : Nat) (s : Text)
    (x : Attempt α) : Prop :=
  x.Covers leaves (p.Derives room) (p.Cut room) start s

/-- The reader finds the part on every view. -/
def Finds (leaves : α → Nat → Text → Prop) (p : Part) (room : Nat) (f : View → Attempt α) : Prop :=
  ∀ ⦃v : View⦄ ⦃start : Nat⦄ ⦃s : Text⦄, v.Stands start s → Found leaves p room start s (f v)

theorem Finds.trimmed {f : View → Attempt α} (h : Finds leaves p room f) (hv : v.Stands start s) :
    Found leaves p room start s (f v.trimmed) := by
  obtain ⟨front, behind, hs, hfront, hbehind, hstands⟩ := hv.trimmed
  rw [hs]
  exact .widen hfront hbehind (h hstands)

theorem Finds.trim {f : View → Attempt α} (h : Finds leaves p room f) :
    Finds leaves p room (fun v => trim v >>= f) := by
  intro v start s hv
  dsimp only
  rw [trim_eq_pure hv.text_eq, pure_bind]
  exact h.trimmed hv

/-- Two parts are found behind one another, where the terminals in front of them and theirs are
those of a third. -/
theorem Found.bind {x : Attempt View} {f : View → Attempt α} (front : List Terminal)
    (h : Found View.Stands p room start s x) (hf : Finds leaves q room f)
    (hviable : ∀ xs, p.Viable room xs → o.Viable room (front ++ xs))
    (hderives : ∀ xs ys, p.Derives room xs → q.Derives room ys →
      o.Derives room (front ++ xs ++ ys)) :
    (x >>= f).Covers leaves (fun xs => o.Derives room (front ++ xs))
      (fun xs => o.Cut room (front ++ xs)) start s := by
  refine Covers.bind h (fun w start left hw => hf hw) ?_ ?_ ?_
  · intro xs ys hxs hys
    rw [← List.append_assoc]
    exact hderives xs ys hxs hys
  · exact fun xs hxs => hxs.map front hviable
  · intro xs ys hxs hys
    rw [← List.append_assoc]
    exact hys.map (front ++ xs) fun _ hzs =>
      hzs.map (front ++ xs) fun zs hzs => hderives xs zs hxs hzs

theorem found_number (h : v.Stands start (c :: s)) (hc : CharSet.digit.contains c = true) :
    Found View.Stands .factor room start (c :: s) (number v) := by
  obtain ⟨t, r, hs, hne, ht, hr, hnone⟩ | ⟨whole, fraction, r, hs, hwhole, hw, hne, hf, hr⟩ :=
    Literal.number_cases hc s
  · rw [hs] at h ⊢
    have hreads := reads_integer h.text_eq hne ht hr hnone
    rw [h.start_eq] at hreads
    exact .of_reads_pure hreads (.placed (.of_all (by decide) hne ht))
      (by simp [TokenKind.joined]) h.back (.integer ⟨t, hne, ht⟩)
  · rw [hs] at h ⊢
    have hreads := reads_decimal h.text_eq hw hne hf hr
    rw [h.start_eq] at hreads
    have hinteger : Laid start [Token.placed start .integer whole] whole :=
      .placed (.of_all (by decide) hwhole hw)
    have hdot : Laid (start + byteLength whole)
        [Token.placed (start + byteLength whole) .dot ['.']] ['.'] :=
      .placed (.char .dot (by decide) rfl)
    have hfraction : Laid (start + byteLength whole + 1)
        [Token.placed (start + byteLength whole + 1) .fraction fraction] fraction :=
      .placed (.of_all (by decide) hne hf)
    exact .of_reads_pure hreads (hinteger.append (hdot.append hfraction))
      (by simp [TokenKind.joined]) h.back (.decimal ⟨whole, hwhole, hw⟩ ⟨fraction, hne, hf⟩)

theorem found_name (h : v.Stands start (c :: s)) (hc : CharSet.nameStart.contains c = true) :
    Found View.Stands .factor room start (c :: s) (name v) := by
  have hs := CharSet.run_append_afterRun .namePart s
  have hall := CharSet.all_run .namePart s
  rw [← hs] at h ⊢
  have hreads := reads_name h.text_eq hc hall (CharSet.notAhead_afterRun _ _)
  rw [h.start_eq] at hreads
  have hsolid : Text.Solid (c :: CharSet.namePart.run s) :=
    .of_all (by decide) (by simp) (Name.all ⟨c, _, hc, hall⟩)
  have hname : Part.factor.Derives room [⟨.identifier, c :: CharSet.namePart.run s⟩] :=
    .name ⟨c, _, hc, hall⟩
  exact .of_reads_pure hreads (.placed hsolid) (by simp [TokenKind.joined])
    (View.Stands.back (t := c :: CharSet.namePart.run s) h) hname

/-- The expression in a group takes all that stands between the parentheses. -/
theorem found_group (hf : Finds Ends .expression room (expression f))
    (h : v.Stands start ('(' :: s)) :
    Found View.Stands .factor (room + 1) start ('(' :: s) (group f v) := by
  have hrest := h.back_cons
  cases hclose : Literal.closing? s with
  | none =>
      have hreads := reads_group_unmatched (f := f) h.text_eq hclose
      rw [h.start_eq] at hreads
      have hfail : (fail .mismatch : Attempt View).Covers View.Stands (fun _ => False) (· = [])
          (start + byteLength ['(']) s := .fail rfl (by simp)
      refine .of_char hreads (.char .openParen (by decide) rfl) rfl hfail
        (fun ys hys => hys.elim) ?_
      rintro ys rfl
      exact .inl Part.Viable.factor_nil.term.expression.group
  | some n =>
      obtain ⟨inner, after, rfl, rfl⟩ := Literal.exists_of_closing? hclose
      have hreads := reads_group (f := f) h.text_eq hclose
      rw [h.start_eq] at hreads
      have hbehind := hrest.back
      have hlast := reads_char hbehind.text_eq rfl .closeParen
      rw [hbehind.start_eq] at hlast
      have hclosing : ∀ (u : Unit) (start' : Nat) (left : Text),
          start' = start + byteLength ['('] + byteLength inner ∧ left = ')' :: after →
          (read .closeParen 1 (v.back (')' :: after))).Covers View.Stands (· = [.closing])
            (fun _ => False) start' left := by
        rintro - - - ⟨rfl, rfl⟩
        exact .of_reads_pure (t := [')']) hlast (.placed (.char .closeParen (by decide) rfl))
          (by simp [TokenKind.joined]) hbehind.back_cons rfl
      have hinner := (hf hrest.splitAt_fst).within (')' :: after)
      have hbody : (do
          expression f ((v.back (inner ++ ')' :: after)).splitAt (byteLength inner)).1
          read .closeParen 1 (v.back (')' :: after))).Covers View.Stands
          (fun xs => Part.factor.Derives (room + 1) (.opening :: xs)) (Part.expression.Cut room)
          (start + byteLength ['(']) (inner ++ ')' :: after) := by
        refine hinner.bind hclosing ?_ (fun _ hxs => hxs) (fun _ _ _ hys => hys.elim)
        rintro xs ys hxs rfl
        exact hxs.group
      exact .of_char hreads (.char .openParen (by decide) rfl) rfl hbody
        (fun ys hys => hys) (fun ys hys => hys.map [.opening] fun _ => Part.Viable.group)

theorem found_sign (hf : Finds View.Stands .factor room f) (h : v.Stands start ('-' :: s)) :
    Found View.Stands .factor (room + 1) start ('-' :: s) (sign f v) := by
  have hreads := reads_sign (f := f) h.text_eq
  rw [h.start_eq] at hreads
  exact .of_char hreads (.char .minus (by decide) rfl) rfl
    (hf.trimmed h.back_cons) (fun ys hys => hys.sign)
    (fun ys hys => hys.map [.minus] fun _ => Part.Viable.sign)

/-- A factor is a number, a name, or what a group or a sign is read as. -/
theorem finds_operand
    (hf : ∀ ⦃v start s⦄, View.Stands v start ('(' :: s) →
      Found View.Stands .factor room start ('(' :: s) (f v))
    (hg : ∀ ⦃v start s⦄, View.Stands v start ('-' :: s) →
      Found View.Stands .factor room start ('-' :: s) (g v)) :
    Finds View.Stands .factor room (operand f g) := by
  intro v start s h
  cases s with
  | nil =>
      exact .of_reads_nil (reads_operand_nil h.text_eq)
        (.fail (.inl Part.Viable.factor_nil) (by simp))
  | cons c s =>
      refine .of_reads_nil (reads_operand h.text_eq) ?_
      split_ifs with hdigit hname hopen hminus
      · exact found_number h hdigit
      · exact found_name h hname
      · obtain rfl : c = '(' := of_decide_eq_true hopen
        exact hf h
      · obtain rfl : c = '-' := of_decide_eq_true hminus
        exact hg h
      · exact .fail (.inl Part.Viable.factor_nil) (by simp)

/-- A loop that goes on at the characters of a set, each of them the beginning of a part. -/
theorem finds_loop {set : CharSet} (loop : Nat → View → Attempt View) (hnil : p.Derives room [])
    (hzero : ∀ v, loop 0 v = pure v)
    (hstop : ∀ n ⦃v s⦄, View.text v = .ok s → set.NotAhead s → loop n v = pure v)
    (hstep : ∀ n, Finds View.Stands p room (loop n) → ∀ ⦃v start c s⦄,
      View.Stands v start (c :: s) → set.contains c = true →
      Found View.Stands p room start (c :: s) (loop (n + 1) v)) (n : Nat) :
    Finds View.Stands p room (loop n) := by
  induction n with
  | zero =>
      intro v start s h
      rw [hzero]
      exact .pure h hnil
  | succ n ih =>
      intro v start s h
      cases s with
      | nil =>
          rw [hstop (n + 1) h.text_eq CharSet.notAhead_nil]
          exact .pure h hnil
      | cons c s =>
          by_cases hc : set.contains c = true
          · exact hstep n ih h hc
          · have hahead : set.NotAhead (c :: s) :=
              CharSet.notAhead_cons.mpr (Bool.eq_false_iff.mpr hc)
            rw [hstop (n + 1) h.text_eq hahead]
            exact .pure h hnil

theorem finds_products (hf : Finds View.Stands .factor room f) (n : Nat) :
    Finds View.Stands .products room (products f n) := by
  refine finds_loop (products f) .noProducts (fun _ => rfl) (fun _ _ _ => products_of_notAhead) ?_ n
  intro n ih v start c s h hc
  have hreads := reads_products (f := f) (n := n) h.text_eq hc
  rw [h.start_eq] at hreads
  have hfactor := hf.trimmed h.back_cons
  have hrest := hfactor.bind (o := .products) [⟨.mulOp, [c]⟩] ih.trim
    (fun _ hxs => hxs.product ⟨c, hc⟩) (fun _ _ hxs hys => hxs.product ⟨c, hc⟩ hys)
  exact .of_char hreads (.char .mulOp (by decide) hc) rfl hrest (fun _ hys => hys)
    (fun _ hys => hys)

theorem finds_term (hf : Finds View.Stands .factor room f) :
    Finds View.Stands .term room (term f) := by
  intro v start s h
  have hproducts : Finds View.Stands .products room (fun w => products f w.length w) :=
    fun w start s hw => finds_products hf w.length hw
  have hterm := (hf h).bind (o := .term) [] hproducts.trim (fun _ hxs => hxs.term)
    (fun _ _ hxs hys => hxs.term hys)
  exact .of_reads_nil (reads_term f v) hterm

/-- An empty pair of parentheses behind an additive operator is read and cut. -/
theorem found_sums_empty (hc : CharSet.addOp.contains c = true) (h : v.Stands start (c :: s))
    (hguard : ['(', ')'] <+: s.trimmed) :
    Found View.Stands .sums room start (c :: s) (sums f (n + 1) v) := by
  obtain ⟨r, hr⟩ := hguard
  obtain ⟨front, behind, hs, hfront, -, hstands⟩ := h.back_cons.trimmed
  have hreads := reads_sums_empty (f := f) (n := n) h.text_eq hc hr.symm
  rw [hstands.start_eq, h.start_eq] at hreads
  have hop : Laid start [Token.placed start .addOp [c]] [c] := .placed (.char .addOp (by decide) hc)
  have hopening : Laid (start + byteLength [c] + byteLength front)
      [Token.placed (start + byteLength [c] + byteLength front) .openParen ['(']] ['('] :=
    .placed (.char .openParen (by decide) rfl)
  have hclosing : Laid (start + byteLength [c] + byteLength front + 1)
      [Token.placed (start + byteLength [c] + byteLength front + 1) .closeParen [')']] [')'] :=
    .placed (.char .closeParen (by decide) rfl)
  have hpair := (hopening.append hclosing).behind hfront (by simp) (by simp [TokenKind.joined])
  have hfail : (fail .mismatch : Attempt View).Covers View.Stands (fun _ => False) (· = [])
      (start + byteLength ([c] ++ (front ++ (['('] ++ [')'])))) (r ++ behind) :=
    .fail rfl (by simp)
  have htext : c :: s = ([c] ++ (front ++ (['('] ++ [')']))) ++ (r ++ behind) := by
    rw [← hr] at hs
    simpa using hs
  rw [htext]
  refine .of_reads hreads (hop.append hpair) (by simp [TokenKind.joined]) hfail
    (fun _ hys => hys.elim) ?_
  rintro ys rfl
  exact .inr ⟨[], ⟨.addOp, [c]⟩, rfl, rfl, Part.Viable.factor_nil.term.sum ⟨c, hc⟩⟩

theorem finds_sums (hf : Finds View.Stands .factor room f) (n : Nat) :
    Finds View.Stands .sums room (sums f n) := by
  refine finds_loop (sums f) .noSums (fun _ => rfl) (fun _ _ _ => sums_of_notAhead) ?_ n
  intro n ih v start c s h hc
  by_cases hguard : ['(', ')'] <+: Text.trimmed s
  · exact found_sums_empty hc h hguard
  · have hreads := reads_sums (f := f) (n := n) h.text_eq hc hguard
    rw [h.start_eq] at hreads
    have hterm := (finds_term hf).trimmed h.back_cons
    have hrest := hterm.bind (o := .sums) [⟨.addOp, [c]⟩] ih (fun _ hxs => hxs.sum ⟨c, hc⟩)
      (fun _ _ hxs hys => hxs.sum ⟨c, hc⟩ hys)
    exact .of_char hreads (.char .addOp (by decide) hc) rfl hrest (fun _ hys => hys)
      (fun _ hys => hys)

/-- What is left behind the sums of an expression is cut off. -/
theorem finds_sums_end (hf : Finds View.Stands .factor room f) :
    Finds Ends .sums room (fun w => do
      let w ← sums f w.length w
      if w.isEmpty then pure () else fail .mismatch) := by
  intro v start s h
  have hend : ∀ w start left, View.Stands w start left →
      (if w.isEmpty then pure () else fail .mismatch : Attempt Unit).Covers Ends (· = []) (· = [])
        start left := by
    intro w start left hw
    split_ifs with hempty
    · exact .pure ((View.isEmpty_iff hw.text_eq).mp hempty) rfl
    · exact .fail rfl (by simp)
  refine Covers.bind (finds_sums hf v.length h) hend ?_ (fun _ hxs => hxs) ?_
  · rintro xs ys hxs rfl
    rwa [List.append_nil]
  · rintro xs ys hxs rfl
    rw [List.append_nil]
    exact .inl (.of_derives hxs)

theorem finds_expression (hf : Finds View.Stands .factor room f) :
    Finds Ends .expression room (expression f) := by
  intro v start s h
  have hexpression := ((finds_term hf).trimmed h).bind (o := .expression) [] (finds_sums_end hf)
    (fun _ hxs => hxs.expression) (fun _ _ hxs hys => hxs.expression hys)
  exact .of_reads_nil (reads_expression h.text_eq) hexpression

/-- A factor is found with as much room as it is read with. -/
theorem finds_factor (limit room : Nat) :
    Finds View.Stands .factor room (factor limit room) := by
  induction room with
  | zero =>
      -- without room groups and signs fail, where an operand would still be viable
      exact finds_operand (fun v start s _ => .fail (.inl Part.Viable.factor_nil) (by simp))
        (fun v start s _ => .fail (.inl Part.Viable.factor_nil) (by simp))
  | succ room ih =>
      exact finds_operand (fun v start s h => found_group (finds_expression ih) h)
        (fun v start s h => found_sign ih h)

end Reading

theorem covers_recognize (limit : NestingLimit) (input : Text) :
    (recognize limit input).Covers Attempt.Ends (Part.expression.Derives limit.levels)
      (Part.expression.Cut limit.levels) 0 input := by
  have hfactor := Reading.finds_factor limit.levels limit.levels
  exact (Reading.finds_expression hfactor).trim (View.Stands.whole input)

/-- The tokens of a verdict are laid out in a beginning of the text. They are derived if the
verdict is valid, and only blanks follow them then, and otherwise they are cut. -/
theorem laid_evaluate (limit : NestingLimit) (input : Text) :
    ∃ read rest, input = read ++ rest ∧ Laid 0 (Verdict.evaluate limit input).tokens read ∧
      ((Verdict.evaluate limit input).valid = true ∧ rest.Blank ∧ Part.expression.Derives
          limit.levels ((Verdict.evaluate limit input).tokens.map Token.terminal) ∨
        (Verdict.evaluate limit input).valid = false ∧ Part.expression.Cut
          limit.levels ((Verdict.evaluate limit input).tokens.map Token.terminal)) := by
  have hcovers := covers_recognize limit input
  unfold Verdict.evaluate Verdict.ofAttempt
  generalize recognize limit input = x at hcovers ⊢
  obtain ⟨tokens, trace, failure | ⟨⟩⟩ := x
  · obtain ⟨read, rest, hs, hlaid, -, hcut, -⟩ := hcovers
    exact ⟨read, rest, hs, hlaid, .inr ⟨rfl, hcut⟩⟩
  · obtain ⟨read, rest, hs, hlaid, -, hderives, gap, left, behind, rfl, hgap, hbehind, hleaves⟩ :=
      hcovers
    obtain rfl : left = [] := hleaves
    exact ⟨read, _, hs, hlaid, .inl ⟨rfl, CharSet.all_append.mpr ⟨hgap, hbehind⟩, hderives⟩⟩

end ArithGrammar
