import ArithGrammar.Proofs.Relocation
import ArithGrammar.Proofs.TokenOrder

/-!
# Blanks between the tokens

Blanks do nothing but keep tokens apart. Around a text they move its tokens and change nothing else,
whatever the verdict. Within a valid text they may be left out altogether, and others may be put in
wherever no token is torn apart, which a decimal number is at its dot (`evaluate_with_blanks`).

The second half is about layouts only: what the tokens of a layout spell does not depend on the
blanks between them, and neither does the tree that is read from them.
-/
namespace ArithGrammar
open Attempt
open Text (byteLength)

namespace Text
variable {s t front behind : Text} {k : Nat}

/-- Blanks around a text go to those that trimming drops. -/
theorem exists_blank_around (hfront : Blank front) (hbehind : Blank behind) (s : Text) :
    ∃ rest, Blank rest ∧ Blank (front ++ CharSet.blank.run s) ∧
      front ++ s ++ behind = front ++ CharSet.blank.run s ++ (trimmed s ++ rest) := by
  obtain ⟨rest, hrest, hafter, -⟩ := eq_run_append_trimmed s
  have hs := CharSet.run_append_afterRun .blank s
  rw [hafter] at hs
  refine ⟨rest ++ behind, CharSet.all_append.mpr ⟨hrest, hbehind⟩,
    CharSet.all_append.mpr ⟨hfront, CharSet.all_run _ _⟩, ?_⟩
  nth_rewrite 1 [← hs]
  simp only [List.append_assoc]

theorem trimmed_of_blank_around (hfront : Blank front) (hbehind : Blank behind) (s : Text) :
    trimmed (front ++ s ++ behind) = trimmed s := by
  obtain ⟨rest, hrest, hrun, hs⟩ := exists_blank_around hfront hbehind s
  rw [hs]
  exact trimmed_append hrun hrest (notAhead_trimmed s) (endsSolid_trimmed s)

theorem run_of_blank_around (hfront : Blank front) (hbehind : Blank behind) (hne : trimmed s ≠ []) :
    CharSet.blank.run (front ++ s ++ behind) = front ++ CharSet.blank.run s := by
  obtain ⟨rest, -, hrun, hs⟩ := exists_blank_around hfront hbehind s
  have hahead := notAhead_trimmed s
  obtain ⟨c, cs, hcs⟩ := List.exists_cons_of_ne_nil hne
  rw [hcs] at hahead hs
  rw [hs]
  exact CharSet.run_append hrun (CharSet.notAhead_cons.mpr (CharSet.notAhead_cons.mp hahead))

theorem exists_split_of_blank (hs : Blank s) (hk : k ≤ byteLength s) :
    ∃ a b, s = a ++ b ∧ byteLength a = k := by
  induction s generalizing k with
  | nil => exact ⟨[], [], rfl, (Nat.le_zero.mp hk).symm⟩
  | cons c cs ih =>
      obtain ⟨hc, hcs⟩ := CharSet.all_cons.mp hs
      have hone := CharSet.utf8Size_eq_one hc
      rw [byteLength_cons, hone] at hk
      cases k with
      | zero => exact ⟨[], c :: cs, rfl, rfl⟩
      | succ k =>
          have hle : k ≤ byteLength cs := by omega
          obtain ⟨a, b, rfl, hlen⟩ := ih hcs hle
          refine ⟨c :: a, b, rfl, ?_⟩
          rw [byteLength_cons, hone, hlen]
          omega

end Text

section
variable {s front behind : Text}

theorem relocated_whole (hfront : front.Blank) (hbehind : behind.Blank) (s : Text) :
    (View.whole s).trimmed.Relocated (byteLength front)
      (View.whole (front ++ s ++ behind)).trimmed := by
  have hs := View.text_whole s
  have hwhole := View.text_whole (front ++ s ++ behind)
  have htext := View.text_trimmed hwhole
  rw [Text.trimmed_of_blank_around hfront hbehind] at htext
  refine ⟨s.trimmed, View.text_trimmed hs, htext, ?_⟩
  intro hne
  rw [View.start_trimmed hs, View.start_trimmed hwhole, Text.run_of_blank_around hfront hbehind hne,
    Text.byteLength_append, View.start_whole, View.start_whole]
  omega

theorem relocated_recognize (limit : NestingLimit) (hfront : front.Blank) (hbehind : behind.Blank)
    (s : Text) : (recognize limit s).Relocated (byteLength front) (fun _ _ => True)
      (recognize limit (front ++ s ++ behind)) := by
  have hs := View.text_whole s
  have hwhole := View.text_whole (front ++ s ++ behind)
  rw [recognize, recognize, trim_eq_pure hs, trim_eq_pure hwhole, pure_bind, pure_bind]
  exact Reading.relocated_expression (Reading.local_factor _ _)
    (relocated_whole hfront hbehind s)

end

theorem Token.map_terminal_shift (k : Nat) (ts : List Token) :
    (ts.map (shift k)).map terminal = ts.map terminal := by
  rw [List.map_map]
  rfl

namespace Laid
variable {start p : Nat} {ts : List Token} {s gap : Text}

theorem shift (h : Laid start ts s) (k : Nat) : Laid (start + k) (ts.map (Token.shift k)) s := by
  induction ts generalizing start s with
  | nil => exact h
  | cons t ts ih =>
      obtain ⟨front, rest, hs, hfront, hjoined, hsolid, hspan, hrest⟩ := h
      have hrest' := ih hrest
      refine ⟨front, rest, hs, hfront, hjoined, hsolid, ?_, ?_⟩
      · simp only [Token.shift, hspan, Span.mk.injEq]
        omega
      · simpa only [Token.shift, Nat.add_right_comm] using hrest'

/-- Blanks may be put in anywhere in front of the last token, but not within a token and not where a
number goes on. -/
theorem insert (h : Laid start ts s) (hgap : gap.Blank) (hfrom : start ≤ p)
    (hto : p < start + byteLength s)
    (hwithin : ∀ t ∈ ts, ¬ (t.span.start < p ∧ p < t.span.stop))
    (hjoined : ∀ t ∈ ts, t.kind.joined = true → p ≠ t.span.start) :
    ∃ a b us, s = a ++ b ∧ start + byteLength a = p ∧ Laid start us (a ++ gap ++ b) ∧
      us.map Token.terminal = ts.map Token.terminal := by
  induction ts generalizing start s with
  | nil =>
      obtain rfl := nil_iff.mp h
      rw [Text.byteLength_nil] at hto
      omega
  | cons t ts ih =>
      obtain ⟨front, rest, rfl, hfront, hnone, hsolid, hspan, hrest⟩ := h
      obtain ⟨ht, hts⟩ := List.forall_mem_cons.mp hwithin
      obtain ⟨ht', hts'⟩ := List.forall_mem_cons.mp hjoined
      simp only [hspan] at ht ht'
      rw [Text.byteLength_append, Text.byteLength_append] at hto
      by_cases hp : p ≤ start + byteLength front
      · -- the blanks go to those in front of the first token, and all tokens move
        have hoffset : p - start ≤ byteLength front := by omega
        obtain ⟨a, b, rfl, ha⟩ := Text.exists_split_of_blank hfront hoffset
        obtain ⟨hfronta, hfrontb⟩ := CharSet.all_append.mp hfront
        have hstart : start + byteLength (a ++ gap ++ b) =
            start + byteLength (a ++ b) + byteLength gap := by
          simp only [Text.byteLength_append]
          omega
        have hmoved := Laid.shift hrest (byteLength gap)
        rw [Nat.add_right_comm] at hmoved
        refine ⟨a, b ++ (t.text ++ rest), (t :: ts).map (Token.shift (byteLength gap)),
          by rw [List.append_assoc], by omega, ?_, Token.map_terminal_shift _ _⟩
        refine ⟨a ++ gap ++ b, rest, by simp only [List.append_assoc]; rfl, ?_, ?_, hsolid, ?_, ?_⟩
        · exact CharSet.all_append.mpr ⟨CharSet.all_append.mpr ⟨hfronta, hgap⟩, hfrontb⟩
        · intro ht
          rw [hnone ht, Text.byteLength_nil] at hp ht'
          exact absurd (by omega) (ht' ht)
        · simp only [Token.shift, hspan, hstart, Span.mk.injEq, true_and]
          omega
        · rw [hstart]
          exact hmoved
      · have hbehind : start + byteLength front + byteLength t.text ≤ p := by omega
        rw [← Nat.add_assoc, ← Nat.add_assoc] at hto
        obtain ⟨a, b, us, rfl, ha, hus, hterminals⟩ := ih hrest hbehind hto hts hts'
        refine ⟨front ++ (t.text ++ a), b, t :: us, by simp only [List.append_assoc], ?_, ?_, ?_⟩
        · rw [Text.byteLength_append, Text.byteLength_append]
          omega
        · exact ⟨front, a ++ gap ++ b, by simp only [List.append_assoc], hfront, hnone, hsolid, hspan,
            hus⟩
        · rw [List.map_cons, List.map_cons, hterminals]

end Laid

section
variable {limit : NestingLimit} {s gap : Text} {p : Nat}

theorem evaluate_solidPart (h : (Verdict.evaluate limit s).valid = true) :
    (Verdict.evaluate limit s.solidPart).valid = true ∧
      (Verdict.evaluate limit s.solidPart).tokens.map Token.terminal =
        (Verdict.evaluate limit s).tokens.map Token.terminal := by
  obtain ⟨T, hT, read, behind, hs, hbehind, hspelled⟩ := exists_spells_of_valid h
  have hsolid : ∀ x ∈ T.terminals, x.text.Solid :=
    fun x hx => (T.formed_of_mem_terminals x hx).solid
  obtain ⟨us, hus⟩ := Spelled.exists_of_solid hsolid 0
  have hbare : T.terminals.flatMap Terminal.text = s.solidPart := by
    rw [hs, Text.solidPart_append, Text.solidPart_of_blank hbehind, List.append_nil,
      ← hspelled.laid.flatten_texts, ← hspelled.terminals, List.flatMap_map]
    rfl
  rw [hbare] at hus
  have hspells : T.Spells us s.solidPart :=
    ⟨_, [], (List.append_nil _).symm, CharSet.all_nil, hus⟩
  rw [hspells.evaluate hT]
  exact ⟨rfl, hus.terminals.trans hspelled.terminals.symm⟩

theorem evaluate_insert (h : (Verdict.evaluate limit s).valid = true) (hgap : gap.Blank)
    (hp : p ≤ byteLength s)
    (hwithin : ∀ t ∈ (Verdict.evaluate limit s).tokens, ¬ (t.span.start < p ∧ p < t.span.stop))
    (hdot : ∀ t ∈ (Verdict.evaluate limit s).tokens, t.kind = .dot →
      p ≠ t.span.start ∧ p ≠ t.span.stop) :
    ∃ a b, s = a ++ b ∧ byteLength a = p ∧
      (Verdict.evaluate limit (a ++ gap ++ b)).valid = true ∧
      (Verdict.evaluate limit (a ++ gap ++ b)).tokens.map Token.terminal =
        (Verdict.evaluate limit s).tokens.map Token.terminal := by
  obtain ⟨T, hT, read, behind, hs, hbehind, hspelled⟩ := exists_spells_of_valid h
  by_cases hread : p < byteLength read
  · have horder : Token.InOrder (Verdict.evaluate limit s).tokens :=
      .of_viable (.of_derives ⟨T, hT, hspelled.terminals.symm⟩)
    have hjoined : ∀ t ∈ (Verdict.evaluate limit s).tokens,
        t.kind.joined = true → p ≠ t.span.start := by
      intro t ht htjoined hpt
      obtain ⟨u, hu, hkind, heq⟩ := horder.exists_dot hspelled.laid.isChain_joinsTo ht htjoined
      obtain ⟨hstart, hstop⟩ := hdot u hu hkind
      omega
    obtain ⟨a, b, us, rfl, ha, hus, hterminals⟩ :=
      hspelled.laid.insert hgap (Nat.zero_le p) (by omega) hwithin hjoined
    have hspells : T.Spells us (a ++ gap ++ (b ++ behind)) :=
      ⟨a ++ gap ++ b, behind, by simp only [List.append_assoc], hbehind,
        hterminals.trans hspelled.terminals, hus⟩
    refine ⟨a, b ++ behind, by rw [hs, List.append_assoc], by omega, ?_⟩
    rw [hspells.evaluate hT]
    exact ⟨rfl, hterminals⟩
  · rw [hs, Text.byteLength_append] at hp
    have hoffset : p - byteLength read ≤ byteLength behind := by omega
    obtain ⟨a, b, rfl, ha⟩ := Text.exists_split_of_blank hbehind hoffset
    obtain ⟨hblanka, hblankb⟩ := CharSet.all_append.mp hbehind
    have hblank : Text.Blank (a ++ gap ++ b) :=
      CharSet.all_append.mpr ⟨CharSet.all_append.mpr ⟨hblanka, hgap⟩, hblankb⟩
    have hspells : T.Spells (Verdict.evaluate limit s).tokens (read ++ a ++ gap ++ b) :=
      ⟨read, a ++ gap ++ b, by simp only [List.append_assoc], hblank, hspelled⟩
    refine ⟨read ++ a, b, by rw [hs, List.append_assoc], ?_, ?_⟩
    · rw [Text.byteLength_append]
      omega
    · rw [hspells.evaluate hT]
      exact ⟨rfl, rfl⟩

end

/-- Blanks around any text, and within a valid one none at all or others between its tokens. -/
theorem evaluate_with_blanks (n : Nat) (s : Text) :
    let verdict := Verdict.evaluate (.ofNat n) s
    (∀ u v : Text, u.Blank → v.Blank →
      let padded := Verdict.evaluate (.ofNat n) (u ++ s ++ v)
      padded.valid = verdict.valid ∧
        padded.tokens = verdict.tokens.map (Token.shift (byteLength u)) ∧
        (recognize (.ofNat n) (u ++ s ++ v)).outcome = (recognize (.ofNat n) s).outcome) ∧
    (verdict.valid = true →
      let bare := Verdict.evaluate (.ofNat n) s.solidPart
      bare.valid = true ∧
        bare.tokens.map Token.terminal = verdict.tokens.map Token.terminal) ∧
    (verdict.valid = true → ∀ (w : Text) (p : Nat), w.Blank → p ≤ byteLength s →
      (∀ t ∈ verdict.tokens, ¬ (t.span.start < p ∧ p < t.span.stop)) →
      (∀ t ∈ verdict.tokens, t.kind = .dot → p ≠ t.span.start ∧ p ≠ t.span.stop) →
      ∃ a b, s = a ++ b ∧ byteLength a = p ∧
        let spread := Verdict.evaluate (.ofNat n) (a ++ w ++ b)
        spread.valid = true ∧
          spread.tokens.map Token.terminal = verdict.tokens.map Token.terminal) := by
  intro verdict
  refine ⟨?_, evaluate_solidPart, ?_⟩
  · intro u v hu hv
    have hmoved := relocated_recognize (.ofNat n) hu hv s
    have houtcome := hmoved.outcome_eq
    refine ⟨?_, hmoved.tokens, houtcome⟩
    simp only [verdict, Verdict.evaluate, Verdict.ofAttempt, houtcome]
  · intro hvalid w p hw hp hwithin hdot
    exact evaluate_insert hvalid hw hp hwithin hdot

end ArithGrammar
