import ArithGrammar.Proofs.Language
import ArithGrammar.Proofs.LoopBounds
import ArithGrammar.Proofs.Relocation

/-!
# Texts joined by an operator

Behind a factor an expression goes on in one way only, whether it is the first factor or a later
one and whatever operators stand in front (`Reading.behindFactor`). An operator there is read, and
what comes next is what an expression begins with. So a valid text with an operator and some other
text behind it is read as the valid text, the operator, and then the other text as if it stood
alone, and the verdict on the whole is that on the other text (`evaluate_joined`). The only
exception is the empty pair of parentheses, which is refused at another place behind `+` and `-`.
-/
namespace ArithGrammar
open Attempt
open Text (byteLength)

def TokenKind.ofOperator (c : Char) : TokenKind :=
  if CharSet.addOp.contains c then .addOp else .mulOp

/-- The character joins two texts to one expression: it is an operator, and an additive one only if
the text behind it does not begin with an empty pair of parentheses. -/
def Joins (c : Char) (s : Text) : Prop :=
  CharSet.mulOp.contains c = true ∨
    CharSet.addOp.contains c = true ∧ ¬ ['(', ')'] <+: Text.trimmed s

theorem CharSet.not_mulOp_of_addOp {c : Char} (hc : CharSet.addOp.contains c = true) :
    CharSet.mulOp.contains c = false := by
  rcases of_decide_eq_true hc with rfl | rfl <;> rfl

theorem CharSet.not_addOp_of_mulOp {c : Char} (hc : CharSet.mulOp.contains c = true) :
    CharSet.addOp.contains c = false := by
  rcases of_decide_eq_true hc with rfl | rfl | rfl <;> rfl

namespace Joins
variable {c : Char} {s r : Text}

theorem front (h : Joins c s) :
    Text.EndsLiteral (c :: r) ∧ CharSet.blank.contains c = false := by
  have hmul : TokenKind.mulOp.followsOperand = true := rfl
  have hadd : TokenKind.addOp.followsOperand = true := rfl
  obtain hc | ⟨hc, -⟩ := h
  · exact ⟨.of_followsOperand hmul hc, CharSet.not_blank (by decide) hc⟩
  · exact ⟨.of_followsOperand hadd hc, CharSet.not_blank (by decide) hc⟩

theorem of_mem (hc : c ∈ ['+', '-', '*', '/', '%'])
    (hs : c = '+' ∨ c = '-' → ¬ ['(', ')'] <+: Text.trimmed s) : Joins c s := by
  simp only [List.mem_cons, List.not_mem_nil, or_false] at hc
  rcases hc with rfl | rfl | rfl | rfl | rfl
  · exact .inr ⟨rfl, hs (.inl rfl)⟩
  · exact .inr ⟨rfl, hs (.inr rfl)⟩
  · exact .inl rfl
  · exact .inl rfl
  · exact .inl rfl

end Joins

namespace Reading
variable {f : View → Attempt View} {v w : View} {s r : Text} {c : Char} {room k : Nat}
  {ts : List Token}

/-- What is left of an expression behind a factor. -/
def behindFactor (f : View → Attempt View) (v : View) : Attempt Unit := do
  let v ← products f v.length v
  let v ← sums f v.length v
  if v.isEmpty then pure () else fail .mismatch

def fromFactor (f : View → Attempt View) (v : View) : Attempt Unit := do
  let v ← trim (← f v)
  behindFactor f v

theorem reads_expression_factor (h : v.text = .ok s) :
    (expression f v).Reads [] (fromFactor f v.trimmed) := by
  have hterm := (reads_term f v.trimmed).bind fun w => do
    let w ← sums f w.length w
    if w.isEmpty then pure () else fail .mismatch
  simp only [bind_assoc] at hterm
  exact (reads_expression h).trans hterm

theorem reads_behindFactor (hf : Finds View.Stands .factor room f) (h : v.text = .ok (c :: s))
    (hc : Joins c s) :
    (behindFactor f v).Reads [Token.placed v.start (.ofOperator c) [c]]
      (fromFactor f (v.back s).trimmed) := by
  have hsize := c.utf8Size_pos
  have hback := View.text_trimmed (View.text_back_cons h)
  have hle := Text.byteLength_trimmed_le s
  obtain ⟨n, hn, hsn⟩ : ∃ n, v.length = n + 1 ∧ byteLength s ≤ n := by
    rw [View.length_eq h, Text.byteLength_cons]
    exact ⟨c.utf8Size + byteLength s - 1, by omega, by omega⟩
  rw [behindFactor, hn]
  obtain hc | ⟨hc, hguard⟩ := hc
  · rw [TokenKind.ofOperator, CharSet.not_addOp_of_mulOp hc, if_neg Bool.false_ne_true]
    refine ((reads_products h hc).bind _).tail ?_
    rw [bind_assoc]
    refine congruence_reads.bind (.refl _) fun w hw => ?_
    obtain ⟨t, ht, htle⟩ := hf.exists_text hback hw
    have htrimmed := Text.byteLength_trimmed_le t
    rw [trim_eq_pure ht, pure_bind, pure_bind, behindFactor,
      View.length_eq (View.text_trimmed ht)]
    exact (reads_products_rounds hf (View.text_trimmed ht) (by omega) le_rfl).bind _
  · rw [TokenKind.ofOperator, hc, if_pos rfl,
      products_of_notAhead h (CharSet.notAhead_cons.mpr (CharSet.not_mulOp_of_addOp hc)), pure_bind,
      hn]
    refine ((reads_sums h hc hguard).bind _).tail ?_
    rw [bind_assoc]
    refine ((reads_term f _).bind _).tail ?_
    rw [bind_assoc]
    refine congruence_reads.bind (.refl _) fun w hw => ?_
    obtain ⟨t, ht, htle⟩ := hf.exists_text hback hw
    have htrimmed := Text.byteLength_trimmed_le t
    rw [trim_eq_pure ht, pure_bind, pure_bind, behindFactor]
    refine congruence_reads.bind (.refl _) fun u hu => ?_
    obtain ⟨r, hr, hrle⟩ := (finds_products hf _).exists_text (View.text_trimmed ht) hu
    rw [View.length_eq hr]
    exact (reads_sums_rounds hf hr (by omega) le_rfl).bind _

theorem reads_behindFactor_products (limit : Nat) {T : Tree .products} (hT : T.nesting ≤ room)
    (h : Ahead v T.terminals ts r) (hr : r.EndsLiteral) :
    (behindFactor (factor limit room) v.trimmed).Reads ts
      (behindFactor (factor limit room) (v.back r).trimmed) := by
  obtain ⟨m, hm, hloop⟩ := T.readBy_factor limit hT h hr le_rfl
  have htext := View.text_trimmed h.text_back
  rw [View.length_eq htext] at hm
  refine (hloop.bind _).tail ?_
  rw [behindFactor, View.length_eq htext]
  exact (reads_products_rounds (finds_factor limit room) htext hm le_rfl).bind _

/-- A term that is ahead is read, and what is left comes behind its last factor. -/
theorem reads_fromFactor (limit : Nat) {T : Tree .term} (hT : T.nesting ≤ room)
    (h : Ahead v T.terminals ts r) (hr : r.EndsLiteral) :
    (fromFactor (factor limit room) v.trimmed).Reads ts
      (behindFactor (factor limit room) (v.back r).trimmed) := by
  cases T with
  | term first more =>
      obtain ⟨hfirst, hmore⟩ := Nat.max_le.mp hT
      obtain ⟨ts₁, ts₂, r₁, rfl, h₁, h₂⟩ := h.append_inv
      have hends := h₂.endsLiteral (fun _ => Part.followsOperand_of_products) h₁.text_back hr
      refine (first.readBy_factor limit hfirst h₁ hends).andThen ?_
      rw [trim_eq_pure h₁.text_back, pure_bind]
      exact reads_behindFactor_products limit hmore h₂ hr

theorem reads_behindFactor_sums (limit : Nat) : ∀ {T : Tree .sums} {v : View} {ts : List Token},
    T.nesting ≤ room → Ahead v T.terminals ts r → r.EndsLiteral →
      (behindFactor (factor limit room) v.trimmed).Reads ts
        (behindFactor (factor limit room) (v.back r).trimmed)
  | .noSums, v, ts, _, h, _ => by
      obtain ⟨s, hv, -, -⟩ := id h
      obtain ⟨rfl, -⟩ := h.nil_inv hv
      rw [h.back_eq]
      exact .refl _
  | .sum op right more, v, ts, hT, h, hr => by
      obtain ⟨hright, hmore⟩ := Nat.max_le.mp hT
      obtain ⟨us, rest, hts, htext, hbehind, hrest, hback, -⟩ := h.cons_inv
      obtain ⟨ts₁, ts₂, r₁, hus, h₁, h₂⟩ := hrest.append_inv
      have hends := h₂.endsLiteral (fun _ => Part.followsOperand_of_sums) h₁.text_back hr
      have hjoins : Joins op.symbol rest := .inr ⟨op.mem, h₁.not_emptyGroup hbehind⟩
      have hop := reads_behindFactor (finds_factor limit room) htext hjoins
      rw [TokenKind.ofOperator, if_pos op.mem] at hop
      have hterm := reads_fromFactor limit hright h₁ hends
      have hsums := reads_behindFactor_sums limit hmore h₂ hr
      rw [hts, hus, ← hback]
      exact hop.trans (hterm.trans hsums)

/-- An expression that is ahead is read, and what is left comes behind its last factor. -/
theorem reads_expression_ahead (limit : Nat) {T : Tree .expression} (hT : T.nesting ≤ room)
    (hv : v.text = .ok s) (h : Ahead v T.terminals ts r) (hr : r.EndsLiteral) :
    (expression (factor limit room) v).Reads ts
      (behindFactor (factor limit room) (v.back r).trimmed) := by
  cases T with
  | expression first more =>
      obtain ⟨hfirst, hmore⟩ := Nat.max_le.mp hT
      obtain ⟨ts₁, ts₂, r₁, rfl, h₁, h₂⟩ := h.append_inv
      have hends := h₂.endsLiteral (fun _ => Part.followsOperand_of_sums) h₁.text_back hr
      have hterm := reads_fromFactor limit hfirst h₁ hends
      have hsums := reads_behindFactor_sums limit hmore h₂ hr
      exact (reads_expression_factor hv).trans (hterm.trans hsums)

theorem relocated_behindFactor (hf : Local f) (h : v.Relocated k w) :
    (behindFactor f v).Relocated k (fun _ _ => True) (behindFactor f w) := by
  obtain ⟨s, hv, hw, -⟩ := id h
  rw [behindFactor, behindFactor, View.length_eq hv, View.length_eq hw]
  exact .bind (local_products hf _ h) fun a b hab => relocated_sums_end hf hab

theorem relocated_fromFactor (hf : Local f) (h : v.Relocated k w) :
    (fromFactor f v).Relocated k (fun _ _ => True) (fromFactor f w) :=
  .bind (hf h) fun _ _ hab => relocated_trim (fun _ _ => relocated_behindFactor hf) hab

end Reading

open Reading

section
variable {limit : NestingLimit} {a b t behind : Text} {c : Char}

/-- A valid text is read first, and what is left of the expression begins behind its blanks. -/
theorem recognize_valid_append (ha : (Verdict.evaluate limit a).valid = true)
    (hc : Text.EndsLiteral (c :: t)) (hsolid : CharSet.blank.contains c = false)
    (ht : t.EndsSolid) (hbehind : behind.Blank) :
    ∃ u, View.Stands u (byteLength a) (c :: t) ∧
      (recognize limit (a ++ c :: t ++ behind)).Reads (Verdict.evaluate limit a).tokens
        (behindFactor (factor limit.levels limit.levels) u) := by
  obtain ⟨T, hT, s, gap, rfl, hgap, hspelled⟩ := exists_spells_of_valid ha
  have hnot := CharSet.notAhead_cons (s := t).mpr hsolid
  have hafter : CharSet.blank.afterRun (gap ++ c :: t) = c :: t := by
    rw [CharSet.afterRun_append hgap, CharSet.afterRun_eq_self hnot]
  have hend : Text.EndsSolid (gap ++ c :: t) := (ht.cons hsolid).append (List.cons_ne_nil _ _)
  have hwhole : (View.whole (s ++ gap ++ c :: t ++ behind)).text =
      .ok (s ++ (gap ++ c :: t ++ behind)) := by
    rw [View.text_whole]
    simp
  obtain ⟨hahead, hstart⟩ := Ahead.of_trimmed_append hwhole hbehind hend hspelled
    T.terminals_expression_ne_nil
  have htext := View.text_trimmed hwhole
  have hback := hahead.text_back
  have hliteral : Text.EndsLiteral (gap ++ c :: t) := by
    refine .of_afterRun ?_
    rwa [hafter]
  have hfront := reads_expression_ahead limit.levels hT htext hahead hliteral
  rw [recognize, trim_eq_pure hwhole, pure_bind]
  refine ⟨_, ⟨?_, ?_⟩, hfront⟩
  · rw [View.start_trimmed hback, CharSet.run_append hgap hnot, hstart, Text.byteLength_append]
    rw [View.start_whole, Nat.zero_add]
  · rw [View.text_trimmed hback, Text.trimmed_of_endsSolid hend, hafter]

/-- Behind a valid text and an operator the other text is read as on its own. -/
theorem recognize_joined (ha : (Verdict.evaluate limit a).valid = true) (hc : Joins c b) :
    ∃ x : Attempt Unit,
      (recognize limit (a ++ c :: b)).Reads ((Verdict.evaluate limit a).tokens ++
        [Token.placed (byteLength a) (.ofOperator c) [c]]) x ∧
      (recognize limit b).Relocated (byteLength a + byteLength [c]) (fun _ _ => True) x := by
  obtain ⟨t, behind, rfl, hbehind, ht, htrimmed, hrun⟩ := Text.exists_endsSolid b
  have hjoins : Joins c t := by rwa [Joins, htrimmed]
  obtain ⟨hliteral, hsolid⟩ := hjoins.front (r := t)
  obtain ⟨u, hu, hfront⟩ := recognize_valid_append ha hliteral hsolid ht hbehind
  rw [List.append_assoc, List.cons_append] at hfront
  have hop := reads_behindFactor (finds_factor limit.levels limit.levels) hu.text_eq hjoins
  rw [hu.start_eq] at hop
  refine ⟨_, hfront.trans hop, ?_⟩
  have hwhole := View.text_whole (t ++ behind)
  have hbehindOp := hu.back_cons
  have hrelocated : (View.whole (t ++ behind)).trimmed.trimmed.Relocated
      (byteLength a + byteLength [c]) (u.back t).trimmed := by
    rw [View.trimmed_trimmed hwhole]
    refine ⟨_, View.text_trimmed hwhole, ?_, fun hne => ?_⟩
    · rw [View.text_trimmed hbehindOp.text_eq, htrimmed]
    · rw [View.start_trimmed hbehindOp.text_eq, View.start_trimmed hwhole, hbehindOp.start_eq,
        hrun hne, View.start_whole]
      omega
  have hreads : (recognize limit (t ++ behind)).Reads [] (fromFactor
      (factor limit.levels limit.levels) (View.whole (t ++ behind)).trimmed.trimmed) := by
    rw [recognize, trim_eq_pure hwhole, pure_bind]
    exact reads_expression_factor (View.text_trimmed hwhole)
  exact .of_reads hreads (.refl _) rfl
    (relocated_fromFactor (local_factor limit.levels limit.levels) hrelocated)

end

/-- The whole is valid if the text behind the operator is, and otherwise fails as that does. -/
theorem evaluate_joined (n : Nat) (a b : Text) (c : Char)
    (ha : (Verdict.evaluate (.ofNat n) a).valid = true) (hc : c ∈ ['+', '-', '*', '/', '%'])
    (hguard : c = '+' ∨ c = '-' → ¬ ['(', ')'] <+: CharSet.blank.afterRun b) :
    (Verdict.evaluate (.ofNat n) (a ++ c :: b)).valid = (Verdict.evaluate (.ofNat n) b).valid ∧
      (Verdict.evaluate (.ofNat n) (a ++ c :: b)).tokens =
        (Verdict.evaluate (.ofNat n) a).tokens ++
          ⟨.ofOperator c, [c], ⟨byteLength a, byteLength a + 1⟩⟩ ::
            (Verdict.evaluate (.ofNat n) b).tokens.map (Token.shift (byteLength a + 1)) ∧
      (recognize (.ofNat n) (a ++ c :: b)).outcome = (recognize (.ofNat n) b).outcome := by
  have hjoins : Joins c b := by
    refine .of_mem hc fun hadd hpair => hguard hadd (hpair.trans ?_)
    exact List.rdropWhile_prefix _ _
  have hone : byteLength [c] = 1 := by
    simp only [List.mem_cons, List.not_mem_nil, or_false] at hc
    rcases hc with rfl | rfl | rfl | rfl | rfl <;> rfl
  obtain ⟨x, hreads, htokens, houtcome⟩ := recognize_joined ha hjoins
  have hsame : x.outcome = (recognize (.ofNat n) b).outcome := by
    generalize (recognize (.ofNat n) b).outcome = o at houtcome
    generalize x.outcome = o' at houtcome
    cases o <;> cases o'
    · exact congrArg Except.error houtcome.symm
    · exact houtcome.elim
    · exact houtcome.elim
    · rfl
  rw [hone] at htokens
  refine ⟨?_, ?_, hreads.outcome.trans hsame⟩
  · rw [Verdict.evaluate, Verdict.ofAttempt, hreads.outcome, hsame]
    rfl
  · rw [Verdict.evaluate, Verdict.ofAttempt, hreads.tokens, htokens, List.append_assoc,
      Token.placed, hone]
    rfl

/-- The text behind the operator is refused, where its group is closed. -/
theorem evaluate_joined_of_refused :
    (Verdict.evaluate (.ofNat 2) "-(1.5) ".toList).valid = true ∧
      '+' ∈ ['+', '-', '*', '/', '%'] ∧
      ('+' = '+' ∨ '+' = '-' → ¬ ['(', ')'] <+: CharSet.blank.afterRun " (2 + )é".toList) ∧
      (Verdict.evaluate (.ofNat 2) ("-(1.5) ".toList ++ '+' :: " (2 + )é".toList)).valid =
        (Verdict.evaluate (.ofNat 2) " (2 + )é".toList).valid ∧
      (Verdict.evaluate (.ofNat 2) ("-(1.5) ".toList ++ '+' :: " (2 + )é".toList)).tokens =
        (Verdict.evaluate (.ofNat 2) "-(1.5) ".toList).tokens ++
          ⟨.ofOperator '+', ['+'],
            ⟨byteLength "-(1.5) ".toList, byteLength "-(1.5) ".toList + 1⟩⟩ ::
            (Verdict.evaluate (.ofNat 2) " (2 + )é".toList).tokens.map
              (Token.shift (byteLength "-(1.5) ".toList + 1)) ∧
      (recognize (.ofNat 2) ("-(1.5) ".toList ++ '+' :: " (2 + )é".toList)).outcome =
        (recognize (.ofNat 2) " (2 + )é".toList).outcome := by
  have hvalid : (Verdict.evaluate (.ofNat 2) "-(1.5) ".toList).valid = true := by decide +kernel
  have hguard : '+' = '+' ∨ '+' = '-' →
      ¬ ['(', ')'] <+: CharSet.blank.afterRun " (2 + )é".toList := by decide +kernel
  exact ⟨hvalid, by decide, hguard, evaluate_joined 2 _ _ '+' hvalid (by decide) hguard⟩

end ArithGrammar
