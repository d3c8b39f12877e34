import ArithGrammar.Proofs.Completion
import ArithGrammar.Proofs.LongestMatch

/-!
# The order of the tokens

Which tokens may stand side by side is told by the grammar, whatever comes of the text. The tokens
of any verdict begin those of some tree (`viable_or_emptyGroup`), so what holds of any two terminals
of a tree side by side holds of them, and the first one may begin an operand. The parentheses of an
empty group make the only exception, and nothing follows them.

`Token.InPlace` says what this comes to for one token, given those in front of it and those behind
it: what it may follow, what makes a decimal number with it, and that it is not cut short in the text.
-/
namespace ArithGrammar

/-- The token stands where its kind may stand, and goes on in the text as far as its kind allows. A
closing parenthesis follows an operand or makes an empty group at the very end. -/
structure Token.InPlace (input : Text) (valid : Bool) (before : List Token) (t : Token)
    (behind : List Token) : Prop where
  longest : t.LongestIn input behind.head?
  operator : t.kind = .addOp ∨ t.kind = .mulOp →
    ∃ u ∈ before.getLast?, u.kind.endsOperand = true
  operand : t.kind.startsOperand = true →
    ∀ u ∈ before.getLast?, u.kind.awaitsOperand = true
  closing : t.kind = .closeParen → (∃ u ∈ before.getLast?, u.kind.endsOperand = true) ∨
    valid = false ∧ behind = [] ∧ ∃ kept op x, before = kept ++ [op, x] ∧
      op.kind = .addOp ∧ x.kind = .openParen
  dot : t.kind = .dot →
    (∃ u ∈ before.getLast?, u.kind = .integer ∧ u.span.stop = t.span.start) ∧
      ∃ u ∈ behind.head?, u.kind = .fraction ∧ u.span.start = t.span.stop
  fraction : t.kind = .fraction →
    ∃ u ∈ before.getLast?, u.kind = .dot ∧ u.span.stop = t.span.start

/-- The tokens are ordered as those of a tree, and stop nowhere within a number. -/
structure Token.InOrder (ts : List Token) : Prop where
  head : ∀ t ∈ ts.head?, t.kind.startsOperand = true
  last : ∀ t ∈ ts.getLast?, t.kind ≠ .dot
  chain : ts.IsChain fun t u => t.kind.precedes u.kind = true

namespace Token.InOrder
variable {ts before front behind : List Token} {t op x : Token} {room : Nat} {input : Text}
  {valid : Bool}

theorem of_viable (h : Part.expression.Viable room (ts.map Token.terminal)) : InOrder ts := by
  obtain ⟨operand, groups, T, -, hT⟩ := h
  have hordered := T.ordered
  rw [hT] at hordered
  obtain ⟨hhead, hlast, hchain⟩ := hordered
  obtain ⟨hts, -, hbeside⟩ := List.isChain_append.mp hchain
  constructor
  · intro t ht
    apply hhead t.terminal
    rw [List.head?_append, List.head?_map, ht]
    rfl
  · intro t ht hdot
    have hmem : t.terminal ∈ (ts.map Token.terminal).getLast? := by
      rw [List.getLast?_map, ht]
      rfl
    cases hnext : (Terminal.completion operand groups).head? with
    | none =>
        rw [List.head?_eq_none_iff.mp hnext, List.append_nil] at hlast
        have hend : t.kind.endsOperand = true := hlast _ hmem
        rw [hdot] at hend
        cases hend
    | some y =>
        have hpair : t.kind.precedes y.kind = true := hbeside _ hmem y hnext
        rw [hdot] at hpair
        cases operand <;> cases groups <;> cases hnext <;> cases hpair
  · exact (List.isChain_map _).mp hts

theorem append_openParen (h : InOrder (before ++ [op])) (hop : op.kind = .addOp)
    (hx : x.kind = .openParen) : InOrder (before ++ [op] ++ [x]) := by
  obtain ⟨hhead, -, hchain⟩ := h
  constructor
  · intro t ht
    rw [List.head?_append_of_ne_nil _ (by simp)] at ht
    exact hhead t ht
  · intro t ht hdot
    rw [List.getLast?_concat] at ht
    obtain rfl := Option.some.inj ht
    rw [hx] at hdot
    cases hdot
  · apply hchain.append (.singleton x)
    intro t ht u hu
    rw [List.getLast?_concat] at ht
    obtain rfl := Option.some.inj ht
    obtain rfl := Option.some.inj hu
    rw [hop, hx]
    rfl

/-- Only what begins an operand comes first, and any other token stands behind one. -/
theorem exists_precedes (h : InOrder (before ++ t :: behind)) (ht : t.kind.startsOperand = false) :
    ∃ u ∈ before.getLast?, u.kind.precedes t.kind = true := by
  cases hlast : before.getLast? with
  | none =>
      obtain rfl := List.getLast?_eq_none_iff.mp hlast
      have hstarts := h.head t rfl
      rw [ht] at hstarts
      cases hstarts
  | some u =>
      have hbeside := (List.isChain_append.mp h.chain).2.2
      exact ⟨u, rfl, hbeside u hlast t rfl⟩

theorem exists_endsOperand (h : InOrder (before ++ t :: behind))
    (ht : t.kind.followsOperand = true) : ∃ u ∈ before.getLast?, u.kind.endsOperand = true := by
  have hstarts : t.kind.startsOperand = false := by
    cases hkind : t.kind <;> rw [hkind] at ht <;> cases ht <;> rfl
  obtain ⟨u, hu, hprecedes⟩ := h.exists_precedes hstarts
  exact ⟨u, hu, TokenKind.endsOperand_of_precedes ht hprecedes⟩

/-- Where a number goes on, the token in front is one that it goes on from. -/
theorem exists_joinsTo (h : InOrder (before ++ t :: front))
    (hjoins : (before ++ t :: behind).IsChain JoinsTo) (ht : t.kind.joined = true) :
    ∃ u ∈ before.getLast?, u.kind.precedes t.kind = true ∧ u.span.stop = t.span.start := by
  have hstarts : t.kind.startsOperand = false := by
    cases hkind : t.kind <;> rw [hkind] at ht <;> cases ht <;> rfl
  obtain ⟨u, hu, hprecedes⟩ := h.exists_precedes hstarts
  have hstart := (List.isChain_append.mp hjoins).2.2 u hu t rfl ht
  exact ⟨u, hu, hprecedes, hstart.symm⟩

/-- A number goes on at its dot: the dot begins there, or the fraction where the dot ends. -/
theorem exists_dot (h : InOrder ts) (hjoins : ts.IsChain JoinsTo) (ht : t ∈ ts)
    (hjoined : t.kind.joined = true) :
    ∃ u ∈ ts, u.kind = .dot ∧ (t.span.start = u.span.start ∨ t.span.start = u.span.stop) := by
  obtain ⟨before, behind, rfl⟩ := List.append_of_mem ht
  obtain ⟨u, hu, hprecedes, hstop⟩ := h.exists_joinsTo hjoins hjoined
  cases hkind : t.kind with
  | dot => exact ⟨t, ht, hkind, .inl rfl⟩
  | fraction =>
      rw [hkind] at hprecedes
      have hmem : u ∈ before ++ t :: behind := List.mem_append_left _ (List.mem_of_getLast? hu)
      exact ⟨u, hmem, TokenKind.eq_dot_of_precedes_fraction hprecedes, .inr hstop.symm⟩
  | _ =>
      rw [hkind] at hjoined
      cases hjoined

/-- A token is in place if those up to some token behind it are in order. -/
theorem inPlace (h : InOrder (before ++ t :: front)) (hfront : front <+: behind)
    (hjoins : (before ++ t :: behind).IsChain JoinsTo)
    (hlongest : t.LongestIn input behind.head?) : InPlace input valid before t behind := by
  constructor
  · exact hlongest
  · intro hkind
    apply h.exists_endsOperand
    rcases hkind with hkind | hkind <;> rw [hkind] <;> rfl
  · intro hstarts u hu
    have hbeside := (List.isChain_append.mp h.chain).2.2
    exact TokenKind.awaitsOperand_of_precedes hstarts (hbeside u hu t rfl)
  · intro hkind
    apply Or.inl
    apply h.exists_endsOperand
    rw [hkind]
    rfl
  · intro hkind
    constructor
    · obtain ⟨u, hu, hprecedes, hstop⟩ := h.exists_joinsTo hjoins (by rw [hkind]; rfl)
      rw [hkind] at hprecedes
      exact ⟨u, hu, TokenKind.eq_integer_of_precedes_dot hprecedes, hstop⟩
    · obtain ⟨rest, rfl⟩ := hfront
      cases front with
      | nil => exact absurd hkind (h.last t List.getLast?_concat)
      | cons u front =>
          have hpair := (List.isChain_append_cons_cons.mp h.chain).2.1
          rw [hkind] at hpair
          have hfraction : u.kind = .fraction := of_decide_eq_true hpair
          have hstart := (List.isChain_append_cons_cons.mp hjoins).2.1
          exact ⟨u, rfl, hfraction, hstart (by rw [hfraction]; rfl)⟩
  · intro hkind
    obtain ⟨u, hu, hprecedes, hstop⟩ := h.exists_joinsTo hjoins (by rw [hkind]; rfl)
    rw [hkind] at hprecedes
    exact ⟨u, hu, TokenKind.eq_dot_of_precedes_fraction hprecedes, hstop⟩

end Token.InOrder

/-- The parenthesis that closes an empty group behind an additive operator is the last token. -/
theorem Token.InPlace.emptyGroup {input : Text} {kept : List Token} {op x y : Token}
    (hlongest : y.LongestIn input none) (hop : op.kind = .addOp) (hx : x.kind = .openParen)
    (hy : y.kind = .closeParen) : InPlace input false (kept ++ [op] ++ [x]) y [] := by
  constructor
  · exact hlongest
  · rw [hy]
    rintro (hkind | hkind) <;> cases hkind
  · rw [hy]
    exact nofun
  · intro _
    exact .inr ⟨rfl, rfl, kept, op, x, by simp, hop, hx⟩
  · rw [hy]
    exact nofun
  · rw [hy]
    exact nofun

/-- Every token is in place, whether or not the text is valid. -/
theorem tokens_evaluate_inPlace (n : Nat) (input : Text) (before : List Token) (t : Token)
    (behind : List Token)
    (h : (Verdict.evaluate (.ofNat n) input).tokens = before ++ t :: behind) :
    t.InPlace input (Verdict.evaluate (.ofNat n) input).valid before behind := by
  have hlongest : Token.AllLongest input (Verdict.evaluate (.ofNat n) input).tokens :=
    allLongest_recognize (.ofNat n) input
  obtain ⟨_, _, -, hlaid, -⟩ := laid_evaluate (.ofNat n) input
  have hjoins := hlaid.isChain_joinsTo
  have hviable := viable_or_emptyGroup (.ofNat n) input
  generalize Verdict.evaluate (.ofNat n) input = verdict at *
  rw [h] at hlongest hjoins
  obtain ⟨ht, -⟩ := hlongest.of_append
  rcases hviable with hviable | ⟨hinvalid, kept, op, x, y, htokens, hop, hx, hy, hviable⟩
  · rw [h] at hviable
    have horder := Token.InOrder.of_viable hviable
    exact horder.inPlace (List.prefix_refl behind) hjoins ht
  · have horder := (Token.InOrder.of_viable hviable).append_openParen hop hx
    have hsplit : before ++ t :: behind = (kept ++ [op] ++ [x]) ++ [y] := by
      rw [← h, htokens]
      simp only [List.append_assoc, List.cons_append, List.nil_append]
    rcases List.eq_nil_or_concat' behind with rfl | ⟨front, last, rfl⟩
    · obtain ⟨rfl, hy'⟩ := List.append_inj' hsplit rfl
      obtain rfl := (List.cons.inj hy').1
      rw [hinvalid]
      exact .emptyGroup ht hop hx hy
    · rw [← List.cons_append, ← List.append_assoc] at hsplit
      obtain ⟨hfront, -⟩ := List.append_inj' hsplit rfl
      rw [← hfront] at horder
      exact horder.inPlace (List.prefix_append front [last]) hjoins ht

/-- The parenthesis of an empty group is in place as the last token only. -/
theorem tokens_evaluate_inPlace_of_emptyGroup :
    (Verdict.evaluate (.ofNat 1) "x + ()".toList).tokens =
        [.placed 0 .identifier ['x'], .placed 2 .addOp ['+'], .placed 4 .openParen ['(']] ++
          Token.placed 5 .closeParen [')'] :: [] ∧
      (Token.placed 5 .closeParen [')']).InPlace "x + ()".toList
        (Verdict.evaluate (.ofNat 1) "x + ()".toList).valid
        [.placed 0 .identifier ['x'], .placed 2 .addOp ['+'], .placed 4 .openParen ['(']] [] := by
  have htokens : (Verdict.evaluate (.ofNat 1) "x + ()".toList).tokens =
      [.placed 0 .identifier ['x'], .placed 2 .addOp ['+'], .placed 4 .openParen ['(']] ++
        Token.placed 5 .closeParen [')'] :: [] := by decide +kernel
  exact ⟨htokens, tokens_evaluate_inPlace 1 _ _ _ _ htokens⟩

end ArithGrammar
