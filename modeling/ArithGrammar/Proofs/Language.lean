import ArithGrammar.Proofs.Completeness
import ArithGrammar.Proofs.Soundness

/-!
# The language of valid texts

A text spells a tree if it is made of the tree's terminals, with blanks between them and around
them. The valid texts are those that spell a tree which nests no deeper than the limit
(`valid_iff_exists_tree`). Such a text spells one tree only, however deep others might nest, and
the tokens of its verdict are the leaves of that tree (`exists_unique_tree_of_valid`).
-/
namespace ArithGrammar
open Attempt
variable {limit : NestingLimit} {input s : Text} {ts : List Token}

/-- The text is made of those tokens and of blanks between and around them, and the tokens are
the leaves of the tree. Blanks do not stand around the dot of a decimal number. -/
def Tree.Spells (T : Tree .expression) (ts : List Token) (input : Text) : Prop :=
  ∃ s behind, input = s ++ behind ∧ behind.Blank ∧ Spelled T.terminals 0 ts s

theorem evaluate_of_reads (h : (recognize limit input).Reads ts (pure ())) :
    Verdict.evaluate limit input = ⟨true, ts⟩ := by
  obtain ⟨htokens, houtcome⟩ := h
  rw [Verdict.evaluate, Verdict.ofAttempt, htokens, houtcome]
  simp [Except.isOk, Except.toBool]

theorem Tree.Spells.evaluate {T : Tree .expression} (h : T.Spells ts input)
    (hT : T.nesting ≤ limit.levels) : Verdict.evaluate limit input = ⟨true, ts⟩ := by
  obtain ⟨s, behind, rfl, hbehind, hs⟩ := h
  exact evaluate_of_reads (T.reads_recognize hT hs hbehind)

/-- With enough room a text is read as any tree that it spells, so the trees do not differ. -/
theorem Tree.Spells.unique {T U : Tree .expression} {us : List Token} (h : T.Spells ts input)
    (k : U.Spells us input) : U = T ∧ us = ts := by
  obtain ⟨s, behind, rfl, hbehind, hs⟩ := h
  obtain ⟨t, behind', heq, hbehind', ht⟩ := k
  have hT := T.reads_whole 0 (le_max_left T.nesting U.nesting) hs hbehind
  have hU := U.reads_whole 0 (le_max_right T.nesting U.nesting) ht hbehind'
  rw [← heq] at hU
  have htokens : us = ts := by
    have h := hU.tokens.symm.trans hT.tokens
    simpa using h
  refine ⟨Tree.terminals_injective ?_, htokens⟩
  rw [← hs.terminals, ← ht.terminals, htokens]

/-- The tokens of a valid verdict spell a tree. -/
theorem exists_spells_of_valid (h : (Verdict.evaluate limit input).valid = true) :
    ∃ T : Tree .expression, T.nesting ≤ limit.levels ∧
      T.Spells (Verdict.evaluate limit input).tokens input := by
  obtain ⟨read, rest, hs, hlaid, ⟨-, hrest, T, hT, hterminals⟩ | ⟨hinvalid, -⟩⟩ :=
    laid_evaluate limit input
  · exact ⟨T, hT, read, rest, hs, hrest, hterminals.symm, hlaid⟩
  · rw [h] at hinvalid
    cases hinvalid

theorem valid_iff_exists_tree (n : Nat) (input : Text) :
    (Verdict.evaluate (.ofNat n) input).valid = true ↔
      ∃ (T : Tree .expression) (ts : List Token), T.nesting ≤ min n maxNesting ∧
        T.Spells ts input := by
  constructor
  · intro h
    obtain ⟨T, hT, hs⟩ := exists_spells_of_valid h
    exact ⟨T, _, hT, hs⟩
  · rintro ⟨T, ts, hT, hs⟩
    have hverdict : Verdict.evaluate (.ofNat n) input = ⟨true, ts⟩ := hs.evaluate hT
    rw [hverdict]

theorem exists_unique_tree_of_valid (n : Nat) (input : Text)
    (h : (Verdict.evaluate (.ofNat n) input).valid = true) :
    ∃ T : Tree .expression, T.nesting ≤ min n maxNesting ∧
      T.Spells (Verdict.evaluate (.ofNat n) input).tokens input ∧
      ∀ (U : Tree .expression) (us : List Token), U.Spells us input →
        U = T ∧ us = (Verdict.evaluate (.ofNat n) input).tokens := by
  obtain ⟨T, hT, hs⟩ := exists_spells_of_valid h
  exact ⟨T, hT, hs, fun U us hU => hs.unique hU⟩

/-- A minus as a sign and as an operator, a group and both sorts of numbers. -/
theorem exists_unique_tree_of_signed_group :
    (Verdict.evaluate (.ofNat 2) "-(1.5 - x) * 2 ".toList).valid = true ∧
      ∃ T : Tree .expression, T.nesting ≤ min 2 maxNesting ∧
        T.Spells (Verdict.evaluate (.ofNat 2) "-(1.5 - x) * 2 ".toList).tokens
          "-(1.5 - x) * 2 ".toList ∧
        ∀ (U : Tree .expression) (us : List Token), U.Spells us "-(1.5 - x) * 2 ".toList →
          U = T ∧ us = (Verdict.evaluate (.ofNat 2) "-(1.5 - x) * 2 ".toList).tokens := by
  have hvalid : (Verdict.evaluate (.ofNat 2) "-(1.5 - x) * 2 ".toList).valid = true := by
    decide +kernel
  exact ⟨hvalid, exists_unique_tree_of_valid 2 _ hvalid⟩

end ArithGrammar
