import ArithGrammar.Text

/-!
# Sets of code points

A property of characters is given by the ranges of code points that have it, in ascending order.
Membership looks at the ranges up to the first one that begins above the code point, which leaves
nothing out when they ascend (`has_iff`).
-/
namespace ArithGrammar

/-- Ranges from a first to a last code point, both of them members. -/
abbrev CodePoints := List (Nat × Nat)

namespace CodePoints

def has : CodePoints → Nat → Bool
  | [], _ => false
  | (first, last) :: rest, n => decide (first ≤ n) && (decide (n ≤ last) || has rest n)

def contains (ranges : CodePoints) (c : Char) : Bool := has ranges c.toNat

theorem has_iff {ranges : CodePoints} {n : Nat}
    (h : ranges.Pairwise fun r s => r.1 ≤ s.1) :
    has ranges n = true ↔ ∃ r ∈ ranges, r.1 ≤ n ∧ n ≤ r.2 := by
  induction ranges with
  | nil => simp [has]
  | cons r rest ih =>
    obtain ⟨hr, hrest⟩ := List.pairwise_cons.mp h
    simp only [has, Bool.and_eq_true, Bool.or_eq_true, decide_eq_true_eq, ih hrest,
      List.mem_cons, exists_eq_or_imp]
    constructor
    · rintro ⟨hf, hl | hs⟩
      · exact .inl ⟨hf, hl⟩
      · exact .inr hs
    · rintro (⟨hf, hl⟩ | ⟨s, hs, hfs, hl⟩)
      · exact ⟨hf, .inl hl⟩
      · exact ⟨Nat.le_trans (hr s hs) hfs, .inr ⟨s, hs, hfs, hl⟩⟩

end CodePoints

end ArithGrammar
