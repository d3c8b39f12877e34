import ArithGrammar.Reading

/-!
# Verdicts

Recognition tries to read a whole text, apart from the blanks around it, as one expression. Its
verdict is whether that succeeded, with the tokens read until then. How deep groups and signs
may nest is a limit of the caller's choice, but never more than `maxNesting`.
-/
namespace ArithGrammar

/-- The most that any limit allows. -/
def maxNesting : Nat := 256

/-- How deep groups and signs may nest. -/
structure NestingLimit where
  levels : Nat
  levels_le : levels ≤ maxNesting
  deriving DecidableEq, Repr

namespace NestingLimit

/-- The limit wished for, or the greatest one if the wish is beyond it. -/
def ofNat (n : Nat) : NestingLimit := ⟨min n maxNesting, Nat.min_le_right n maxNesting⟩

/-- The limit where none is chosen. -/
def greatest : NestingLimit := ofNat maxNesting

@[simp] theorem levels_ofNat (n : Nat) : (ofNat n).levels = min n maxNesting := rfl

theorem ofNat_of_le {n : Nat} (h : maxNesting ≤ n) : ofNat n = greatest := by
  simp [ofNat, greatest, Nat.min_eq_right h]

end NestingLimit

/-- The attempt to read the whole text as one expression. -/
def recognize (limit : NestingLimit) (input : Text) : Attempt Unit := do
  let v ← Attempt.trim (View.whole input)
  Reading.expression (Reading.factor limit.levels limit.levels) v

structure Verdict where
  valid : Bool
  tokens : List Token
  deriving DecidableEq, Repr

namespace Verdict

/-- What an attempt comes to, whatever the reason of a failure. -/
def ofAttempt (x : Attempt Unit) : Verdict := ⟨x.outcome.isOk, x.tokens⟩

def evaluate (limit : NestingLimit) (input : Text) : Verdict := ofAttempt (recognize limit input)

end Verdict

end ArithGrammar
