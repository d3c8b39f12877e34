import ArithGrammar.Verdict

/-!
# Sessions

A session is a list of steps that share a nesting limit and the verdicts so far, which are
numbered in the order in which they were reached. Choosing a limit concerns the steps that come
after it. Looking up a token that a verdict does not have, or a verdict that there is not, is
answered by nothing and changes nothing.
-/
namespace ArithGrammar

inductive SessionStep where
  | limit (n : Nat)
  | greatest
  | evaluate (input : Text)
  | token (verdict index : Nat)
  | compare (left right : Nat)
  deriving DecidableEq, Repr

/-- Whether two verdicts are the same, and whether their tokens are. -/
structure Comparison where
  verdicts : Bool
  tokens : Bool
  deriving DecidableEq, Repr

inductive SessionResult where
  | levels (n : Nat)
  | verdict (v : Verdict)
  | token (t : Token)
  | comparison (c : Comparison)
  | missing
  deriving DecidableEq, Repr

structure Session where
  limit : NestingLimit
  verdicts : List Verdict
  deriving DecidableEq, Repr

namespace Session

def start (limit : NestingLimit) : Session := ⟨limit, []⟩

def compare (a b : Verdict) : Comparison := ⟨decide (a = b), decide (a.tokens = b.tokens)⟩

def step (s : Session) : SessionStep → SessionResult × Session
  | .limit n => (.levels (NestingLimit.ofNat n).levels, { s with limit := .ofNat n })
  | .greatest => (.levels NestingLimit.greatest.levels, { s with limit := .greatest })
  | .evaluate input =>
      (.verdict (.evaluate s.limit input),
        { s with verdicts := s.verdicts ++ [.evaluate s.limit input] })
  | .token verdict index =>
      match s.verdicts[verdict]?.bind fun v => v.tokens[index]? with
      | some t => (.token t, s)
      | none => (.missing, s)
  | .compare left right =>
      match s.verdicts[left]?, s.verdicts[right]? with
      | some a, some b => (.comparison (compare a b), s)
      | _, _ => (.missing, s)

def run : Session → List SessionStep → List SessionResult × Session
  | s, [] => ([], s)
  | s, x :: xs =>
      let r := s.step x
      let later := r.2.run xs
      (r.1 :: later.1, later.2)

theorem run_append (s : Session) (xs ys : List SessionStep) :
    s.run (xs ++ ys) =
      ((s.run xs).1 ++ ((s.run xs).2.run ys).1, ((s.run xs).2.run ys).2) := by
  induction xs generalizing s with
  | nil => rfl
  | cons x xs ih => simp [run, ih]

end Session

end ArithGrammar
