import ArithGrammar.Log
import ArithGrammar.Quoted
import ArithGrammar.Verdict

/-!
# The account of a recognition

A recognition gives account of itself in log records: one for each event of its trace, at the
level `trace`, and a last one at the level `debug` that says how it ended. Every text in a message
is quoted, so a record is a single line whatever is recognized.
-/
namespace ArithGrammar

def Text.ofNat (n : Nat) : Text := Nat.toDigits 10 n

def Failure.message : Failure → Text
  | mismatch => "syntax mismatch".toList
  | tooDeep limit => "nesting deeper than ".toList ++ Text.ofNat limit ++ " levels".toList
  | badSlice (.reversed start stop) =>
      "slice from ".toList ++ Text.ofNat start ++ " back to ".toList ++ Text.ofNat stop
  | badSlice (.offBoundary offset) => "slice inside a character at ".toList ++ Text.ofNat offset

def Event.message : Event → Text
  | entered rule v => rule.label ++ [' '] ++ Quoted.encode v.chars
  | read t =>
      "token ".toList ++ t.kind.label ++ [' '] ++ Quoted.encode t.text ++ " at ".toList ++
        Text.ofNat t.span.start ++ "..".toList ++ Text.ofNat t.span.stop

/-- How the attempt at an input ended. -/
def Attempt.summary (x : Attempt Unit) (input : Text) : Text :=
  match x.outcome with
  | .ok () =>
      "accepted ".toList ++ Quoted.encode input ++ " (".toList ++ Text.ofNat x.tokens.length ++
        " tokens)".toList
  | .error failure =>
      "rejected ".toList ++ Quoted.encode input ++ ": ".toList ++ failure.message

/-- The target of all records on recognition. -/
def recognitionTarget : Text := "descent::parser".toList

/-- The records of a recognition at the levels that are wanted, in order. -/
def account (wanted : Level → Bool) (limit : NestingLimit) (input : Text) : List Record :=
  let x := recognize limit input
  (if wanted .trace then x.trace.map fun e => ⟨.trace, recognitionTarget, e.message⟩ else []) ++
    if wanted .debug then [⟨.debug, recognitionTarget, x.summary input⟩] else []

def accountLines (most : Option Level) (limit : NestingLimit) (input : Text) : List Text :=
  (account (·.within most) limit input).map Record.line

/-- Leaving a level out leaves the records of the others as they are. -/
theorem account_eq_filter (wanted : Level → Bool) (limit : NestingLimit) (input : Text) :
    account wanted limit input =
      (account (fun _ => true) limit input).filter fun r => wanted r.level := by
  unfold account
  have filter_true (xs : List Event) : xs.filter (fun _ => true) = xs := by simp
  cases ht : wanted .trace <;> cases hd : wanted .debug <;>
    simp [ht, hd, List.filter_map, Function.comp_def, filter_true]

end ArithGrammar
