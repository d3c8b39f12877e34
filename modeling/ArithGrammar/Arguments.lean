import ArithGrammar.Options

/-!
# Reading an argument list

Arguments are read from left to right, and the first one that does not fit decides the usage
error. Options and expressions may be mixed. The value of `--max-depth` may follow in an argument
of its own; it is then looked at only when the next switch, the next expression or the end of the
list shows that nothing more belongs to it, so an unknown argument in between is met first. A
request for help or for the version is granted as soon as it is met.
-/
namespace ArithGrammar

/-- Where `--max-depth` without an equals sign has got to. -/
inductive Pending where
  | nothing
  | awaited
  | given (value : Text)
  deriving DecidableEq, Repr

/-- What the arguments read so far have settled. -/
structure Settled where
  tokens : Bool
  maxDepth : Option Nat
  noHistory : Bool
  expressions : List Text
  pending : Pending
  deriving DecidableEq, Repr

namespace Settled

def start : Settled := ⟨false, none, false, [], .nothing⟩

/-- Takes the value of `--max-depth`, which may be given only once. -/
def takeDepth (s : Settled) (value : Text) : Except UsageError Settled :=
  match s.maxDepth, Numeral.value value with
  | some _, _ => .error (.repeated .maxDepth)
  | none, .error e => .error (.badValue value e)
  | none, .ok n => .ok { s with maxDepth := some n, pending := .nothing }

def settle (s : Settled) : Except UsageError Settled :=
  match s.pending with
  | .nothing => .ok s
  | .awaited => .error .missingValue
  | .given value => s.takeDepth value

/-- An argument that is no option: the value that is waited for, or an expression. -/
def takePlain (s : Settled) (argument : Text) : Except UsageError Settled :=
  match s.pending with
  | .awaited => .ok { s with pending := .given argument }
  | _ => s.settle.map fun s => { s with expressions := s.expressions ++ [argument] }

/-- A switch without a value, when nothing is pending. Answers what is asked for at once. -/
def takeSwitch (s : Settled) : Switch → Except UsageError (Settled ⊕ Request)
  | .tokens =>
      if s.tokens then .error (.repeated .tokens) else .ok (.inl { s with tokens := true })
  | .noHistory =>
      if s.noHistory then .error (.repeated .noHistory)
      else .ok (.inl { s with noHistory := true })
  | .maxDepth => .ok (.inl { s with pending := .awaited })
  | .help => .ok (.inr .help)
  | .version => .ok (.inr .version)

/-- The letters after a single hyphen, each of them a switch. -/
def takeLetters : Settled → Text → Except UsageError (Settled ⊕ Request)
  | s, [] => .ok (.inl s)
  | s, c :: cs =>
      match Switch.ofLetter? c with
      | none => .error (.unknown ['-', c])
      | some switch =>
          match s.settle with
          | .error e => .error e
          | .ok s =>
              match s.takeSwitch switch with
              | .ok (.inl s) => s.takeLetters cs
              | answer => answer

/-- A long name, with its value if there is an equals sign. -/
def takeLong (s : Settled) (name : Text) (value? : Option Text) :
    Except UsageError (Settled ⊕ Request) :=
  match Switch.ofLongName? name, value? with
  | none, _ => .error (.unknown (['-', '-'] ++ name))
  | some .maxDepth, some value => do
      let s ← s.settle
      return .inl (← s.takeDepth value)
  | some switch, some value => .error (.needlessValue value switch)
  | some switch, none => do
      let s ← s.settle
      s.takeSwitch switch

def takeArgument (s : Settled) : Text → Except UsageError (Settled ⊕ Request)
  | '-' :: '-' :: cs =>
      match cs.dropWhile (· ≠ '=') with
      | [] => s.takeLong cs none
      | _ :: value => s.takeLong (cs.takeWhile (· ≠ '=')) (some value)
  | '-' :: c :: cs => s.takeLetters (c :: cs)
  | argument => (s.takePlain argument).map .inl

/-- Everything is read. The greatest depth is taken where none was given. -/
def finish (s : Settled) : Except UsageError Request :=
  s.settle.map fun s =>
    .check ⟨s.tokens, s.maxDepth.getD maxNesting, s.noHistory, s.expressions⟩

/-- The arguments after the end of the options are expressions, whatever they look like. -/
def takeRest : Settled → List Text → Except UsageError Settled
  | s, [] => .ok s
  | s, argument :: rest => do
      let s ← s.settle
      takeRest { s with expressions := s.expressions ++ [argument] } rest

def read : Settled → List Text → Except UsageError Request
  | s, [] => s.finish
  | s, argument :: rest =>
      if argument = ['-', '-'] then (s.takeRest rest).bind finish
      else
        match s.takeArgument argument with
        | .error e => .error e
        | .ok (.inr request) => .ok request
        | .ok (.inl s) => read s rest

end Settled

/-- What an argument list asks for. -/
def Request.ofArguments (arguments : List Text) : Except UsageError Request :=
  Settled.start.read arguments

end ArithGrammar
