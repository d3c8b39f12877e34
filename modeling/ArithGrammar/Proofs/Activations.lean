import ArithGrammar.Verdict

/-!
# Evaluation by calls

The rules of the grammar call one another here as the functions of a program do. Nothing is handed
to them that bounds how often a loop goes round or how many rules are followed inside one another,
so it is not clear beforehand that an evaluation comes to an end, and one that does not has no
result.

An evaluation keeps its tokens and its trace, a counter of the groups and signs it is in, and the
rules that are being followed. When it enters or leaves a rule, goes round a loop or counts, the
moment is looked at, and it stops without a result if the moment is not one that is allowed.
-/
namespace ArithGrammar

/-- A rule that is being followed: what was counted when it was entered, and the views that it has
worked on, the last one first. They are the view it was entered on, and one for each time its loop
has gone round. -/
structure Activation where
  rule : Rule
  depth : Nat
  views : List View
  deriving DecidableEq, Repr

/-- What is counted at a moment, which rules are being followed, the innermost first, and whether
that one is about to be left. -/
structure Moment where
  leaving : Bool
  depth : Nat
  opened : List Activation
  deriving DecidableEq, Repr

/-- How many levels may be counted, and which moments are allowed. -/
structure Evaluator where
  limit : Nat
  allowed : Moment → Bool

/-- What an evaluation has kept. -/
structure CallState where
  tokens : List Token
  trace : List Event
  depth : Nat
  opened : List Activation

/-- A step of an evaluation that does not fail. -/
abbrev CallStep (α : Type) := StateT CallState Option α

abbrev Evaluation (α : Type) := ExceptT Failure (StateT CallState Option) α

namespace Evaluator
open Attempt
variable {α : Type}

/-- What an attempt reads and comes to. -/
def perform (x : Attempt α) : Evaluation α :=
  (do
    modify fun st => { st with tokens := st.tokens ++ x.tokens, trace := st.trace ++ x.trace }
    return x.outcome : CallStep (Except Failure α))

section
variable (e : Evaluator)

def note (leaving : Bool) : CallStep Unit := do
  let st ← get
  if e.allowed ⟨leaving, st.depth, st.opened⟩ then pure () else failure

def enter (rule : Rule) (v : View) : CallStep Unit := do
  modify fun st => { st with
    trace := st.trace ++ [.entered rule v], opened := ⟨rule, st.depth, [v]⟩ :: st.opened }
  e.note false

def leave (outcome : Except Failure α) : CallStep (Except Failure α) := do
  e.note true
  modify fun st => { st with opened := st.opened.tail }
  return outcome

/-- The body of a rule, which is left however that ends. -/
abbrev during (rule : Rule) (v : View) (body : Evaluation α) : Evaluation α :=
  (do
    e.enter rule v
    e.leave (← body.run) : CallStep (Except Failure α))

/-- The loop of the innermost rule goes round. -/
def round (v : View) : CallStep Unit := do
  modify fun st => { st with
    opened := st.opened.modifyHead fun a => { a with views := v :: a.views } }
  e.note false

def deepen : CallStep Unit := do
  modify fun st => { st with depth := st.depth + 1 }
  e.note false

def surface (outcome : Except Failure α) : CallStep (Except Failure α) := do
  modify fun st => { st with depth := st.depth - 1 }
  e.note false
  return outcome

/-- One level deeper if that may be, and back again however it ends. -/
abbrev nested (body : Evaluation α) : Evaluation α := do
  if e.limit ≤ (← get).depth then throw (.tooDeep e.limit)
  else (do
    e.deepen
    e.surface (← body.run) : CallStep (Except Failure α))

end

section
variable {e : Evaluator} {d : Nat} {opened : List Activation} {tokens : List Token}
  {trace : List Event} {rule : Rule} {v : View} {a : Activation} {p : Evaluation α}

theorem perform_pure (a : α) : perform (pure a) = (pure a : Evaluation α) := by
  funext ⟨tokens, trace, d, opened⟩
  change some (Except.ok a, (⟨tokens ++ [], trace ++ [], d, opened⟩ : CallState)) = _
  rw [List.append_nil, List.append_nil]
  rfl

theorem perform_ofSlice (a : α) : perform (ofSlice (.ok a)) = (pure a : Evaluation α) :=
  perform_pure a

theorem enter_eq (h : e.allowed ⟨false, d, ⟨rule, d, [v]⟩ :: opened⟩ = true) :
    (e.enter rule v).run ⟨tokens, trace, d, opened⟩ =
      some ((), ⟨tokens, trace ++ [.entered rule v], d, ⟨rule, d, [v]⟩ :: opened⟩) := by
  simp [enter, note, h]

theorem leave_eq (h : e.allowed ⟨true, d, a :: opened⟩ = true) (outcome : Except Failure α) :
    (e.leave outcome).run ⟨tokens, trace, d, a :: opened⟩ =
      some (outcome, ⟨tokens, trace, d, opened⟩) := by
  simp [leave, note, h]

theorem round_eq (h : e.allowed ⟨false, d, { a with views := v :: a.views } :: opened⟩ = true) :
    (e.round v).run ⟨tokens, trace, d, a :: opened⟩ =
      some ((), ⟨tokens, trace, d, { a with views := v :: a.views } :: opened⟩) := by
  simp [round, note, h]

theorem deepen_eq (h : e.allowed ⟨false, d + 1, opened⟩ = true) :
    e.deepen.run ⟨tokens, trace, d, opened⟩ = some ((), ⟨tokens, trace, d + 1, opened⟩) := by
  simp [deepen, note, h]

theorem surface_eq (h : e.allowed ⟨false, d, opened⟩ = true) (outcome : Except Failure α) :
    (e.surface outcome).run ⟨tokens, trace, d + 1, opened⟩ =
      some (outcome, ⟨tokens, trace, d, opened⟩) := by
  simp [surface, note, h]

theorem during_eq (st : CallState) :
    (e.during rule v p).run.run st =
      (e.enter rule v >>= fun _ => p.run >>= e.leave).run st := rfl

theorem nested_eq :
    (e.nested p).run.run ⟨tokens, trace, d, opened⟩ =
      (if e.limit ≤ d then throw (.tooDeep e.limit)
        else (e.deepen >>= fun _ => p.run >>= e.surface : CallStep _) :
          Evaluation α).run.run ⟨tokens, trace, d, opened⟩ := rfl

end

mutual

def expression (e : Evaluator) (v : View) : Evaluation Unit :=
  e.during .expression v do
    let v ← e |>.term (← perform (trim v))
    let v ← e |>.sums v
    if v.isEmpty then pure () else throw .mismatch
partial_fixpoint

def sums (e : Evaluator) (v : View) : Evaluation View := do
  if ← perform (ofSlice (v.headIn .addOp)) then
    e.round v
    let v ← perform (trim (← perform (read .addOp 1 v)))
    if ← perform (ofSlice (v.beginsWith ['(', ')'])) then
      let _ ← perform (read .closeParen 1 (← perform (read .openParen 1 v)))
      throw .mismatch
    else
      let v ← e |>.term v
      e |>.sums v
  else
    return v
partial_fixpoint

def term (e : Evaluator) (v : View) : Evaluation View :=
  e.during .term v do
    let v ← e |>.factor v
    e |>.products (← perform (trim v))
partial_fixpoint

def products (e : Evaluator) (v : View) : Evaluation View := do
  if ← perform (ofSlice (v.headIn .mulOp)) then
    e.round v
    let v ← e |>.factor (← perform (trim (← perform (read .mulOp 1 v))))
    e |>.products (← perform (trim v))
  else
    return v
partial_fixpoint

def factor (e : Evaluator) (v : View) : Evaluation View :=
  e.during .factor v do
    match ← perform (ofSlice v.head?) with
    | none => throw .mismatch
    | some c =>
      if CharSet.digit.contains c then perform (Reading.number v)
      else if CharSet.nameStart.contains c then perform (Reading.name v)
      else if CharSet.openParen.contains c then e.nested (e |>.group v)
      else if CharSet.minus.contains c then e.nested (e |>.sign v)
      else throw .mismatch
partial_fixpoint

def group (e : Evaluator) (v : View) : Evaluation View := do
  let v ← perform (read .openParen 1 v)
  match Literal.closing? (← perform (ofSlice v.text)) with
  | none => throw .mismatch
  | some close =>
    e |>.expression (v.splitAt close).1
    perform (read .closeParen 1 (v.splitAt close).2)
partial_fixpoint

def sign (e : Evaluator) (v : View) : Evaluation View := do
  e |>.factor (← perform (trim (← perform (read .minus 1 v))))
partial_fixpoint

end

def recognize (e : Evaluator) (input : Text) : Option (Except Failure Unit × CallState) :=
  (perform (trim (View.whole input)) >>= e.expression).run.run ⟨[], [], 0, []⟩

end Evaluator

end ArithGrammar
