import ArithGrammar.Arguments

/-!
# Which arguments are expressions

An argument with a hyphen and something behind it is an option, and one behind `--max-depth` is the
value of that option. All the others are expressions, and so is everything behind the end of the
options, whatever it looks like. An argument list that is taken is taken for these expressions
(`Settled.expressions_read`); a list that asks for something else, or does not fit, is not read to
its end.
-/
namespace ArithGrammar

namespace Argument

def endOfOptions : Text := ['-', '-']

/-- The option whose value is the next argument. -/
def depthName : Text := "--max-depth".toList

def isOption : Text → Bool
  | '-' :: _ :: _ => true
  | _ => false

/-- The arguments that are neither options nor values of options. Where a value is awaited, the
first argument is one. -/
def expressionsFrom : Bool → List Text → List Text
  | _, [] => []
  | awaited, argument :: rest =>
      if argument = endOfOptions then rest
      else if isOption argument then expressionsFrom (decide (argument = depthName)) rest
      else if awaited then expressionsFrom false rest
      else argument :: expressionsFrom false rest

def expressions (arguments : List Text) : List Text := expressionsFrom false arguments

/-- Behind the end of the options everything is an expression. -/
theorem expressionsFrom_append {front : List Text} (h : endOfOptions ∉ front) (awaited : Bool)
    (rest : List Text) : expressionsFrom awaited (front ++ endOfOptions :: rest) =
      expressionsFrom awaited front ++ rest := by
  induction front generalizing awaited with
  | nil => exact if_pos rfl
  | cons argument front ih =>
      rw [List.mem_cons, not_or] at h
      have hne : argument ≠ endOfOptions := Ne.symm h.1
      rw [List.cons_append, expressionsFrom, expressionsFrom, if_neg hne, if_neg hne]
      cases isOption argument with
      | true => exact ih h.2 _
      | false =>
          cases awaited with
          | true => exact ih h.2 false
          | false => exact congrArg (argument :: ·) (ih h.2 false)

/-- An argument is an option unless it is a hyphen or has none at its front. -/
theorem isOption_eq_false_iff {argument : Text} :
    isOption argument = false ↔ (argument.head? = some '-' → argument = ['-']) := by
  constructor
  · intro h hhyphen
    match argument with
    | [] => cases hhyphen
    | [c] =>
        rw [List.head?_cons, Option.some.injEq] at hhyphen
        rw [hhyphen]
    | c :: d :: cs =>
        rw [List.head?_cons, Option.some.injEq] at hhyphen
        subst hhyphen
        cases h
  · intro h
    match argument with
    | [] => rfl
    | [c] =>
        rw [isOption]
        rintro d cs hd
        cases hd
    | c :: d :: cs =>
        rw [isOption]
        rintro d' cs' hd
        cases hd
        cases h rfl

end Argument

theorem Switch.longName_inj {switch switch' : Switch} :
    switch.longName = switch'.longName ↔ switch = switch' := by
  constructor
  · intro h
    have hname := ofLongName?_longName switch
    rw [h, ofLongName?_longName, Option.some.injEq] at hname
    exact hname.symm
  · rintro rfl
    rfl

theorem exists_ok_of_bind {ε α β : Type} {x : Except ε α} {f : α → Except ε β} {b : β}
    (h : x.bind f = .ok b) : ∃ a, x = .ok a ∧ f a = .ok b := by
  cases x with
  | error e => cases h
  | ok a => exact ⟨a, rfl, h⟩

namespace Settled
open Argument
variable {s t : Settled} {argument value name : Text}

/-- What an option leaves: the expressions as they were, and an awaited value if it takes one. A
request is granted only for a text about the command. -/
inductive Leaves (s : Settled) (awaiting : Prop) : Settled ⊕ Request → Prop
  | settled {t : Settled} (hkeep : t.expressions = s.expressions)
      (hpending : t.pending = .awaited ↔ awaiting) : Leaves s awaiting (.inl t)
  | help : Leaves s awaiting (.inr .help)
  | version : Leaves s awaiting (.inr .version)

theorem Leaves.of_eq {awaiting : Prop} {answer : Settled ⊕ Request}
    (h : Leaves t awaiting answer) (hkeep : t.expressions = s.expressions) :
    Leaves s awaiting answer := by
  cases h with
  | settled hkeep' hpending => exact .settled (hkeep'.trans hkeep) hpending
  | help => exact .help
  | version => exact .version

theorem takeDepth_ok (h : s.takeDepth value = .ok t) :
    t.expressions = s.expressions ∧ t.pending = .nothing := by
  unfold takeDepth at h
  split at h
  · cases h
  · cases h
  · cases h
    exact ⟨rfl, rfl⟩

theorem settle_ok (h : s.settle = .ok t) :
    t.expressions = s.expressions ∧ t.pending = .nothing ∧ s.pending ≠ .awaited := by
  unfold settle at h
  cases hpending : s.pending with
  | nothing =>
      rw [hpending] at h
      cases h
      exact ⟨rfl, hpending, nofun⟩
  | awaited =>
      rw [hpending] at h
      cases h
  | given value =>
      rw [hpending] at h
      obtain ⟨hkeep, hnothing⟩ := takeDepth_ok h
      exact ⟨hkeep, hnothing, nofun⟩

/-- An argument that is no option is the value that is awaited, or an expression. -/
theorem takePlain_ok (h : s.takePlain argument = .ok t) : t.pending ≠ .awaited ∧
    t.expressions = s.expressions ++ if s.pending = .awaited then [] else [argument] := by
  unfold takePlain at h
  split at h
  · cases h
    rw [if_pos (by assumption), List.append_nil]
    exact ⟨nofun, rfl⟩
  · obtain ⟨u, hs, h⟩ := exists_ok_of_bind h
    cases h
    obtain ⟨hkeep, hnothing, hnot⟩ := settle_ok hs
    rw [if_neg hnot, ← hkeep]
    refine ⟨fun hawaited => ?_, rfl⟩
    cases hnothing.symm.trans hawaited

theorem takeSwitch_leaves {switch : Switch} {answer : Settled ⊕ Request}
    (hpending : s.pending = .nothing) (h : s.takeSwitch switch = .ok answer) :
    Leaves s (switch = .maxDepth) answer := by
  cases switch with
  | tokens =>
      rw [takeSwitch] at h
      split at h
      · cases h
      · cases h
        exact .settled rfl (by simp [hpending])
  | maxDepth =>
      cases h
      exact .settled rfl (by simp)
  | noHistory =>
      rw [takeSwitch] at h
      split at h
      · cases h
      · cases h
        exact .settled rfl (by simp [hpending])
  | help =>
      cases h
      exact .help
  | version =>
      cases h
      exact .version

theorem takeLetters_cons {c : Char} {switch : Switch} (h : Switch.ofLetter? c = some switch)
    (cs : Text) : s.takeLetters (c :: cs) = s.settle.bind fun t =>
      (t.takeSwitch switch).bind (Sum.elim (·.takeLetters cs) fun r => .ok (.inr r)) := by
  rw [takeLetters, h]
  cases s.settle with
  | error e => rfl
  | ok t =>
      dsimp only [Except.bind]
      cases t.takeSwitch switch with
      | error e => rfl
      | ok answer => cases answer <;> rfl

theorem takeLetters_leaves {letters : Text} {answer : Settled ⊕ Request}
    (hpending : s.pending ≠ .awaited ∨ letters ≠ []) (h : s.takeLetters letters = .ok answer) :
    Leaves s False answer := by
  induction letters generalizing s with
  | nil =>
      cases h
      exact .settled rfl (iff_false_intro (hpending.resolve_right (absurd rfl)))
  | cons c cs ih =>
      cases hswitch : Switch.ofLetter? c with
      | none =>
          rw [takeLetters, hswitch] at h
          cases h
      | some switch =>
          have hshort : switch ≠ .maxDepth := by
            rintro rfl
            have hletter := List.find?_some hswitch
            rw [decide_eq_true_iff] at hletter
            cases hletter
          rw [takeLetters_cons hswitch] at h
          obtain ⟨u, hs, h⟩ := exists_ok_of_bind h
          obtain ⟨hkeep, hnothing, -⟩ := settle_ok hs
          obtain ⟨answer', hanswer, h⟩ := exists_ok_of_bind h
          cases takeSwitch_leaves hnothing hanswer with
          | settled hkeep' hawaited =>
              refine (ih (.inl fun hpend => ?_) h).of_eq (hkeep'.trans hkeep)
              exact hshort (hawaited.mp hpend)
          | help =>
              cases h
              exact .help
          | version =>
              cases h
              exact .version

/-- A long name takes the next argument as its value if it names the depth and no value comes with
it. -/
theorem takeLong_leaves {value? : Option Text} {answer : Settled ⊕ Request}
    (h : s.takeLong name value? = .ok answer) :
    Leaves s (name = Switch.maxDepth.longName ∧ value? = none) answer := by
  unfold takeLong at h
  split at h
  · cases h
  next value _ =>
    obtain ⟨u, hs, h⟩ := exists_ok_of_bind h
    obtain ⟨w, hdepth, h⟩ := exists_ok_of_bind h
    cases h
    obtain ⟨hkeep, hnothing⟩ := takeDepth_ok hdepth
    refine .settled (hkeep.trans (settle_ok hs).1) ?_
    simp [hnothing]
  · cases h
  next switch hswitch =>
    obtain ⟨u, hs, h⟩ := exists_ok_of_bind h
    obtain ⟨hkeep, hnothing, -⟩ := settle_ok hs
    have hname := List.find?_some hswitch
    rw [decide_eq_true_iff] at hname
    have hdepth : (switch = .maxDepth) =
        (name = Switch.maxDepth.longName ∧ (none : Option Text) = none) := by
      rw [← hname, Switch.longName_inj]
      simp
    rw [← hdepth]
    exact (takeSwitch_leaves hnothing h).of_eq hkeep

/-- An option awaits a value if it is `--max-depth` alone. -/
theorem takeArgument_leaves {answer : Settled ⊕ Request} (hoption : isOption argument = true)
    (h : s.takeArgument argument = .ok answer) : Leaves s (argument = depthName) answer := by
  have hdepth : depthName = '-' :: '-' :: Switch.maxDepth.longName := rfl
  unfold takeArgument at h
  split at h
  next cs =>
    split at h
    · have heq : ('-' :: '-' :: cs = depthName) =
          (cs = Switch.maxDepth.longName ∧ (none : Option Text) = none) := by
        simp [hdepth]
      rw [heq]
      exact takeLong_leaves h
    next c value hvalue =>
      have heq : ('-' :: '-' :: cs = depthName) =
          (cs.takeWhile (· ≠ '=') = Switch.maxDepth.longName ∧ some value = none) := by
        have hne : cs ≠ Switch.maxDepth.longName := by
          rintro rfl
          cases hvalue
        simp [hdepth, hne]
      rw [heq]
      exact takeLong_leaves h
  next c cs hne =>
    have heq : ('-' :: c :: cs = depthName) = False := by
      rw [hdepth]
      refine eq_false fun heq => ?_
      rw [List.cons_eq_cons, List.cons_eq_cons] at heq
      exact hne heq.2.1
    rw [heq]
    exact takeLetters_leaves (.inr (List.cons_ne_nil c cs)) h
  next hne =>
    rw [isOption] at hoption
    · cases hoption
    · exact hne

theorem takeArgument_of_plain (h : isOption argument = false) :
    s.takeArgument argument = (s.takePlain argument).map .inl := by
  unfold takeArgument
  split
  · cases h
  · cases h
  · rfl

theorem expressions_takeRest {rest : List Text} (h : s.takeRest rest = .ok t) :
    t.expressions = s.expressions ++ rest := by
  induction rest generalizing s with
  | nil =>
      cases h
      exact (List.append_nil _).symm
  | cons argument rest ih =>
      obtain ⟨u, hs, h⟩ := exists_ok_of_bind h
      rw [ih h, (settle_ok hs).1, List.append_assoc]
      rfl

theorem expressions_finish {options : Options} (h : s.finish = .ok (.check options)) :
    options.expressions = s.expressions := by
  obtain ⟨u, hs, h⟩ := exists_ok_of_bind h
  cases h
  exact (settle_ok hs).1

theorem read_end (s : Settled) (rest : List Text) :
    s.read (endOfOptions :: rest) = (s.takeRest rest).bind finish := if_pos rfl

theorem read_cons (hend : argument ≠ endOfOptions) (rest : List Text) :
    s.read (argument :: rest) = (s.takeArgument argument).bind (Sum.elim (·.read rest) .ok) := by
  refine (if_neg hend).trans ?_
  cases s.takeArgument argument with
  | error e => rfl
  | ok answer => cases answer <;> rfl

/-- The arguments that are still to be read add their expressions to those that are there. -/
theorem expressions_read {arguments : List Text} {options : Options}
    (h : s.read arguments = .ok (.check options)) : options.expressions =
      s.expressions ++ expressionsFrom (decide (s.pending = .awaited)) arguments := by
  -- for any state, since an option may leave a value awaited
  induction arguments generalizing s with
  | nil =>
      rw [expressionsFrom, List.append_nil]
      exact expressions_finish h
  | cons argument rest ih =>
      rw [expressionsFrom]
      by_cases hend : argument = endOfOptions
      · rw [hend, read_end] at h
        rw [if_pos hend]
        obtain ⟨t, hrest, h⟩ := exists_ok_of_bind h
        rw [expressions_finish h, expressions_takeRest hrest]
      · rw [read_cons hend] at h
        rw [if_neg hend]
        obtain ⟨answer, hanswer, h⟩ := exists_ok_of_bind h
        cases hoption : isOption argument with
        | true =>
            cases takeArgument_leaves hoption hanswer with
            | settled hkeep hpending =>
                rw [ih h, hkeep, decide_eq_decide.mpr hpending]
                rfl
            | help => cases h
            | version => cases h
        | false =>
            rw [takeArgument_of_plain hoption] at hanswer
            obtain ⟨t, ht, hanswer⟩ := exists_ok_of_bind hanswer
            cases hanswer
            obtain ⟨hpending, hexpressions⟩ := takePlain_ok ht
            rw [ih h, hexpressions, decide_eq_false hpending]
            by_cases hawaited : s.pending = .awaited
            · simp [hawaited]
            · simp [hawaited]

end Settled

/-- The expressions that are checked are those among the arguments, in order. -/
theorem Request.expressions_ofArguments {arguments : List Text} {options : Options}
    (h : ofArguments arguments = .ok (.check options)) :
    options.expressions = Argument.expressions arguments :=
  Settled.expressions_read h

end ArithGrammar
