import ArithGrammar.Token

/-!
# Stacks of open groups and signs

The tokens alone show what is still open behind them. A group is open from its parenthesis up to the
one that closes it, and a sign until its operand ends, which may be many groups later. Both are kept on
one stack, the last opened first, and a closing parenthesis is allowed only where a group was opened
last. How high the stack gets on the way (`Opened.peak`) is the nesting of the tokens.

Tokens behind one another go on with the stack that those in front have left (`Opened.run_append`,
`Opened.peak_append`), and from these two equations come the rules for keeping below a limit.
-/
namespace ArithGrammar

/-- What one token opens and a later one ends. -/
inductive Opened where
  | group
  | sign
  deriving DecidableEq, Repr

namespace Opened
variable {st st' : List Opened} {ks ls : List TokenKind} {limit : Nat}

/-- What is left open where an operand ends: the signs in front of it end with it. -/
def endSigns : List Opened → List Opened
  | sign :: st => endSigns st
  | st => st

/-- What is open behind one more token, unless it closes a group where none was opened last. -/
def step (st : List Opened) : TokenKind → Option (List Opened)
  | .openParen => some (group :: st)
  | .minus => some (sign :: st)
  | .integer | .fraction | .identifier => some (endSigns st)
  | .closeParen =>
      match st with
      | group :: st => some (endSigns st)
      | _ => none
  | .addOp | .mulOp | .dot => some st

/-- What is open behind the tokens. -/
def run : List Opened → List TokenKind → Option (List Opened)
  | st, [] => some st
  | st, k :: ks => (step st k).bind fun st => run st ks

/-- The most that is open at once in front of the tokens, between them or behind them. -/
def peak : List Opened → List TokenKind → Nat
  | st, [] => st.length
  | st, k :: ks => max st.length ((step st k).elim 0 fun st => peak st ks)

theorem length_endSigns_le (st : List Opened) : (endSigns st).length ≤ st.length := by
  induction st with
  | nil => exact Nat.le_refl _
  | cons o st ih =>
      cases o with
      | group => exact Nat.le_refl _
      | sign => exact Nat.le_trans ih (Nat.le_succ _)

@[simp] theorem endSigns_endSigns (st : List Opened) : endSigns (endSigns st) = endSigns st := by
  induction st with
  | nil => rfl
  | cons o st ih =>
      cases o with
      | group => rfl
      | sign => exact ih

theorem step_fraction (st : List Opened) :
    step (endSigns st) .fraction = some (endSigns st) := congrArg some (endSigns_endSigns st)

theorem run_append (st : List Opened) (ks ls : List TokenKind) :
    run st (ks ++ ls) = (run st ks).bind fun st => run st ls := by
  induction ks generalizing st with
  | nil => rfl
  | cons k ks ih =>
      rw [List.cons_append, run, run]
      cases step st k with
      | none => rfl
      | some st => exact ih st

theorem length_le_peak (st : List Opened) (ks : List TokenKind) : st.length ≤ peak st ks := by
  cases ks with
  | nil => exact Nat.le_refl _
  | cons k ks => exact Nat.le_max_left _ _

theorem peak_append (h : run st ks = some st') (ls : List TokenKind) :
    peak st (ks ++ ls) = max (peak st ks) (peak st' ls) := by
  induction ks generalizing st with
  | nil =>
      obtain rfl : st = st' := Option.some.inj h
      exact (Nat.max_eq_right (length_le_peak st ls)).symm
  | cons k ks ih =>
      rw [List.cons_append, peak, peak]
      rw [run] at h
      cases hstep : step st k with
      | none =>
          rw [hstep] at h
          cases h
      | some top =>
          rw [hstep] at h
          rw [Option.elim_some, Option.elim_some, ih h, Nat.max_assoc]

theorem length_lt_peak {k : TokenKind} (h : run st ks = some st')
    (hk : k = .openParen ∨ k = .minus) (ls : List TokenKind) :
    st'.length < peak st (ks ++ k :: ls) := by
  have hopens : ∃ o, step st' k = some (o :: st') := by
    rcases hk with rfl | rfl
    · exact ⟨group, rfl⟩
    · exact ⟨sign, rfl⟩
  obtain ⟨o, ho⟩ := hopens
  have hle := length_le_peak (o :: st') ls
  rw [List.length_cons] at hle
  rw [peak_append h, peak, ho, Option.elim_some]
  omega

/-- Every token finds what it ends, and there is never more open than the limit. -/
structure Within (limit : Nat) (st : List Opened) (ks : List TokenKind) : Prop where
  exists_run : ∃ top, run st ks = some top
  peak_le : peak st ks ≤ limit

namespace Within

theorem nil (h : st.length ≤ limit) : Within limit st [] := ⟨⟨st, rfl⟩, h⟩

theorem single {k : TokenKind} (h : step st k = some st') (hle : st.length ≤ limit)
    (hle' : st'.length ≤ limit) : Within limit st [k] := by
  constructor
  · exact ⟨st', by rw [run, h]; rfl⟩
  · rw [peak, h]
    exact Nat.max_le.mpr ⟨hle, hle'⟩

theorem append (h : Within limit st ks) (hrun : run st ks = some st') (h' : Within limit st' ls) :
    Within limit st (ks ++ ls) := by
  obtain ⟨top, htop⟩ := h'.exists_run
  constructor
  · exact ⟨top, by rw [run_append, hrun, Option.bind_some, htop]⟩
  · rw [peak_append hrun]
    exact Nat.max_le.mpr ⟨h.peak_le, h'.peak_le⟩

theorem of_append (h : Within limit st (ks ++ ls)) :
    ∃ top, run st ks = some top ∧ top.length ≤ limit := by
  obtain ⟨⟨last, hlast⟩, hpeak⟩ := h
  rw [run_append] at hlast
  obtain ⟨top, htop, -⟩ := Option.bind_eq_some_iff.mp hlast
  rw [peak_append htop] at hpeak
  have hle := length_le_peak top ls
  exact ⟨top, htop, by omega⟩

theorem exists_run_le (h : Within limit st ks) :
    ∃ top, run st ks = some top ∧ top.length ≤ limit := by
  rw [← List.append_nil ks] at h
  exact h.of_append

end Within

end Opened

namespace Token

/-- What is open behind the tokens, the last opened first. -/
def openAfter (tokens : List Token) : Option (List Opened) := Opened.run [] (tokens.map kind)

/-- The most that the tokens have open at once. -/
def mostOpen (tokens : List Token) : Nat := Opened.peak [] (tokens.map kind)

end Token

end ArithGrammar
