import ArithGrammar.Attempt
import ArithGrammar.Proofs.Completion

/-!
# What a trace goes on with

Each entry of a trace decides what comes next. An expression enters a term and a term a factor, a
factor reads the first token of an operand, an operator, a sign or an opening parenthesis makes a
rule be entered, and behind a whole operand anything else is read. There is one exception: the
parentheses of an empty group behind an additive operator are read where a term is due, and nothing
comes behind them.

So each entry of a rule is paid for by the event in front of it, and the rules entered are counted
from the tokens read (`Due.Run.count_rules`).
-/
namespace ArithGrammar

namespace Event

def token? : Event → Option Token
  | entered _ _ => none
  | read t => some t

def rule? : Event → Option Rule
  | entered rule _ => some rule
  | read _ => none

def tokens (es : List Event) : List Token := es.filterMap token?

def rules (es : List Event) : List Rule := es.filterMap rule?

section
variable {es fs : List Event} {t : Token} {front behind : List Token}

@[simp] theorem tokens_nil : tokens [] = [] := rfl

@[simp] theorem tokens_entered (rule : Rule) (v : View) :
    tokens (.entered rule v :: es) = tokens es := rfl

@[simp] theorem tokens_read : tokens (.read t :: es) = t :: tokens es := rfl

@[simp] theorem tokens_append : tokens (es ++ fs) = tokens es ++ tokens fs :=
  List.filterMap_append

@[simp] theorem rules_nil : rules [] = [] := rfl

@[simp] theorem rules_entered (rule : Rule) (v : View) :
    rules (.entered rule v :: es) = rule :: rules es := rfl

@[simp] theorem rules_read : rules (.read t :: es) = rules es := rfl

@[simp] theorem rules_append : rules (es ++ fs) = rules es ++ rules fs := List.filterMap_append

theorem exists_of_tokens_eq (h : tokens es = front ++ t :: behind) :
    ∃ es₁ es₂, es = es₁ ++ .read t :: es₂ ∧ tokens es₁ = front ∧ tokens es₂ = behind := by
  obtain ⟨es₁, fs, rfl, hfront, hfs⟩ := List.filterMap_eq_append_iff.mp h
  obtain ⟨silent, e, es₂, rfl, hsilent, he, hbehind⟩ := List.filterMap_eq_cons_iff.mp hfs
  cases e with
  | entered rule v => cases he
  | read u =>
      obtain rfl : u = t := Option.some.inj he
      have hnone : tokens silent = [] := List.filterMap_eq_nil_iff.mpr hsilent
      refine ⟨es₁ ++ silent, es₂, by rw [List.append_assoc], ?_, hbehind⟩
      rw [tokens_append, hnone, List.append_nil]
      exact hfront

end

end Event

/-- What a trace goes on with: the entry of a rule, the first token of an operand, any token but
that, the second parenthesis of an empty group that is refused, or nothing. -/
inductive Due where
  | entry (rule : Rule)
  | operand
  | further
  | refusal
  | nothing
  deriving DecidableEq, Repr

namespace Due

/-- What is due inside a rule. -/
def afterEntry : Rule → Due
  | .expression => entry .term
  | .term => entry .factor
  | .factor => operand

/-- What is due behind a token. -/
def afterToken : TokenKind → Due
  | .addOp => entry .term
  | .mulOp | .minus => entry .factor
  | .openParen => entry .expression
  | .integer | .dot | .fraction | .identifier | .closeParen => further

/-- Whether an operand is still to come in front of anything else. -/
def awaitsOperand : Due → Bool
  | entry _ | operand => true
  | _ => false

/-- Whether an entry of the rule is still to come. An empty group takes the place of a term, and of
the expression in it, for good. -/
def owes (rule : Rule) : Due → Nat
  | entry rule' => if rule' = rule then 1 else 0
  | operand | further => 0
  | refusal | nothing => if rule = .factor then 0 else 1

section
variable (rule : Rule)

@[simp] theorem owes_entry (rule' : Rule) :
    (entry rule').owes rule = if rule' = rule then 1 else 0 := rfl

@[simp] theorem owes_operand : operand.owes rule = 0 := rfl

@[simp] theorem owes_further : further.owes rule = 0 := rfl

@[simp] theorem owes_refusal : refusal.owes rule = if rule = .factor then 0 else 1 := rfl

@[simp] theorem owes_nothing : nothing.owes rule = if rule = .factor then 0 else 1 := rfl

end

/-- What is due before an event and behind it. -/
inductive Step : Due → Event → Due → Prop
  | enter (rule : Rule) (v : View) : Step (entry rule) (.entered rule v) (afterEntry rule)
  | first {t : Token} : t.kind.startsOperand = true → Step operand (.read t) (afterToken t.kind)
  | more {t : Token} : t.kind.startsOperand = false → Step further (.read t) (afterToken t.kind)
  | opening {t : Token} : t.kind = .openParen → Step (entry .term) (.read t) refusal
  | closing {t : Token} : t.kind = .closeParen → Step refusal (.read t) nothing

/-- What is due before a trace and behind it. -/
inductive Run : Due → List Event → Due → Prop
  | nil (d : Due) : Run d [] d
  | cons {d d' d'' : Due} {e : Event} {es : List Event} :
      Step d e d' → Run d' es d'' → Run d (e :: es) d''

variable {d d' d'' : Due} {e : Event} {es fs : List Event}

theorem awaitsOperand_afterEntry (rule : Rule) : (afterEntry rule).awaitsOperand = true := by
  cases rule <;> rfl

/-- What a token makes due is neither the end of an empty group nor nothing. -/
theorem afterToken_ne (kind : TokenKind) :
    afterToken kind ≠ refusal ∧ afterToken kind ≠ nothing := by
  cases kind <;> decide

namespace Step

/-- Only an empty group that is refused leaves nothing to come. -/
theorem of_nothing (h : Step d e nothing) :
    d = refusal ∧ ∃ t, e = .read t ∧ t.kind = .closeParen := by
  generalize heq : nothing = d' at h
  cases h with
  | enter rule v => cases rule <;> cases heq
  | @first t _ | @more t _ => exact absurd heq.symm (afterToken_ne t.kind).2
  | opening ht => cases heq
  | @closing t ht => exact ⟨rfl, t, rfl, ht⟩

theorem of_refusal (h : Step d e refusal) : ∃ t, e = .read t ∧ t.kind = .openParen := by
  generalize heq : refusal = d' at h
  cases h with
  | enter rule v => cases rule <;> cases heq
  | @first t _ | @more t _ => exact absurd heq.symm (afterToken_ne t.kind).1
  | @opening t ht => exact ⟨t, rfl, ht⟩
  | closing ht => cases heq

/-- Behind an opening parenthesis an expression is entered, unless an empty group is refused. -/
theorem of_openParen {t : Token} (h : Step d (.read t) d') (ht : t.kind = .openParen) :
    d' = entry .expression ∨ d' = refusal := by
  cases h with
  | first _ =>
      rw [ht]
      exact .inl rfl
  | more hmore =>
      rw [ht] at hmore
      cases hmore
  | opening _ => exact .inr rfl
  | closing hclose =>
      rw [ht] at hclose
      cases hclose

/-- Where a rule is entered it is no longer due, and only an empty group leaves one out. -/
theorem count_rules (h : Step d e d') (rule : Rule) :
    (Event.rules [e]).count rule + d'.owes rule =
      (Event.rules [e]).countP (fun r => afterEntry r = entry rule) +
        (Event.tokens [e]).countP (fun t => afterToken t.kind = entry rule) + d.owes rule := by
  have hentry (rule' : Rule) :
      (afterEntry rule').owes rule = if afterEntry rule' = entry rule then 1 else 0 := by
    cases rule' <;> simp [afterEntry]
  have htoken (kind : TokenKind) :
      (afterToken kind).owes rule = if afterToken kind = entry rule then 1 else 0 := by
    cases kind <;> simp [afterToken]
  cases h with
  | enter rule' v => simp [List.count_cons, List.countP_cons, hentry, Nat.add_comm]
  | first ht | more ht => simp [List.countP_cons, htoken]
  | opening ht | closing ht => cases rule <;> simp [ht, afterToken]

end Step

namespace Run

theorem single (h : Step d e d') : Run d [e] d' := .cons h (.nil d')

theorem append (h : Run d es d') (k : Run d' fs d'') : Run d (es ++ fs) d'' := by
  induction h with
  | nil d => exact k
  | cons hstep _ ih => exact .cons hstep (ih k)

/-- A run is taken apart between any two events. -/
theorem of_append (h : Run d (es ++ fs) d'') : ∃ d', Run d es d' ∧ Run d' fs d'' := by
  induction es generalizing d with
  | nil => exact ⟨d, .nil d, h⟩
  | cons e es ih =>
      cases h with
      | cons hstep hrest =>
          obtain ⟨d', hes, hfs⟩ := ih hrest
          exact ⟨d', .cons hstep hes, hfs⟩

theorem eq_or_exists_last (h : Run d es d') :
    (es = [] ∧ d = d') ∨ ∃ front e d₁, es = front ++ [e] ∧ Run d front d₁ ∧ Step d₁ e d' := by
  rcases List.eq_nil_or_concat es with rfl | ⟨front, e, rfl⟩
  · cases h
    exact .inl ⟨rfl, rfl⟩
  · rw [List.concat_eq_append] at h ⊢
    obtain ⟨d₁, hfront, hlast⟩ := h.of_append
    cases hlast with
    | cons hstep hnil =>
        cases hnil
        exact .inr ⟨front, e, d₁, rfl, hfront, hstep⟩

/-- The first token read where an operand is due is one that an operand may begin with. -/
theorem startsOperand (h : Run d es d') (hd : d.awaitsOperand = true) :
    ∀ t ∈ (Event.tokens es).head?, t.kind.startsOperand = true := by
  induction h with
  | nil d => exact nofun
  | cons hstep _ ih =>
      cases hstep with
      | enter rule v => exact ih (awaitsOperand_afterEntry rule)
      | @first t ht =>
          intro u hu
          obtain rfl : t = u := Option.some.inj hu
          exact ht
      | more ht => cases hd
      | @opening t ht =>
          intro u hu
          obtain rfl : t = u := Option.some.inj hu
          rw [ht]
          rfl
      | closing ht => cases hd

/-- Nothing is left to come just behind an empty group. -/
theorem endsInEmptyGroup_iff (h : Run (entry rule) es d) (hd : d ≠ refusal) :
    Token.EndsInEmptyGroup (Event.tokens es) ↔ d = nothing := by
  constructor
  · rintro ⟨kept, x, y, htokens, hx, hy⟩
    obtain ⟨es₁, es₂, rfl, -, hbehind⟩ := Event.exists_of_tokens_eq htokens
    obtain ⟨d₁, -, hrest⟩ := h.of_append
    cases hrest with
    | cons hstep hes₂ =>
        rcases hstep.of_openParen hx with rfl | rfl
        · have hy' := hes₂.startsOperand rfl y (by rw [hbehind]; rfl)
          rw [hy] at hy'
          cases hy'
        · cases hes₂ with
          | nil => exact absurd rfl hd
          | cons hclose hend =>
              cases hclose
              cases hend with
              | nil => rfl
              | cons hstep _ => cases hstep
  · rintro rfl
    obtain ⟨-, heq⟩ | ⟨front, e, d₁, rfl, hfront, hlast⟩ := h.eq_or_exists_last
    · cases heq
    · obtain ⟨rfl, y, rfl, hy⟩ := hlast.of_nothing
      obtain ⟨-, heq⟩ | ⟨front, e, d₁, rfl, -, hopen⟩ := hfront.eq_or_exists_last
      · cases heq
      · obtain ⟨x, rfl, hx⟩ := hopen.of_refusal
        exact ⟨Event.tokens front, x, y, by simp, hx, hy⟩

/-- Each entry of a rule is one that another rule or a token has made due. -/
theorem count_rules (h : Run d es d') (rule : Rule) :
    (Event.rules es).count rule + d'.owes rule =
      (Event.rules es).countP (fun r => afterEntry r = entry rule) +
        (Event.tokens es).countP (fun t => afterToken t.kind = entry rule) + d.owes rule := by
  induction h with
  | nil d => rfl
  | @cons _ _ _ e es hstep _ ih =>
      have hcount := hstep.count_rules rule
      rw [← List.singleton_append, Event.rules_append, Event.tokens_append, List.count_append,
        List.countP_append, List.countP_append]
      omega

end Run

/-! Which rules and which tokens make a rule due. -/

section
variable (rules : List Rule) (ts : List Token)

theorem countP_entry_expression : rules.countP (fun r => afterEntry r = entry .expression) = 0 := by
  refine List.countP_eq_zero.mpr fun r _ => ?_
  cases r <;> decide

theorem countP_entry_term :
    rules.countP (fun r => afterEntry r = entry .term) = rules.count .expression := by
  refine List.countP_congr fun r _ => ?_
  cases r <;> decide

theorem countP_entry_factor :
    rules.countP (fun r => afterEntry r = entry .factor) = rules.count .term := by
  refine List.countP_congr fun r _ => ?_
  cases r <;> decide

theorem countP_token_expression :
    ts.countP (fun t => afterToken t.kind = entry .expression) =
      ts.countP (·.kind = .openParen) := by
  refine List.countP_congr fun t _ => ?_
  cases t.kind <;> decide

theorem countP_token_term :
    ts.countP (fun t => afterToken t.kind = entry .term) = ts.countP (·.kind = .addOp) := by
  refine List.countP_congr fun t _ => ?_
  cases t.kind <;> decide

theorem countP_token_factor :
    ts.countP (fun t => afterToken t.kind = entry .factor) =
      ts.countP (·.kind = .mulOp) + ts.countP (·.kind = .minus) := by
  induction ts with
  | nil => rfl
  | cons t ts ih =>
      rw [List.countP_cons, List.countP_cons, List.countP_cons, ih]
      cases t.kind <;> simp [afterToken] <;> omega

end

end Due

end ArithGrammar
