import ArithGrammar.View

/-!
# Attempts at reading a text

An attempt reads tokens one after the other until it succeeds with a value or fails for a
reason. What it has read so far is kept in either case, and so is its trace: which rule of the
grammar it entered on which view, and each token at the moment it was read. Two attempts in
sequence put their tokens and traces one behind the other, and the second is made only if the
first succeeds.
-/
namespace ArithGrammar

inductive Rule where
  | expression
  | term
  | factor
  deriving DecidableEq, Repr

def Rule.label : Rule → Text
  | expression => "expression".toList
  | term => "term".toList
  | factor => "factor".toList

inductive Event where
  | entered (rule : Rule) (view : View)
  | read (token : Token)
  deriving DecidableEq, Repr

/-- Why an attempt fails. -/
inductive Failure where
  | mismatch
  | tooDeep (limit : Nat)
  | badSlice (error : Text.SliceError)
  deriving DecidableEq, Repr

structure Attempt (α : Type) where
  tokens : List Token
  trace : List Event
  outcome : Except Failure α

namespace Attempt
variable {α β γ : Type}

def succeed (a : α) : Attempt α := ⟨[], [], .ok a⟩

def fail (failure : Failure) : Attempt α := ⟨[], [], .error failure⟩

def andThen (x : Attempt α) (f : α → Attempt β) : Attempt β :=
  match x.outcome with
  | .error failure => ⟨x.tokens, x.trace, .error failure⟩
  | .ok a =>
      let y := f a
      ⟨x.tokens ++ y.tokens, x.trace ++ y.trace, y.outcome⟩

instance : Monad Attempt where
  pure := succeed
  bind := andThen

@[simp] theorem pure_eq (a : α) : (pure a : Attempt α) = ⟨[], [], .ok a⟩ := rfl

@[simp] theorem fail_eq (failure : Failure) : (fail failure : Attempt α) = ⟨[], [], .error failure⟩ :=
  rfl

@[simp] theorem ok_bind (tokens : List Token) (trace : List Event) (a : α) (f : α → Attempt β) :
    (⟨tokens, trace, .ok a⟩ : Attempt α) >>= f =
      ⟨tokens ++ (f a).tokens, trace ++ (f a).trace, (f a).outcome⟩ := rfl

@[simp] theorem error_bind (tokens : List Token) (trace : List Event) (failure : Failure)
    (f : α → Attempt β) :
    (⟨tokens, trace, .error failure⟩ : Attempt α) >>= f = ⟨tokens, trace, .error failure⟩ := rfl

theorem bind_assoc (x : Attempt α) (f : α → Attempt β) (g : β → Attempt γ) :
    x >>= f >>= g = x >>= fun a => f a >>= g := by
  obtain ⟨tokens, trace, failure | a⟩ := x
  · rfl
  · rw [ok_bind, ok_bind]
    obtain ⟨tokens', trace', failure | b⟩ := f a <;> simp

instance : LawfulMonad Attempt := LawfulMonad.mk' Attempt
  (by rintro α ⟨tokens, trace, failure | a⟩ <;> simp [Functor.map, andThen, succeed])
  (by intro α β x f; simp)
  (fun x f g => bind_assoc x f g)

/-- Notes that a rule is entered on a view. -/
def enter (rule : Rule) (v : View) : Attempt Unit := ⟨[], [.entered rule v], .ok ()⟩

/-- Keeps a token and notes that it was read. -/
def keep (t : Token) : Attempt Unit := ⟨[t], [.read t], .ok ()⟩

/-- Goes on with the piece of a text, or fails because there is none. -/
def ofSlice (x : Except Text.SliceError α) : Attempt α := ⟨[], [], x.mapError .badSlice⟩

/-- Reads the view's first `len` bytes as one token and goes on behind it. -/
def read (kind : TokenKind) (len : Nat) (v : View) : Attempt View := do
  let (token, rest) ← ofSlice (v.take len kind)
  keep token
  return rest

def trim (v : View) : Attempt View := ofSlice v.trim

end Attempt

end ArithGrammar
