import ArithGrammar.Proofs.AlignedView

/-!
# Attempts step by step

What an attempt comes to, its trace apart, is followed from the front: `x.Reads ts y` says that
`x` reads the tokens `ts` and then goes on as `y`. Steps are put behind one another, and a step of
the first part of a sequence is one of the sequence. On a view whose text is known no step of a
view fails, and each is given here by what it reads and by the view it leaves.
-/
namespace ArithGrammar.Attempt
open Text (byteLength)
variable {α β : Type}

/-- Its trace apart, the attempt `x` reads the tokens and then goes on as `y`. -/
structure Reads (x : Attempt α) (ts : List Token) (y : Attempt α) : Prop where
  tokens : x.tokens = ts ++ y.tokens
  outcome : x.outcome = y.outcome

namespace Reads
variable {x y z : Attempt α} {ts us : List Token} {f : α → Attempt β} {a : α}

theorem refl (x : Attempt α) : x.Reads [] x := ⟨rfl, rfl⟩

theorem trans (h : x.Reads ts y) (k : y.Reads us z) : x.Reads (ts ++ us) z :=
  ⟨by rw [h.tokens, k.tokens, List.append_assoc], h.outcome.trans k.outcome⟩

theorem tail (h : x.Reads ts y) (k : y.Reads [] z) : x.Reads ts z := by
  have hz := h.trans k
  rwa [List.append_nil] at hz

theorem bind (h : x.Reads ts y) (f : α → Attempt β) : (x >>= f).Reads ts (y >>= f) := by
  obtain ⟨xs, trace, outcome⟩ := x
  obtain ⟨ys, trace', outcome'⟩ := y
  obtain ⟨htokens, houtcome⟩ := h
  dsimp only at htokens houtcome
  subst htokens houtcome
  cases outcome with
  | error failure => exact ⟨rfl, rfl⟩
  | ok a => exact ⟨List.append_assoc _ _ _, rfl⟩

theorem bind_pure (h : x.Reads ts (pure a)) : (x >>= f).Reads ts (f a) := by
  have hf := h.bind f
  rwa [pure_bind] at hf

theorem bind_eq {z : Attempt β} (h : x.Reads ts (pure a)) (hz : f a = z) :
    (x >>= f).Reads ts z := by
  rw [← hz]
  exact h.bind_pure

theorem andThen {z : Attempt β} (h : x.Reads ts (pure a)) (k : (f a).Reads us z) :
    (x >>= f).Reads (ts ++ us) z :=
  h.bind_pure.trans k

end Reads

section
variable {x : Attempt α} {a : α} {failure : Failure}

theorem bind_of_ok (h : x.outcome = .ok a) (f : α → Attempt β) :
    (x >>= f).Reads x.tokens (f a) := by
  obtain ⟨tokens, trace, outcome⟩ := x
  obtain rfl : outcome = .ok a := h
  exact ⟨rfl, rfl⟩

theorem bind_of_error (h : x.outcome = .error failure) (f : α → Attempt β) :
    (x >>= f).tokens = x.tokens ∧ (x >>= f).outcome = .error failure := by
  obtain ⟨tokens, trace, outcome⟩ := x
  obtain rfl : outcome = .error failure := h
  exact ⟨rfl, rfl⟩

theorem trace_bind_of_ok (h : x.outcome = .ok a) (f : α → Attempt β) :
    (x >>= f).trace = x.trace ++ (f a).trace := by
  obtain ⟨tokens, trace, outcome⟩ := x
  obtain rfl : outcome = .ok a := h
  rfl

theorem trace_bind_of_error (h : x.outcome = .error failure) (f : α → Attempt β) :
    (x >>= f).trace = x.trace := by
  obtain ⟨tokens, trace, outcome⟩ := x
  obtain rfl : outcome = .error failure := h
  rfl

theorem bind_congr_of_ok {f g : α → Attempt β} (h : ∀ a, x.outcome = .ok a → f a = g a) :
    x >>= f = x >>= g := by
  obtain ⟨tokens, trace, failure | a⟩ := x
  · rfl
  · rw [ok_bind, ok_bind, h a rfl]

end

theorem ofSlice_ok_bind (a : α) (f : α → Attempt β) : ofSlice (.ok a) >>= f = f a :=
  pure_bind a f

theorem reads_enter (rule : Rule) (v : View) : (enter rule v).Reads [] (pure ()) := ⟨rfl, rfl⟩

section
variable {v : View} {s t r : Text}

theorem read_eq (h : v.text = .ok (t ++ r)) (kind : TokenKind) :
    read kind (byteLength t) v = ⟨[Token.placed v.start kind t],
      [.read (Token.placed v.start kind t)], .ok (v.back r)⟩ := by
  rw [read, View.take_eq h, ofSlice_ok_bind]
  rfl

theorem reads_read (h : v.text = .ok (t ++ r)) (kind : TokenKind) :
    (read kind (byteLength t) v).Reads [Token.placed v.start kind t] (pure (v.back r)) := by
  rw [read_eq h]
  exact ⟨rfl, rfl⟩

theorem trim_eq_pure (h : v.text = .ok s) : trim v = pure v.trimmed := by
  rw [trim, View.trim_eq h]
  rfl

end

end ArithGrammar.Attempt
