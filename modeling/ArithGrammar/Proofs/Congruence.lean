import ArithGrammar.Proofs.ReadingSteps

/-!
# Readings in step

Two ways of reading factors, tried on the same views, go on in step as long as they agree. A
congruence is a relation between attempts that survives this: it holds between an attempt and
itself, if that does not fail for want of room, and it goes through a sequence. Then it goes
through every rule as well, from the readers of factors to the terms and expressions that are read
with them (`Congruence.term`, `Congruence.expression`), and on to the groups and signs around those.
-/
namespace ArithGrammar

namespace Attempt
variable {α β : Type} {x : Attempt α} {f : α → Attempt β} {a : α} {failure : Failure}

/-- The attempt fails for want of room. -/
def TooDeep (x : Attempt α) : Prop := ∃ limit, x.outcome = .error (.tooDeep limit)

theorem TooDeep.bind (h : x.TooDeep) (f : α → Attempt β) : (x >>= f).TooDeep := by
  obtain ⟨limit, hx⟩ := h
  exact ⟨limit, (bind_of_error hx f).2⟩

theorem not_tooDeep_pure (a : α) : ¬ (pure a : Attempt α).TooDeep := by
  rintro ⟨limit, h⟩
  cases h

theorem not_tooDeep_mismatch : ¬ (fail .mismatch : Attempt α).TooDeep := by
  rintro ⟨limit, h⟩
  cases h

theorem not_tooDeep_enter (rule : Rule) (v : View) : ¬ (enter rule v).TooDeep := by
  rintro ⟨limit, h⟩
  cases h

theorem not_tooDeep_ofSlice (s : Except Text.SliceError α) : ¬ (ofSlice s).TooDeep := by
  rintro ⟨limit, h⟩
  cases s <;> cases h

theorem not_tooDeep_bind (hx : ¬ x.TooDeep) (hf : ∀ a, ¬ (f a).TooDeep) :
    ¬ (x >>= f).TooDeep := by
  rintro ⟨limit, h⟩
  cases hout : x.outcome with
  | ok a =>
      rw [(bind_of_ok hout f).2] at h
      exact hf a ⟨limit, h⟩
  | error failure =>
      rw [(bind_of_error hout f).2] at h
      obtain rfl : failure = .tooDeep limit := Except.error.inj h
      exact hx ⟨limit, hout⟩

theorem not_tooDeep_read (kind : TokenKind) (len : Nat) (v : View) :
    ¬ (read kind len v).TooDeep := by
  refine not_tooDeep_bind (not_tooDeep_ofSlice _) fun p => ?_
  rintro ⟨limit, h⟩
  cases h

theorem not_tooDeep_trim (v : View) : ¬ (trim v).TooDeep := not_tooDeep_ofSlice _

end Attempt

namespace Reading
open Attempt

theorem not_tooDeep_number (v : View) : ¬ (number v).TooDeep := by
  refine not_tooDeep_bind (not_tooDeep_ofSlice _) fun rest => ?_
  split
  · exact not_tooDeep_bind (not_tooDeep_read _ _ _) fun v =>
      not_tooDeep_bind (not_tooDeep_read _ _ _) fun v => not_tooDeep_read _ _ _
  · exact not_tooDeep_read _ _ _
  · exact not_tooDeep_mismatch

theorem not_tooDeep_name (v : View) : ¬ (name v).TooDeep := by
  refine not_tooDeep_bind (not_tooDeep_ofSlice _) fun rest => ?_
  split
  · exact not_tooDeep_read _ _ _
  · exact not_tooDeep_mismatch

end Reading

open Attempt Reading

/-- The relation holds where nothing differs, want of room apart, and goes through sequences. -/
structure Congruence (R : (α : Type) → Attempt α → Attempt α → Prop) : Prop where
  refl {α : Type} {x : Attempt α} : ¬ x.TooDeep → R α x x
  bind {α β : Type} {x y : Attempt α} {f g : α → Attempt β} :
    R α x y → (∀ a, x.outcome = .ok a → R β (f a) (g a)) → R β (x >>= f) (y >>= g)

namespace Congruence
variable {R : (α : Type) → Attempt α → Attempt α → Prop} {f g : View → Attempt View}

theorem same_bind {α β : Type} {x : Attempt α} {f g : α → Attempt β} (hR : Congruence R)
    (hx : ¬ x.TooDeep) (h : ∀ a, x.outcome = .ok a → R β (f a) (g a)) :
    R β (x >>= f) (x >>= g) :=
  hR.bind (hR.refl hx) h

theorem products (hR : Congruence R) (h : ∀ v, R View (f v) (g v)) (n : Nat) (v : View) :
    R View (Reading.products f n v) (Reading.products g n v) := by
  induction n generalizing v with
  | zero => exact hR.refl (not_tooDeep_pure v)
  | succ n ih =>
      rw [Reading.products, Reading.products]
      refine hR.same_bind (not_tooDeep_ofSlice _) fun ahead _ => ?_
      split_ifs
      · refine hR.same_bind (not_tooDeep_read _ _ _) fun v _ => ?_
        refine hR.same_bind (not_tooDeep_trim v) fun v _ => ?_
        refine hR.bind (h v) fun v _ => ?_
        exact hR.same_bind (not_tooDeep_trim v) fun v _ => ih v
      · exact hR.refl (not_tooDeep_pure v)

theorem term (hR : Congruence R) (h : ∀ v, R View (f v) (g v)) (v : View) :
    R View (Reading.term f v) (Reading.term g v) := by
  refine hR.same_bind (not_tooDeep_enter _ _) fun _ _ => ?_
  refine hR.bind (h v) fun v _ => ?_
  exact hR.same_bind (not_tooDeep_trim v) fun v _ => hR.products h v.length v

theorem sums (hR : Congruence R) (h : ∀ v, R View (f v) (g v)) (n : Nat) (v : View) :
    R View (Reading.sums f n v) (Reading.sums g n v) := by
  induction n generalizing v with
  | zero => exact hR.refl (not_tooDeep_pure v)
  | succ n ih =>
      rw [Reading.sums, Reading.sums]
      refine hR.same_bind (not_tooDeep_ofSlice _) fun ahead _ => ?_
      split_ifs
      · refine hR.same_bind (not_tooDeep_read _ _ _) fun v _ => ?_
        refine hR.same_bind (not_tooDeep_trim v) fun v _ => ?_
        refine hR.same_bind (not_tooDeep_ofSlice _) fun empty _ => ?_
        split_ifs
        · refine hR.refl (not_tooDeep_bind (not_tooDeep_read _ _ _) fun v => ?_)
          exact not_tooDeep_bind (not_tooDeep_read _ _ _) fun _ => not_tooDeep_mismatch
        · exact hR.bind (hR.term h v) fun v _ => ih v
      · exact hR.refl (not_tooDeep_pure v)

theorem expression (hR : Congruence R) (h : ∀ v, R View (f v) (g v)) (v : View) :
    R Unit (Reading.expression f v) (Reading.expression g v) := by
  refine hR.same_bind (not_tooDeep_enter _ _) fun _ _ => ?_
  refine hR.same_bind (not_tooDeep_trim v) fun v _ => ?_
  refine hR.bind (hR.term h v) fun v _ => ?_
  refine hR.bind (hR.sums h v.length v) fun v _ => hR.refl ?_
  split_ifs
  · exact not_tooDeep_pure ()
  · exact not_tooDeep_mismatch

theorem group (hR : Congruence R) (h : ∀ v, R View (f v) (g v)) (v : View) :
    R View (Reading.group f v) (Reading.group g v) := by
  refine hR.same_bind (not_tooDeep_read _ _ _) fun v _ => ?_
  refine hR.same_bind (not_tooDeep_ofSlice _) fun rest _ => ?_
  cases Literal.closing? rest with
  | none => exact hR.refl not_tooDeep_mismatch
  | some close =>
      exact hR.bind (hR.expression h _) fun _ _ => hR.refl (not_tooDeep_read _ _ _)

theorem sign (hR : Congruence R) (h : ∀ v, R View (f v) (g v)) (v : View) :
    R View (Reading.sign f v) (Reading.sign g v) := by
  refine hR.same_bind (not_tooDeep_read _ _ _) fun v _ => ?_
  exact hR.same_bind (not_tooDeep_trim v) fun v _ => h v

/-- The readers of groups and signs are only tried where a group or a sign begins. -/
theorem operand {f' g' : View → Attempt View} (hR : Congruence R)
    (hf : ∀ v s, v.text = .ok ('(' :: s) → R View (f v) (f' v))
    (hg : ∀ v s, v.text = .ok ('-' :: s) → R View (g v) (g' v)) (v : View) :
    R View (Reading.operand f g v) (Reading.operand f' g' v) := by
  refine hR.same_bind (not_tooDeep_enter _ _) fun _ _ => ?_
  refine hR.same_bind (not_tooDeep_ofSlice _) fun head hhead => ?_
  have hv : ∃ s, v.text = .ok s ∧ s.head? = head := by
    cases hs : v.text with
    | error e => simp [View.head?, hs, Except.map, ofSlice, Except.mapError] at hhead
    | ok s =>
        rw [View.head?_eq hs] at hhead
        exact ⟨s, rfl, Except.ok.inj hhead⟩
  obtain ⟨s, hs, rfl⟩ := hv
  cases s with
  | nil => exact hR.refl not_tooDeep_mismatch
  | cons c s =>
      dsimp only [List.head?_cons]
      split_ifs with hdigit hname hopen hminus
      · exact hR.refl (not_tooDeep_number v)
      · exact hR.refl (not_tooDeep_name v)
      · obtain rfl : c = '(' := of_decide_eq_true hopen
        exact hf v s hs
      · obtain rfl : c = '-' := of_decide_eq_true hminus
        exact hg v s hs
      · exact hR.refl not_tooDeep_mismatch

end Congruence

end ArithGrammar
