import ArithGrammar.Proofs.Activations

/-!
# Bounded moments

At no moment of an evaluation are more than three rules being followed for each level that is
counted, and no rule is followed inside itself on a view that has not become shorter.
`Moment.Bounded` says this, together with what the loops and the counter keep to.

While some rules are being followed, three things may come next. Another rule is entered (`Ready`):
its view is no longer than any that has been worked on, and shorter than those of the rules that
come to it only by reading something. Or the loop of the innermost rule goes on, with a view that is
shorter than all of them (`Looping`). Or the innermost rule is left (`Leaves`). One step leads from
one of these to another, and the moment in between is bounded. There are three rules for each level
that is counted, and as many more as the rank of the rule that is entered next.
-/
namespace ArithGrammar

/-- The order in which the rules come to one another before anything is read. -/
def Rule.rank : Rule → Nat
  | expression => 0
  | term => 1
  | factor => 2

/-- Everything that the first activation has worked on is shorter than anything that the second
one has, if they are of the same rule. -/
def Activation.Within (inner outer : Activation) : Prop :=
  inner.rule = outer.rule → ∀ v ∈ inner.views, ∀ w ∈ outer.views, v.length < w.length

instance : DecidableRel Activation.Within := fun inner outer =>
  inferInstanceAs (Decidable (inner.rule = outer.rule → _))

/-- At such a moment no more is counted than the limit allows and at most three rules are being
followed for each level. Every loop has gone round on a shorter view each time, a rule that is
being followed inside itself works on a shorter view, and a rule that is about to be left leaves the
counter as it was. -/
structure Moment.Bounded (limit : Nat) (m : Moment) : Prop where
  depth_le : m.depth ≤ limit
  length_le : m.opened.length ≤ 3 * (limit + 1)
  shrinking : ∀ a ∈ m.opened, a.views.Pairwise fun later earlier => later.length < earlier.length
  within : m.opened.Pairwise Activation.Within
  restored : m.leaving = true → ∀ a ∈ m.opened.head?, a.depth = m.depth

instance (limit : Nat) (m : Moment) : Decidable (m.Bounded limit) :=
  decidable_of_iff
    (m.depth ≤ limit ∧ m.opened.length ≤ 3 * (limit + 1) ∧
      (∀ a ∈ m.opened, a.views.Pairwise fun later earlier => later.length < earlier.length) ∧
      m.opened.Pairwise Activation.Within ∧
      (m.leaving = true → ∀ a ∈ m.opened.head?, a.depth = m.depth))
    ⟨fun ⟨hd, hl, hs, hw, hr⟩ => ⟨hd, hl, hs, hw, hr⟩,
      fun ⟨hd, hl, hs, hw, hr⟩ => ⟨hd, hl, hs, hw, hr⟩⟩

theorem Moment.Bounded.staying {limit d : Nat} {leaving : Bool} {opened : List Activation}
    (h : (⟨leaving, d, opened⟩ : Moment).Bounded limit) :
    (⟨false, d, opened⟩ : Moment).Bounded limit :=
  ⟨h.depth_le, h.length_le, h.shrinking, h.within, nofun⟩

/-- The rule may be entered on a view of `n` bytes, or fewer. -/
structure Ready (limit : Nat) (rule : Rule) (n d : Nat) (opened : List Activation) : Prop where
  bounded : (⟨false, d, opened⟩ : Moment).Bounded limit
  length_le : opened.length ≤ 3 * d + rule.rank
  length_view : ∀ a ∈ opened, ∀ w ∈ a.views,
    n ≤ w.length ∧ (rule.rank ≤ a.rule.rank → n < w.length)

/-- The loop of the innermost rule may go on with a view of `n` bytes, or fewer, to enter the other
rule, and the innermost rule may be left as well. -/
structure Looping (limit : Nat) (rule : Rule) (n d : Nat) (a : Activation)
    (outer : List Activation) : Prop where
  bounded : (⟨true, d, a :: outer⟩ : Moment).Bounded limit
  length_le : (a :: outer).length ≤ 3 * d + rule.rank
  length_view : ∀ b ∈ a :: outer, ∀ w ∈ b.views, n < w.length

def Leaves (limit d : Nat) (outer opened : List Activation) : Prop :=
  ∃ a, opened = a :: outer ∧ (⟨true, d, opened⟩ : Moment).Bounded limit

section
variable {limit n m d : Nat} {rule r : Rule} {opened outer : List Activation} {a : Activation}
  {v w : View}

namespace Ready

theorem mono (h : Ready limit rule n d opened) (hm : m ≤ n) : Ready limit rule m d opened := by
  refine ⟨h.bounded, h.length_le, fun a ha w hw => ?_⟩
  obtain ⟨hle, hlt⟩ := h.length_view a ha w hw
  exact ⟨Nat.le_trans hm hle, fun hrank => Nat.lt_of_le_of_lt hm (hlt hrank)⟩

theorem bounded_cons (h : Ready limit rule v.length d opened) :
    (⟨true, d, ⟨rule, d, [v]⟩ :: opened⟩ : Moment).Bounded limit := by
  have hd : d ≤ limit := h.bounded.depth_le
  have hrank : rule.rank ≤ 2 := by cases rule <;> decide
  have hlen := h.length_le
  refine ⟨hd, ?_, ?_, ?_, ?_⟩
  · simp only [List.length_cons]
    omega
  · intro a ha
    rcases List.mem_cons.mp ha with rfl | ha
    · exact List.pairwise_singleton _ _
    · exact h.bounded.shrinking a ha
  · refine List.pairwise_cons.mpr ⟨fun a ha hrule u hu w hw => ?_, h.bounded.within⟩
    obtain rfl : u = v := List.mem_singleton.mp hu
    exact (h.length_view a ha w hw).2 (Nat.le_of_eq (congrArg Rule.rank hrule))
  · intro _ a ha
    obtain rfl : _ = a := Option.some.inj ha
    rfl

theorem leaves (h : Ready limit rule v.length d opened) :
    Leaves limit d opened (⟨rule, d, [v]⟩ :: opened) := ⟨_, rfl, h.bounded_cons⟩

theorem length_le_of_mem (h : Ready limit rule v.length d opened)
    (ha : a ∈ (⟨rule, d, [v]⟩ :: opened : List Activation)) (hw : w ∈ a.views) :
    v.length ≤ w.length := by
  rcases List.mem_cons.mp ha with rfl | ha
  · obtain rfl : w = v := List.mem_singleton.mp hw
    exact Nat.le_refl _
  · exact (h.length_view a ha w hw).1

theorem cons (h : Ready limit rule v.length d opened) (hrule : r.rank = rule.rank + 1)
    (hm : m ≤ v.length) : Ready limit r m d (⟨rule, d, [v]⟩ :: opened) := by
  have hlen := h.length_le
  refine ⟨h.bounded_cons.staying, ?_, fun a ha w hw => ?_⟩
  · simp only [List.length_cons]
    omega
  · refine ⟨Nat.le_trans hm (h.length_le_of_mem ha hw), fun hrank => ?_⟩
    rcases List.mem_cons.mp ha with rfl | ha
    · have hle : r.rank ≤ rule.rank := hrank
      omega
    · have hlt := (h.length_view a ha w hw).2 (by omega)
      exact Nat.lt_of_le_of_lt hm hlt

theorem looping (h : Ready limit rule v.length d opened) (hrule : r.rank = rule.rank + 1)
    (hm : m < v.length) : Looping limit r m d ⟨rule, d, [v]⟩ opened := by
  have hlen := h.length_le
  refine ⟨h.bounded_cons, ?_, fun a ha w hw => ?_⟩
  · simp only [List.length_cons]
    omega
  · exact Nat.lt_of_lt_of_le hm (h.length_le_of_mem ha hw)

/-- Within a group or a sign, one level deeper, any rule may be entered. -/
theorem deeper (h : Ready limit .factor v.length d opened) (hd : d < limit) (hm : m < v.length) :
    Ready limit r m (d + 1) (⟨.factor, d, [v]⟩ :: opened) := by
  have hlen : opened.length ≤ 3 * d + 2 := h.length_le
  have hbounded := h.bounded_cons
  refine ⟨⟨hd, hbounded.length_le, hbounded.shrinking, hbounded.within, nofun⟩, ?_,
    fun a ha w hw => ?_⟩
  · simp only [List.length_cons]
    omega
  · have hlt := Nat.lt_of_lt_of_le hm (h.length_le_of_mem ha hw)
    exact ⟨Nat.le_of_lt hlt, fun _ => hlt⟩

end Ready

namespace Looping

theorem mono (h : Looping limit rule n d a outer) (hm : m ≤ n) : Looping limit rule m d a outer :=
  ⟨h.bounded, h.length_le, fun b hb w hw => Nat.lt_of_le_of_lt hm (h.length_view b hb w hw)⟩

theorem ready (h : Looping limit rule n d a outer) : Ready limit rule n d (a :: outer) :=
  ⟨h.bounded.staying, h.length_le, fun b hb w hw =>
    ⟨Nat.le_of_lt (h.length_view b hb w hw), fun _ => h.length_view b hb w hw⟩⟩

theorem leaves (h : Looping limit rule n d a outer) : Leaves limit d outer (a :: outer) :=
  ⟨a, rfl, h.bounded⟩

theorem round (h : Looping limit rule v.length d a outer) (hm : m < v.length) :
    Looping limit rule m d { a with views := v :: a.views } outer := by
  obtain ⟨⟨hd, hlen, hshrinking, hwithin, hrestored⟩, hrank, hview⟩ := h
  obtain ⟨hinner, houter⟩ := List.pairwise_cons.mp hwithin
  have ha : a ∈ a :: outer := List.mem_cons_self
  refine ⟨⟨hd, hlen, fun b hb => ?_, ?_, ?_⟩, hrank, fun b hb w hw => ?_⟩
  · rcases List.mem_cons.mp hb with rfl | hb
    · exact List.pairwise_cons.mpr ⟨hview a ha, hshrinking a ha⟩
    · exact hshrinking b (List.mem_cons_of_mem a hb)
  · refine List.pairwise_cons.mpr ⟨fun b hb hrule u hu w hw => ?_, houter⟩
    rcases List.mem_cons.mp hu with rfl | hu
    · exact hview b (List.mem_cons_of_mem a hb) w hw
    · exact hinner b hb hrule u hu w hw
  · intro hleaving b hb
    obtain rfl : _ = b := Option.some.inj hb
    exact hrestored hleaving a rfl
  · rcases List.mem_cons.mp hb with rfl | hb
    · rcases List.mem_cons.mp hw with rfl | hw
      · exact hm
      · exact Nat.lt_trans hm (hview a ha w hw)
    · exact Nat.lt_trans hm (hview b (List.mem_cons_of_mem a hb) w hw)

end Looping

end

end ArithGrammar
