import ArithGrammar.Proofs.Congruence
import ArithGrammar.Proofs.Soundness

/-!
# How often the loops go round

The loops of terms and expressions are given as many rounds as the view has bytes. Every round reads
an operator and leaves a view of less text (`Finds.exists_text`), so a loop that has at least that
many rounds left stops where no operator comes next, and how many there were makes no difference
(`reads_products_rounds`, `reads_sums_rounds`).
-/
namespace ArithGrammar
open Text (byteLength)

namespace Attempt
variable {α : Type} {x x' y y' : Attempt α} {ts : List Token}

theorem Reads.of_tail (hx : x.Reads ts x') (hy : y.Reads ts y') (h : x'.Reads [] y') :
    x.Reads [] y := by
  refine ⟨?_, ?_⟩
  · rw [hx.tokens, hy.tokens, h.tokens, List.nil_append, List.nil_append]
  · rw [hx.outcome, hy.outcome, h.outcome]

end Attempt

open Attempt

/-- What is made of the same tokens and ends alike is so in every sequence. -/
theorem congruence_reads : Congruence fun _ x y => x.Reads [] y where
  refl _ := .refl _
  bind {α β x y f g} hxy hfg := by
    cases hout : x.outcome with
    | error failure =>
        have hy : y.outcome = .error failure := by rw [← hxy.outcome, hout]
        obtain ⟨hf, hf'⟩ := bind_of_error hout f
        obtain ⟨hg, hg'⟩ := bind_of_error hy g
        exact ⟨by rw [hf, hg, hxy.tokens], by rw [hf', hg']⟩
    | ok a =>
        have hy : y.outcome = .ok a := by rw [← hxy.outcome, hout]
        obtain ⟨hf, hf'⟩ := bind_of_ok hout f
        obtain ⟨hg, hg'⟩ := bind_of_ok hy g
        have ha := hfg a hout
        exact ⟨by simp only [hf, hg, hxy.tokens, ha.tokens, List.nil_append],
          by rw [hf', hg', ha.outcome]⟩

namespace Reading
variable {f : View → Attempt View} {v w : View} {s t : Text} {c : Char} {room n m : Nat} {p : Part}

theorem Finds.exists_text (hf : Finds View.Stands p room f) (hv : v.text = .ok s)
    (hw : (f v).outcome = .ok w) : ∃ t, w.text = .ok t ∧ byteLength t ≤ byteLength s := by
  obtain ⟨read, rest, rfl, -, -, hout⟩ := hf ⟨rfl, hv⟩
  rw [hw] at hout
  obtain ⟨-, gap, left, behind, rfl, -, -, hleft⟩ := hout
  refine ⟨left, hleft.text_eq, ?_⟩
  simp only [Text.byteLength_append]
  omega

theorem Finds.exists_text_lt (hf : Finds View.Stands p room f)
    (hp : ∀ T : Tree p, T.terminals ≠ []) (hv : v.text = .ok s) (hw : (f v).outcome = .ok w) :
    ∃ t, w.text = .ok t ∧ byteLength t < byteLength s := by
  obtain ⟨read, rest, rfl, hlaid, -, hout⟩ := hf ⟨rfl, hv⟩
  rw [hw] at hout
  obtain ⟨⟨T, -, hT⟩, gap, left, behind, rfl, -, -, hleft⟩ := hout
  refine ⟨left, hleft.text_eq, ?_⟩
  have hread : byteLength read ≠ 0 := by
    intro hzero
    rw [Text.byteLength_eq_zero.mp hzero] at hlaid
    rw [hlaid.eq_nil] at hT
    exact hp T hT
  simp only [Text.byteLength_append]
  omega

theorem Finds.exists_text_trimmed (hf : Finds View.Stands p room f) (hv : v.text = .ok s)
    (hw : (f v.trimmed).outcome = .ok w) : ∃ t, w.text = .ok t ∧ byteLength t ≤ byteLength s := by
  obtain ⟨t, ht, hle⟩ := hf.exists_text (View.text_trimmed hv) hw
  exact ⟨t, ht, hle.trans (Text.byteLength_trimmed_le s)⟩

theorem Finds.exists_text_round (hf : Finds View.Stands p room f) (hv : v.text = .ok s)
    (hw : (f v.trimmed >>= Attempt.trim).outcome = .ok w) :
    ∃ t, w.text = .ok t ∧ byteLength t ≤ byteLength s := by
  cases hout : (f v.trimmed).outcome with
  | error failure =>
      rw [(bind_of_error hout Attempt.trim).2] at hw
      cases hw
  | ok u =>
      obtain ⟨t, ht, hle⟩ := hf.exists_text_trimmed hv hout
      rw [(bind_of_ok hout Attempt.trim).2, trim_eq_pure ht] at hw
      obtain rfl : u.trimmed = w := Except.ok.inj hw
      exact ⟨t.trimmed, View.text_trimmed ht, (Text.byteLength_trimmed_le t).trans hle⟩

/-- A loop that goes on at the characters of a set, and leaves a view of less text each time, does
not depend on the rounds it is given, if there is one for each byte. -/
theorem reads_loop_rounds {set : CharSet} {loop : Nat → View → Attempt View}
    (hstop : ∀ n ⦃v s⦄, View.text v = .ok s → set.NotAhead s → loop n v = pure v)
    (hstep : ∀ ⦃v c s⦄, View.text v = .ok (c :: s) → set.contains c = true →
      ∃ ts round, (∀ n, (loop (n + 1) v).Reads ts (round >>= loop n)) ∧
        ∀ w, round.outcome = .ok w → ∃ t, w.text = .ok t ∧ byteLength t ≤ byteLength s)
    (hv : v.text = .ok s) (hn : byteLength s ≤ n) (hm : byteLength s ≤ m) :
    (loop n v).Reads [] (loop m v) := by
  induction n generalizing m v s with
  | zero =>
      obtain rfl : s = [] := Text.byteLength_eq_zero.mp (Nat.le_zero.mp hn)
      rw [hstop 0 hv CharSet.notAhead_nil, hstop m hv CharSet.notAhead_nil]
      exact .refl _
  | succ n ih =>
      by_cases hs : set.NotAhead s
      · rw [hstop (n + 1) hv hs, hstop m hv hs]
        exact .refl _
      · obtain ⟨c, s, rfl, hc⟩ := CharSet.exists_of_not_notAhead hs
        have hsize := c.utf8Size_pos
        rw [Text.byteLength_cons] at hn hm
        obtain ⟨m, rfl⟩ : ∃ k, m = k + 1 := ⟨m - 1, by omega⟩
        obtain ⟨ts, round, hround, hless⟩ := hstep hv hc
        refine (hround n).of_tail (hround m) (congruence_reads.bind (.refl round) fun w hw => ?_)
        obtain ⟨t, ht, hle⟩ := hless w hw
        exact ih ht (by omega) (by omega)

theorem reads_products_rounds (hf : Finds View.Stands .factor room f) (hv : v.text = .ok s)
    (hn : byteLength s ≤ n) (hm : byteLength s ≤ m) :
    (products f n v).Reads [] (products f m v) := by
  refine reads_loop_rounds (fun _ _ _ => products_of_notAhead) (fun v c s hv hc => ?_) hv hn hm
  refine ⟨[Token.placed v.start .mulOp [c]], f (v.back s).trimmed >>= trim, fun n => ?_,
    fun w hw => hf.exists_text_round (View.text_back_cons hv) hw⟩
  rw [bind_assoc]
  exact reads_products hv hc

theorem reads_sums_rounds (hf : Finds View.Stands .factor room f) (hv : v.text = .ok s)
    (hn : byteLength s ≤ n) (hm : byteLength s ≤ m) :
    (sums f n v).Reads [] (sums f m v) := by
  refine reads_loop_rounds (fun _ _ _ => sums_of_notAhead) (fun v c s hv hc => ?_) hv hn hm
  by_cases hguard : ['(', ')'] <+: Text.trimmed s
  · obtain ⟨r, hr⟩ := hguard
    exact ⟨_, fail .mismatch, fun n => reads_sums_empty hv hc hr.symm, fun w hw => by cases hw⟩
  · exact ⟨[Token.placed v.start .addOp [c]], term f (v.back s).trimmed,
      fun n => reads_sums hv hc hguard,
      fun w hw => (finds_term hf).exists_text_trimmed (View.text_back_cons hv) hw⟩

end Reading

end ArithGrammar
