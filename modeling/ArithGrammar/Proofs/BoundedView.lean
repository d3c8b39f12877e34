import ArithGrammar.Proofs.Relocation
import ArithGrammar.Proofs.ViewSteps

/-!
# A bounded view is a text of its own

What steps make of an aligned view, and of the views that are split or copied from it, is what they
make of the view of its text alone, as far on as the view starts (`ViewScript.run_bounded_view`).
This holds of failures as well, and of every view in between, though its ends may be inside
characters: all that is needed is that the views stay within the text, which steps cannot but do.
-/
namespace ArithGrammar
open Text (byteLength dropBytes? takeBytes? slice)

namespace Text
variable {s : Text} {start stop n : Nat}

def SliceError.shift (k : Nat) : SliceError → SliceError
  | reversed start stop => reversed (start + k) (stop + k)
  | offBoundary offset => offBoundary (offset + k)

theorem SliceError.shift_shift (k l : Nat) (e : SliceError) :
    (e.shift k).shift l = e.shift (k + l) := by
  cases e <;> simp only [shift, Nat.add_assoc]

theorem dropBytes?_append_left (a s : Text) (n : Nat) :
    dropBytes? (a ++ s) (n + byteLength a) = dropBytes? s n := by
  induction a with
  | nil => rfl
  | cons c a ih =>
      rw [List.cons_append, byteLength_cons, Nat.add_left_comm, dropBytes?_cons]
      exact ih

theorem dropBytes?_append_right (hn : n ≤ byteLength s) (b : Text) :
    dropBytes? (s ++ b) n = (dropBytes? s n).map (· ++ b) := by
  fun_induction dropBytes? s n with
  | case1 s => rw [dropBytes?_zero, Option.map_some]
  | case2 n => cases hn
  | case3 c s n hc ih =>
      rw [byteLength_cons] at hn
      rw [List.cons_append, dropBytes?, if_pos hc]
      exact ih (by omega)
  | case4 c s n hc => rw [List.cons_append, dropBytes?, if_neg hc, Option.map_none]

theorem takeBytes?_append_right (hn : n ≤ byteLength s) (b : Text) :
    takeBytes? (s ++ b) n = takeBytes? s n := by
  fun_induction takeBytes? s n with
  | case1 s => rw [takeBytes?_zero]
  | case2 n => cases hn
  | case3 c s n hc ih =>
      rw [byteLength_cons] at hn
      rw [List.cons_append, takeBytes?, if_pos hc, ih (by omega)]
  | case4 c s n hc => rw [List.cons_append, takeBytes?, if_neg hc]

theorem slice_inside (a b : Text) (hle : start ≤ stop) (hstop : stop ≤ byteLength s) :
    slice (a ++ s ++ b) (start + byteLength a) (stop + byteLength a) =
      (slice s start stop).mapError (SliceError.shift (byteLength a)) := by
  have hsub : stop + byteLength a - (start + byteLength a) = stop - start := by omega
  rw [slice, slice, if_neg (by omega), if_neg (by omega), hsub, List.append_assoc,
    dropBytes?_append_left, dropBytes?_append_right (hle.trans hstop)]
  cases hdrop : dropBytes? s start with
  | none => rfl
  | some rest =>
      obtain ⟨before, rfl, rfl⟩ := dropBytes?_eq_some_iff.mp hdrop
      rw [byteLength_append] at hstop
      rw [Option.map_some]
      dsimp only
      rw [takeBytes?_append_right (by omega)]
      cases takeBytes? rest (stop - byteLength before) with
      | none => rfl
      | some t => rfl

end Text

/-- The view of the text `source` that is `k` bytes further on. -/
def View.moved (source : Text) (k : Nat) (v : View) : View := ⟨source, v.start + k, v.stop + k⟩

def Reply.moved (k : Nat) : Reply → Reply
  | token t => token (t.shift k)
  | reply => reply

def Effect.moved (source : Text) (k : Nat) (r : Effect) : Effect :=
  ⟨r.reply.moved k, r.view.moved source k, r.created.map (View.moved source k)⟩

def StepReport.moved (source : Text) (k : Nat) (report : StepReport) : StepReport where
  reply := (report.reply.map (Reply.moved k)).mapError (Text.SliceError.shift k)
  view := report.view.moved source k
  created := report.created.map fun p => (p.1, p.2.moved source k)

section
variable {a s b : Text} {v w : View}

namespace View

theorem text_moved (hv : v.InText s) :
    (v.moved (a ++ s ++ b) (byteLength a)).text =
      v.text.mapError (Text.SliceError.shift (byteLength a)) := by
  rw [text, text, hv.source]
  exact Text.slice_inside a b hv.start_le hv.stop_le

theorem eq_of_moved_eq {source : Text} {k : Nat} (hsource : v.source = w.source)
    (h : v.moved source k = w.moved source k) : v = w := by
  obtain ⟨-, hstart, hstop⟩ := View.mk.inj h
  obtain ⟨_, start, stop⟩ := v
  obtain ⟨_, start', stop'⟩ := w
  obtain rfl : start = start' := Nat.add_right_cancel hstart
  obtain rfl : stop = stop' := Nat.add_right_cancel hstop
  obtain rfl := hsource
  rfl

theorem getElem?_moved_iff (source : Text) (k : Nat) {views : List View}
    (hviews : ∀ w ∈ views, w.source = s) (hv : v.source = s) (index : Nat) :
    (views.map (moved source k))[index]? = some (v.moved source k) ↔ views[index]? = some v := by
  rw [List.getElem?_map]
  constructor
  · intro h
    obtain ⟨w, hw, heq⟩ := Option.map_eq_some_iff.mp h
    have hsource := (hviews w (List.mem_of_getElem? hw)).trans hv.symm
    rw [hw, eq_of_moved_eq hsource heq]
  · intro h
    rw [h, Option.map_some]

theorem cut_moved (source : Text) (k : Nat) (v : View) (len : Nat) :
    (v.moved source k).cut len = v.cut len + k := by
  simp only [cut, length, moved]
  omega

theorem splitAt_moved (source : Text) (k : Nat) (v : View) (len : Nat) :
    (v.moved source k).splitAt len =
      ((v.splitAt len).1.moved source k, (v.splitAt len).2.moved source k) := by
  simp only [splitAt, cut_moved]
  rfl

theorem trimmed_moved {t : Text} (hv : v.InText s) (ht : v.text = .ok t) :
    (v.moved (a ++ s ++ b) (byteLength a)).trimmed =
      v.trimmed.moved (a ++ s ++ b) (byteLength a) := by
  have hmoved : (v.moved (a ++ s ++ b) (byteLength a)).text = .ok t := by
    rw [text_moved hv, ht]
    rfl
  have hstart : (v.moved (a ++ s ++ b) (byteLength a)).trimmed.start =
      v.trimmed.start + byteLength a := by
    rw [start_trimmed hmoved, start_trimmed ht]
    exact Nat.add_right_comm _ _ _
  have hstop : (v.moved (a ++ s ++ b) (byteLength a)).trimmed.stop =
      v.trimmed.stop + byteLength a := by
    rw [stop_eq (text_trimmed hmoved), stop_eq (text_trimmed ht), hstart]
    exact Nat.add_right_comm _ _ _
  calc (v.moved (a ++ s ++ b) (byteLength a)).trimmed
      = ⟨a ++ s ++ b, (v.moved (a ++ s ++ b) (byteLength a)).trimmed.start,
          (v.moved (a ++ s ++ b) (byteLength a)).trimmed.stop⟩ := rfl
    _ = v.trimmed.moved (a ++ s ++ b) (byteLength a) := by
      rw [hstart, hstop]
      rfl

theorem InText.splitAt_fst (hv : v.InText s) (len : Nat) : (v.splitAt len).1.InText s :=
  (splitAt_fst_partOf hv.start_le len).inText hv

end View

namespace ViewStep
variable {views : List View}

/-- A step does elsewhere what it does here, and fails there as it fails here. -/
theorem effect_moved (hv : v.InText s) (hviews : ∀ w ∈ views, w.InText s) (step : ViewStep) :
    step.effect (views.map (View.moved (a ++ s ++ b) (byteLength a)))
        (v.moved (a ++ s ++ b) (byteLength a)) =
      ((step.effect views v).map (Effect.moved (a ++ s ++ b) (byteLength a))).mapError
        (Text.SliceError.shift (byteLength a)) := by
  have htext := View.text_moved (a := a) (b := b) hv
  cases step with
  | trim =>
      cases ht : v.text with
      | error e =>
          rw [ht] at htext
          simp only [effect, View.trim, ht, htext]
          rfl
      | ok t =>
          have hmoved := htext
          rw [ht] at hmoved
          rw [effect, effect, View.trim_eq ht, View.trim_eq hmoved, View.trimmed_moved hv ht]
          rfl
  | head =>
      rw [effect, effect, View.head?, View.head?, htext]
      cases v.text <;> rfl
  | text =>
      rw [effect, effect, htext]
      cases v.text <;> rfl
  | find =>
      rw [effect, effect, htext]
      cases v.text <;> rfl
  | headIn set =>
      rw [effect, effect, View.headIn, View.headIn, htext]
      cases v.text <;> rfl
  | beginsWith pattern =>
      rw [effect, effect, View.beginsWith, View.beginsWith, htext]
      cases v.text <;> rfl
  | take len kind =>
      have hpiece := View.text_moved (a := a) (b := b) (hv.splitAt_fst len)
      rw [effect, effect, View.take, View.take, View.splitAt_moved, hpiece]
      cases (v.splitAt len).1.text with
      | error e => rfl
      | ok t =>
          simp only [Except.mapError, Except.map, View.cut_moved]
          rfl
  | splitAt len =>
      rw [effect, effect, View.splitAt_moved]
      rfl
  | copy => rfl
  | sameAs other =>
      have hsame := View.getElem?_moved_iff (a ++ s ++ b) (byteLength a)
        (fun w hw => (hviews w hw).source) hv.source other
      simp only [effect, hsame]
      rfl

end ViewStep

namespace ViewScript
variable {views : List View}

theorem step_moved (hviews : ∀ w ∈ views, w.InText s) (index : Nat) (st : ViewStep) :
    step (views.map (View.moved (a ++ s ++ b) (byteLength a))) index st =
      (step views index st).map fun r =>
        (r.1.moved (a ++ s ++ b) (byteLength a),
          r.2.map (View.moved (a ++ s ++ b) (byteLength a))) := by
  have hindex := List.getElem?_map (f := View.moved (a ++ s ++ b) (byteLength a)) (l := views)
    (i := index)
  cases hv : views[index]? with
  | none =>
      rw [hv, Option.map_none] at hindex
      simp only [step, hv, hindex]
      rfl
  | some v =>
      rw [hv, Option.map_some] at hindex
      have heffect := ViewStep.effect_moved (a := a) (b := b)
        (hviews v (List.mem_of_getElem? hv)) hviews st
      cases hr : st.effect views v with
      | error e =>
          rw [hr] at heffect
          rw [step_eq_error hv hr, step_eq_error hindex heffect]
          rfl
      | ok r =>
          rw [hr] at heffect
          rw [step_eq_ok hv hr, step_eq_ok hindex heffect, List.length_map, Option.map_some,
            List.map_append, List.map_set]
          cases hcreated : r.created <;> simp only [Effect.moved, hcreated] <;> rfl

theorem run_moved (hviews : ∀ w ∈ views, w.InText s) (steps : List (Nat × ViewStep)) :
    run (views.map (View.moved (a ++ s ++ b) (byteLength a))) steps =
      (run views steps).map fun r =>
        (r.1.map (StepReport.moved (a ++ s ++ b) (byteLength a)),
          r.2.map (View.moved (a ++ s ++ b) (byteLength a))) := by
  induction steps generalizing views with
  | nil => rfl
  | cons p steps ih =>
      obtain ⟨index, st⟩ := p
      rw [run, run, step_moved hviews]
      cases hstep : step views index st with
      | none => rfl
      | some r =>
          obtain ⟨report, next⟩ := r
          rw [Option.map_some]
          dsimp only
          rw [ih (inText_of_step hviews hstep)]
          cases run next steps <;> rfl

end ViewScript

end

theorem Reply.moved_moved (k l : Nat) (reply : Reply) :
    (reply.moved k).moved l = reply.moved (k + l) := by
  cases reply with
  | token t =>
      have hshift := Token.map_shift_shift k l [t]
      exact congrArg Reply.token (List.singleton_inj.mp hshift)
  | nothing => rfl
  | head c => rfl
  | text s => rfl
  | findings found => rfl
  | flag b => rfl

theorem View.moved_moved (source source' : Text) (k l : Nat) (v : View) :
    (v.moved source k).moved source' l = v.moved source' (k + l) := by
  simp only [moved, Nat.add_assoc]

theorem View.eq_moved_whole {c : View} {s : Text} (hc : c.text = .ok s) :
    c = (whole s).moved c.source c.start := by
  have hstop := stop_eq hc
  obtain ⟨source, start, stop⟩ := c
  simp only [moved, whole, Nat.zero_add, mk.injEq, true_and]
  rw [Nat.add_comm]
  exact hstop

theorem StepReport.moved_moved (source source' : Text) (k l : Nat) (report : StepReport) :
    (report.moved source k).moved source' l = report.moved source' (k + l) := by
  obtain ⟨reply, view, created⟩ := report
  have hcreated : (created.map fun p => (p.1, p.2.moved source k)).map
      (fun p => (p.1, p.2.moved source' l)) =
        created.map fun p => (p.1, p.2.moved source' (k + l)) := by
    rw [Option.map_map]
    cases created with
    | none => rfl
    | some p => simp only [Option.map_some, Function.comp_apply, View.moved_moved]
  simp only [moved, hcreated, View.moved_moved]
  cases reply with
  | error e => simp only [Except.map, Except.mapError, Text.SliceError.shift_shift]
  | ok reply => simp only [Except.map, Except.mapError, Reply.moved_moved]

namespace ViewScript
variable {c d : View} {s : Text}

theorem run_of_text (hc : c.text = .ok s) (steps : List (Nat × ViewStep)) :
    run [c] steps = (run [View.whole s] steps).map fun r =>
      (r.1.map (StepReport.moved c.source c.start), r.2.map (View.moved c.source c.start)) := by
  obtain ⟨before, after, hsource, hstart, -⟩ := View.text_eq_ok_iff.mp hc
  have hviews : ∀ w ∈ [View.whole s], w.InText s :=
    List.forall_mem_singleton.mpr (View.inText_whole s)
  have hmoved := run_moved (a := before) (b := after) hviews steps
  rw [← hsource, hstart, List.map_singleton, ← View.eq_moved_whole hc] at hmoved
  exact hmoved

/-- A script on an aligned view does, step by step, what it does on the text of the view alone, with
all offsets as far on as the view starts. The rest of the text makes no difference to it. -/
theorem run_bounded_view (c : View) (hle : c.start ≤ c.stop) (hc : c.Aligned) :
    ∃ s, c.text = .ok s ∧
      (∀ steps, run [c] steps = (run [View.whole s] steps).map fun r =>
        (r.1.map (StepReport.moved c.source c.start), r.2.map (View.moved c.source c.start))) ∧
      ∀ d : View, d.text = .ok s → d.start = c.start → ∀ steps,
        run [d] steps = (run [c] steps).map fun r =>
          (r.1.map (StepReport.moved d.source 0), r.2.map (View.moved d.source 0)) := by
  obtain ⟨s, hs⟩ := (View.exists_text_iff hle).mpr hc
  refine ⟨s, hs, run_of_text hs, ?_⟩
  intro d hd hstart steps
  rw [run_of_text hd, run_of_text hs, Option.map_map, hstart]
  congr 1
  funext r
  simp only [Function.comp_apply, List.map_map, Function.comp_def, StepReport.moved_moved,
    View.moved_moved, Nat.add_zero]

/-- The inside of a group, with wide characters within it and before it. -/
theorem run_bounded_view_of_group :
    let c : View := ⟨"é(é b)".toList, 3, 7⟩
    c.start ≤ c.stop ∧ c.Aligned ∧ ∃ s, c.text = .ok s ∧
      (∀ steps, run [c] steps = (run [View.whole s] steps).map fun r =>
        (r.1.map (StepReport.moved c.source c.start), r.2.map (View.moved c.source c.start))) ∧
      ∀ d : View, d.text = .ok s → d.start = c.start → ∀ steps,
        run [d] steps = (run [c] steps).map fun r =>
          (r.1.map (StepReport.moved d.source 0), r.2.map (View.moved d.source 0)) := by
  intro c
  have hle : c.start ≤ c.stop := by decide
  have hc : c.Aligned := ⟨by decide +kernel, by decide +kernel⟩
  exact ⟨hle, hc, run_bounded_view c hle hc⟩

end ViewScript

end ArithGrammar
