import ArithGrammar.Proofs.ViewSteps

/-!
# Scripts stay within their text

Whatever the steps of a script are, and however far they reach, all its views stay within the text,
and a step touches no view but its own, which it makes narrower if it does anything. So a view that
has ends inside characters got them by splitting: as long as every split lands on a boundary,
nothing can fail but taking a token that ends inside a character (`ViewScript.run_whole_safe`).

Every beginning of a script is a script, so what is said of the views that a run leaves holds of the
views at every moment of it.
-/
namespace ArithGrammar
open Text (byteLength isBoundary)

def StepReport.Fails (report : StepReport) : Prop := ∃ e, report.reply = .error e

def ViewStep.creates : ViewStep → Nat
  | splitAt _ | copy => 1
  | _ => 0

namespace ViewStep
variable {views : List View} {v : View} {s : ViewStep} {r : Effect}

theorem Leaves.length_created (h : Leaves v s r) : r.created.toList.length = s.creates := by
  cases h with
  | trim _ => rfl
  | take _ => rfl
  | splitAt => rfl
  | copy => rfl
  | @look s reply hs =>
      cases s with
      | trim | take | splitAt | copy => exact hs.elim
      | head | text | find | headIn | beginsWith | sameAs => rfl

theorem creates_of_failsOn (h : s.FailsOn v) : s.creates = 0 := by
  cases s with
  | splitAt | copy => exact h.elim
  | trim | head | text | find | headIn | beginsWith | take | sameAs => rfl

theorem FailsOn.take_of_aligned (h : s.FailsOn v) (hv : v.Aligned) :
    ∃ len kind, s = .take len kind ∧ isBoundary v.source (v.cut len) = false := by
  cases s with
  | take len kind =>
      refine ⟨len, kind, rfl, ?_⟩
      exact Bool.not_eq_true _ ▸ fun hcut => h ⟨hv.1, hcut⟩
  | splitAt | copy | sameAs => exact h.elim
  | trim | head | text | find | headIn | beginsWith => exact absurd hv h

end ViewStep

namespace ViewScript
variable {src : Text} {views after : List View} {index : Nat} {v : View} {s : ViewStep}
  {report : StepReport} {steps : List (Nat × ViewStep)} {reports : List StepReport}

/-- Each step of a script names a view that there is by then, where there are `count` at first. -/
def names : Nat → List (Nat × ViewStep) → Bool
  | _, [] => true
  | count, (index, s) :: steps => decide (index < count) && names (count + s.creates) steps

/-- What a step on the view `v` at the index does to the list of views, and when it fails. -/
structure Safe (views : List View) (index : Nat) (v : View) (s : ViewStep) (report : StepReport)
    (after : List View) : Prop where
  length : after.length = views.length + s.creates
  view : after[index]? = some report.view
  partOf : report.view.PartOf v
  others : ∀ j, j < views.length → j ≠ index → after[j]? = views[j]?
  created : ∀ p ∈ report.created, p.1 = views.length ∧ after[p.1]? = some p.2 ∧ p.2.PartOf v
  fails_iff : report.Fails ↔ s.FailsOn v
  unchanged : report.Fails → after = views
  aligned : (∀ len, s ≠ .splitAt len) → v.Aligned →
    report.view.Aligned ∧ ∀ p ∈ report.created, p.2.Aligned

theorem safe_of_step (hv : views[index]? = some v) (hle : v.start ≤ v.stop)
    (h : step views index s = some (report, after)) : Safe views index v s report after := by
  obtain ⟨w, hw, ⟨e, heffect, rfl, rfl⟩ | ⟨r, heffect, rfl, rfl⟩⟩ := step_cases h
  · obtain rfl : v = w := Option.some.inj (hv.symm.trans hw)
    have hfails : s.FailsOn v := (ViewStep.effect_fails_iff hle _ s).mp ⟨e, heffect⟩
    exact {
      length := by rw [ViewStep.creates_of_failsOn hfails, Nat.add_zero]
      view := hv
      partOf := .refl hle
      others := fun _ _ _ => rfl
      created := nofun
      fails_iff := iff_of_true ⟨e, rfl⟩ hfails
      unchanged := fun _ => rfl
      aligned := fun _ haligned => ⟨haligned, nofun⟩ }
  · obtain rfl : v = w := Option.some.inj (hv.symm.trans hw)
    have hleaves := ViewStep.leaves_of_effect heffect
    have hindex : index < views.length := (List.getElem?_eq_some_iff.mp hv).1
    have hnot : ¬ s.FailsOn v := by
      intro hfails
      obtain ⟨e, he⟩ := (ViewStep.effect_fails_iff hle views s).mpr hfails
      rw [heffect] at he
      cases he
    have hlength : (views.set index r.view).length = views.length := List.length_set
    have hok : ¬ ∃ e, (Except.ok r.reply : Except Text.SliceError Reply) = .error e := by
      rintro ⟨e, he⟩
      cases he
    refine {
      length := by rw [List.length_append, hlength, hleaves.length_created]
      view := ?_
      partOf := (hleaves.partOf hle).1
      others := ?_
      created := ?_
      fails_iff := iff_of_false hok hnot
      unchanged := fun hfails => absurd hfails hok
      aligned := ?_ }
    · rw [List.getElem?_append_left (by rwa [hlength]), List.getElem?_set_self hindex]
    · intro j hj hne
      rw [List.getElem?_append_left (by rwa [hlength]), List.getElem?_set_ne hne.symm]
    · intro p hp
      obtain ⟨w, hw, rfl⟩ := Option.map_eq_some_iff.mp hp
      refine ⟨rfl, ?_, (hleaves.partOf hle).2 w hw⟩
      rw [List.getElem?_append_right (le_of_eq hlength), hlength, Nat.sub_self, hw]
      rfl
    · intro hsplit haligned
      have hends := hleaves.aligned haligned fun len hlen => absurd hlen (hsplit len)
      refine ⟨hends.1, ?_⟩
      intro p hp
      obtain ⟨w, hw, rfl⟩ := Option.map_eq_some_iff.mp hp
      exact hends.2 w hw

theorem length_of_step (hle : ∀ w ∈ views, w.start ≤ w.stop)
    (h : step views index s = some (report, after)) :
    after.length = views.length + s.creates := by
  obtain ⟨v, hv, -⟩ := step_cases h
  exact (safe_of_step hv (hle v (List.mem_of_getElem? hv)) h).length

theorem inText_of_run (hviews : ∀ w ∈ views, w.InText src)
    (h : run views steps = some (reports, after)) : ∀ w ∈ after, w.InText src := by
  induction steps generalizing views reports with
  | nil =>
      obtain ⟨-, rfl⟩ := Prod.mk.inj (Option.some.inj h)
      exact hviews
  | cons p steps ih =>
      obtain ⟨index, s⟩ := p
      obtain ⟨report, next, rest, hstep, hrest, rfl⟩ := run_cons_cases h
      exact ih (inText_of_step hviews hstep) hrest

/-- A script runs to its end just if its steps name views that there are. -/
theorem isSome_run (hviews : ∀ w ∈ views, w.InText src) :
    (run views steps).isSome = names views.length steps := by
  induction steps generalizing views with
  | nil => rfl
  | cons p steps ih =>
      obtain ⟨index, s⟩ := p
      have hsome := step_isSome views index s
      rw [run, names]
      cases hstep : step views index s with
      | none =>
          rw [hstep] at hsome
          rw [← hsome]
          rfl
      | some result =>
          obtain ⟨report, next⟩ := result
          have hlength := length_of_step (fun w hw => (hviews w hw).start_le) hstep
          rw [hstep] at hsome
          rw [← hsome, ← hlength, ← ih (inText_of_step hviews hstep), Option.isSome_some,
            Bool.true_and]
          exact Option.isSome_map

/-- The step is no split, or one that lands on a boundary. -/
def Lands (src : Text) (s : ViewStep) (report : StepReport) : Prop :=
  ∀ len, s = .splitAt len → isBoundary src report.view.start = true

theorem aligned_of_step (hviews : ∀ w ∈ views, w.InText src ∧ w.Aligned)
    (h : step views index s = some (report, after)) (hlands : Lands src s report) :
    ∀ w ∈ after, w.InText src ∧ w.Aligned := by
  obtain ⟨v, hv, ⟨e, -, -, rfl⟩ | ⟨r, heffect, rfl, rfl⟩⟩ := step_cases h
  · exact hviews
  · obtain ⟨hin, haligned⟩ := hviews v (List.mem_of_getElem? hv)
    have hleaves := ViewStep.leaves_of_effect heffect
    have hparts := hleaves.partOf hin.start_le
    have hsplit : ∀ len, s = .splitAt len → isBoundary v.source (v.cut len) = true := by
      rintro len rfl
      obtain rfl := Except.ok.inj heffect
      rw [hin.source]
      exact hlands len rfl
    have hends := hleaves.aligned haligned hsplit
    exact forall_mem_after hviews ⟨hparts.1.inText hin, hends.1⟩ fun w hw =>
      ⟨(hparts.2 w hw).inText hin, hends.2 w hw⟩

/-- As long as every split lands on a boundary only tokens may be missing. -/
theorem take_of_fails (hviews : ∀ w ∈ views, w.InText src ∧ w.Aligned)
    (h : run views steps = some (reports, after))
    (hlands : ∀ p ∈ steps.zip reports, Lands src p.1.2 p.2) :
    ∀ p ∈ steps.zip reports, p.2.Fails → ∃ len kind, p.1.2 = .take len kind ∧
      p.2.view.Aligned ∧ isBoundary src (p.2.view.cut len) = false := by
  induction steps generalizing views reports with
  | nil => simp
  | cons p steps ih =>
      obtain ⟨index, s⟩ := p
      obtain ⟨report, next, rest, hstep, hrest, rfl⟩ := run_cons_cases h
      rw [List.zip_cons_cons] at hlands ⊢
      obtain ⟨hhead, htail⟩ := List.forall_mem_cons.mp hlands
      refine List.forall_mem_cons.mpr ⟨?_, ih (aligned_of_step hviews hstep hhead) hrest htail⟩
      intro hfails
      obtain ⟨v, hv, ⟨e, heffect, rfl, -⟩ | ⟨r, -, rfl, -⟩⟩ := step_cases hstep
      · obtain ⟨hin, haligned⟩ := hviews v (List.mem_of_getElem? hv)
        have hon := (ViewStep.effect_fails_iff hin.start_le _ s).mp ⟨e, heffect⟩
        obtain ⟨len, kind, hs, hcut⟩ := hon.take_of_aligned haligned
        rw [hin.source] at hcut
        exact ⟨len, kind, hs, haligned, hcut⟩
      · obtain ⟨e, he⟩ := hfails
        cases he

/-- The views of a script stay within their text, and no step fails but for a character that it
would cut. Offsets never leave the range of the text, so they do not outgrow a word where its length
fits into one. -/
theorem run_whole_safe (src : Text) (steps : List (Nat × ViewStep)) :
    (run [View.whole src] steps).isSome = names 1 steps ∧
    ∀ reports views, run [View.whole src] steps = some (reports, views) →
      (∀ v ∈ views, v.InText src ∧ ∀ len,
        v.start + min len (v.stop - v.start) ≤ v.stop ∧
        (byteLength src < UInt64.size → v.start + min len (v.stop - v.start) < UInt64.size)) ∧
      (∀ index v s, views[index]? = some v →
        ∃ report after, step views index s = some (report, after) ∧
          Safe views index v s report after) ∧
      ((∀ p ∈ steps.zip reports, Lands src p.1.2 p.2) →
        ∀ p ∈ steps.zip reports, p.2.Fails → ∃ len kind, p.1.2 = .take len kind ∧
          p.2.view.Aligned ∧ isBoundary src (p.2.view.cut len) = false) := by
  have hwhole : ∀ w ∈ [View.whole src], w.InText src :=
    List.forall_mem_singleton.mpr (View.inText_whole src)
  refine ⟨isSome_run hwhole, ?_⟩
  intro reports views hrun
  have hviews := inText_of_run hwhole hrun
  refine ⟨?_, ?_, ?_⟩
  · intro v hv
    have hin := hviews v hv
    have hstart := hin.start_le
    have hstop := hin.stop_le
    refine ⟨hin, fun len => ⟨by omega, by omega⟩⟩
  · intro index v s hv
    have hindex : index < views.length := (List.getElem?_eq_some_iff.mp hv).1
    have hsome := step_isSome views index s
    rw [decide_eq_true hindex] at hsome
    obtain ⟨⟨report, after⟩, hstep⟩ := Option.isSome_iff_exists.mp hsome
    exact ⟨report, after, hstep,
      safe_of_step hv (hviews v (List.mem_of_getElem? hv)).start_le hstep⟩
  · intro hlands
    have haligned : ∀ w ∈ [View.whole src], w.InText src ∧ w.Aligned :=
      List.forall_mem_singleton.mpr ⟨View.inText_whole src, View.aligned_whole src⟩
    exact take_of_fails haligned hrun hlands

end ViewScript

end ArithGrammar
