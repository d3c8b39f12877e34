import ArithGrammar.ViewScript
import ArithGrammar.Proofs.AlignedView

/-!
# Steps on views

A view may end inside a character, and then it has no text. Whether a step fails is a matter of
boundaries alone (`ViewStep.effect_fails_iff`), for views whose start is not behind their stop. A
step that does not fail leaves a part of its view and may add a part of it (`ViewStep.Leaves`,
`ViewStep.Leaves.partOf`). Both are told here for each step once, with what a step does to the list
of views (`ViewScript.step_cases`), so the steps need not be opened again.
-/
namespace ArithGrammar
open Text (byteLength isBoundary slice)

namespace Text
variable {s a b c d : Text} {start stop : Nat}

theorem exists_append_of_byteLength_le (h : a ++ b = c ++ d) (hle : byteLength a ≤ byteLength c) :
    ∃ t, c = a ++ t ∧ b = t ++ d := by
  obtain ⟨t, rfl, hb⟩ | ⟨t, rfl, rfl⟩ := List.append_eq_append_iff.mp h
  · exact ⟨t, rfl, hb⟩
  · rw [byteLength_append] at hle
    obtain rfl : t = [] := byteLength_eq_zero.mp (by omega)
    exact ⟨[], by rw [List.append_nil, List.append_nil], rfl⟩

theorem append_inj_of_byteLength (h : a ++ b = c ++ d) (hlen : byteLength a = byteLength c) :
    a = c ∧ b = d := by
  obtain ⟨t, rfl, rfl⟩ := exists_append_of_byteLength_le h hlen.le
  rw [byteLength_append] at hlen
  obtain rfl : t = [] := byteLength_eq_zero.mp (by omega)
  exact ⟨(List.append_nil a).symm, rfl⟩

theorem exists_slice_iff (hle : start ≤ stop) :
    (∃ t, slice s start stop = .ok t) ↔ isBoundary s start = true ∧ isBoundary s stop = true := by
  constructor
  · rintro ⟨t, ht⟩
    obtain ⟨before, after, hs, hstart, hstop⟩ := slice_eq_ok_iff.mp ht
    constructor
    · exact isBoundary_iff.mpr ⟨before, t ++ after, by rw [hs, List.append_assoc], hstart⟩
    · exact isBoundary_iff.mpr ⟨before ++ t, after, hs, by rw [byteLength_append, hstart, hstop]⟩
  · rintro ⟨hstart, hstop⟩
    obtain ⟨before, rest, hs, rfl⟩ := isBoundary_iff.mp hstart
    obtain ⟨front, after, hs', rfl⟩ := isBoundary_iff.mp hstop
    obtain ⟨t, rfl, -⟩ := exists_append_of_byteLength_le (hs.symm.trans hs') hle
    exact ⟨t, slice_eq_ok_iff.mpr ⟨before, after, hs', rfl, (byteLength_append _ _).symm⟩⟩

end Text

namespace View
variable {v w : View} {src : Text} {len : Nat}

/-- Neither end of the view is inside a character. -/
def Aligned (v : View) : Prop :=
  isBoundary v.source v.start = true ∧ isBoundary v.source v.stop = true

/-- The view lies within the text, perhaps with an end inside a character. -/
structure InText (src : Text) (v : View) : Prop where
  source : v.source = src
  start_le : v.start ≤ v.stop
  stop_le : v.stop ≤ byteLength src

/-- The first view is a part of the second one, of the same text. -/
structure PartOf (w v : View) : Prop where
  source : w.source = v.source
  start_ge : v.start ≤ w.start
  start_le : w.start ≤ w.stop
  stop_le : w.stop ≤ v.stop

theorem inText_whole (src : Text) : (whole src).InText src := ⟨rfl, Nat.zero_le _, le_refl _⟩

theorem aligned_whole (src : Text) : (whole src).Aligned :=
  ⟨Text.isBoundary_zero src, Text.isBoundary_byteLength src⟩

theorem PartOf.refl (h : v.start ≤ v.stop) : v.PartOf v := ⟨rfl, le_refl _, h, le_refl _⟩

theorem PartOf.inText (h : w.PartOf v) (hv : v.InText src) : w.InText src :=
  ⟨h.source.trans hv.source, h.start_le, h.stop_le.trans hv.stop_le⟩

theorem exists_text_iff (h : v.start ≤ v.stop) : (∃ s, v.text = .ok s) ↔ v.Aligned :=
  Text.exists_slice_iff h

theorem text_fails_iff (h : v.start ≤ v.stop) : (∃ e, v.text = .error e) ↔ ¬ v.Aligned := by
  rw [← exists_text_iff h]
  cases v.text with
  | error e => simp
  | ok s => simp

theorem Aligned.of_text {s : Text} (h : v.text = .ok s) : v.Aligned := by
  have hle : v.start ≤ v.stop := by
    rw [stop_eq h]
    exact Nat.le_add_right _ _
  exact (exists_text_iff hle).mp ⟨s, h⟩

theorem start_le_cut (v : View) (len : Nat) : v.start ≤ v.cut len := Nat.le_add_right _ _

theorem cut_le_stop (h : v.start ≤ v.stop) (len : Nat) : v.cut len ≤ v.stop := by
  unfold cut length
  omega

theorem splitAt_fst_partOf (h : v.start ≤ v.stop) (len : Nat) : (v.splitAt len).1.PartOf v :=
  ⟨rfl, le_refl _, start_le_cut v len, cut_le_stop h len⟩

theorem splitAt_snd_partOf (h : v.start ≤ v.stop) (len : Nat) : (v.splitAt len).2.PartOf v :=
  ⟨rfl, start_le_cut v len, cut_le_stop h len, le_refl _⟩

theorem aligned_splitAt (h : v.Aligned) (hcut : isBoundary v.source (v.cut len) = true) :
    (v.splitAt len).1.Aligned ∧ (v.splitAt len).2.Aligned :=
  ⟨⟨h.1, hcut⟩, hcut, h.2⟩

theorem trimmed_partOf {s : Text} (h : v.text = .ok s) : v.trimmed.PartOf v := by
  have hstop := stop_eq (text_trimmed h)
  refine ⟨rfl, Nat.le_add_right _ _, by omega, Nat.sub_le _ _⟩

end View

section
variable {ε α β : Type} {x : Except ε α} {f : α → β} {b : β}

theorem exists_error_map : (∃ e, x.map f = .error e) ↔ ∃ e, x = .error e := by
  cases x <;> simp [Except.map]

theorem exists_ok_of_map (h : x.map f = .ok b) : ∃ a, x = .ok a ∧ f a = b := by
  cases x with
  | error e => cases h
  | ok a => exact ⟨a, rfl, Except.ok.inj h⟩

end

namespace ViewStep
variable {views : List View} {v : View} {s : ViewStep} {r : Effect}

/-- When a step on the view fails. What looks at the text of the view fails if an end of the view is
inside a character. A token needs the boundaries where it starts and where it ends, but not the one
where the view stops. The rest goes by offsets alone. -/
def FailsOn (v : View) : ViewStep → Prop
  | trim | head | text | find | headIn _ | beginsWith _ => ¬ v.Aligned
  | take len _ => ¬ (isBoundary v.source v.start = true ∧ isBoundary v.source (v.cut len) = true)
  | splitAt _ | copy | sameAs _ => False

theorem effect_fails_iff (h : v.start ≤ v.stop) (views : List View) (s : ViewStep) :
    (∃ e, s.effect views v = .error e) ↔ s.FailsOn v := by
  have htext := View.text_fails_iff h
  cases s with
  | trim => exact exists_error_map.trans (exists_error_map.trans htext)
  | head => exact exists_error_map.trans (exists_error_map.trans htext)
  | text => exact exists_error_map.trans htext
  | find => exact exists_error_map.trans htext
  | headIn set => exact exists_error_map.trans (exists_error_map.trans htext)
  | beginsWith pattern => exact exists_error_map.trans (exists_error_map.trans htext)
  | take len kind =>
      have hpiece := View.text_fails_iff (View.splitAt_fst_partOf h len).start_le
      exact exists_error_map.trans (exists_error_map.trans hpiece)
  | splitAt len => simp [effect, FailsOn]
  | copy => simp [effect, FailsOn]
  | sameAs other => simp [effect, FailsOn]

/-- The step answers something about the view and leaves it as it is. -/
def Looks : ViewStep → Prop
  | head | text | find | headIn _ | beginsWith _ | sameAs _ => True
  | trim | take _ _ | splitAt _ | copy => False

/-- What a step that does not fail leaves of its view. -/
inductive Leaves (v : View) : ViewStep → Effect → Prop
  | trim {s : Text} : v.text = .ok s → Leaves v .trim ⟨.nothing, v.trimmed, none⟩
  | take {len : Nat} {kind : TokenKind} {s : Text} : (v.splitAt len).1.text = .ok s →
      Leaves v (.take len kind)
        ⟨.token ⟨kind, s, ⟨v.start, v.cut len⟩⟩, (v.splitAt len).2, none⟩
  | splitAt {len : Nat} :
      Leaves v (.splitAt len) ⟨.nothing, (v.splitAt len).2, some (v.splitAt len).1⟩
  | copy : Leaves v .copy ⟨.nothing, v, some v⟩
  | look {s : ViewStep} {reply : Reply} : s.Looks → Leaves v s ⟨reply, v, none⟩

theorem leaves_of_effect (h : s.effect views v = .ok r) : Leaves v s r := by
  cases s with
  | trim =>
      obtain ⟨w, hw, rfl⟩ := exists_ok_of_map h
      obtain ⟨s, hs, -⟩ := exists_ok_of_map hw
      obtain rfl : v.trimmed = w := Except.ok.inj ((View.trim_eq hs).symm.trans hw)
      exact .trim hs
  | take len kind =>
      obtain ⟨w, hw, rfl⟩ := exists_ok_of_map h
      obtain ⟨s, hs, rfl⟩ := exists_ok_of_map hw
      exact .take hs
  | splitAt len =>
      obtain rfl := Except.ok.inj h
      exact .splitAt
  | copy =>
      obtain rfl := Except.ok.inj h
      exact .copy
  | sameAs other =>
      obtain rfl := Except.ok.inj h
      exact .look trivial
  | head =>
      obtain ⟨c, -, rfl⟩ := exists_ok_of_map h
      exact .look trivial
  | text =>
      obtain ⟨s, -, rfl⟩ := exists_ok_of_map h
      exact .look trivial
  | find =>
      obtain ⟨s, -, rfl⟩ := exists_ok_of_map h
      exact .look trivial
  | headIn set =>
      obtain ⟨b, -, rfl⟩ := exists_ok_of_map h
      exact .look trivial
  | beginsWith pattern =>
      obtain ⟨b, -, rfl⟩ := exists_ok_of_map h
      exact .look trivial

/-- The view only gets narrower, and what is added is a part of it too. -/
theorem Leaves.partOf (h : Leaves v s r) (hle : v.start ≤ v.stop) :
    r.view.PartOf v ∧ ∀ w ∈ r.created, w.PartOf v := by
  cases h with
  | trim hs => exact ⟨View.trimmed_partOf hs, nofun⟩
  | take hs => exact ⟨View.splitAt_snd_partOf hle _, nofun⟩
  | @splitAt len =>
      refine ⟨View.splitAt_snd_partOf hle len, ?_⟩
      rintro w ⟨⟩
      exact View.splitAt_fst_partOf hle len
  | copy =>
      refine ⟨.refl hle, ?_⟩
      rintro w ⟨⟩
      exact .refl hle
  | look _ => exact ⟨.refl hle, nofun⟩

/-- Only splitting may put an end of a view inside a character. -/
theorem Leaves.aligned (h : Leaves v s r) (hv : v.Aligned)
    (hsplit : ∀ len, s = .splitAt len → isBoundary v.source (v.cut len) = true) :
    r.view.Aligned ∧ ∀ w ∈ r.created, w.Aligned := by
  cases h with
  | trim hs => exact ⟨.of_text (View.text_trimmed hs), nofun⟩
  | take hs =>
      have hcut := (View.Aligned.of_text hs).2
      exact ⟨(View.aligned_splitAt hv hcut).2, nofun⟩
  | @splitAt len =>
      have hends := View.aligned_splitAt hv (hsplit len rfl)
      refine ⟨hends.2, ?_⟩
      rintro w ⟨⟩
      exact hends.1
  | copy =>
      refine ⟨hv, ?_⟩
      rintro w ⟨⟩
      exact hv
  | look _ => exact ⟨hv, nofun⟩

end ViewStep

namespace ViewScript
variable {src : Text} {views after : List View} {index : Nat} {v : View} {s : ViewStep} {r : Effect}
  {e : Text.SliceError} {report : StepReport}

theorem step_eq_ok (hv : views[index]? = some v) (h : s.effect views v = .ok r) :
    step views index s =
      some (⟨.ok r.reply, r.view, r.created.map fun w => (views.length, w)⟩,
        views.set index r.view ++ r.created.toList) := by
  simp only [step, hv, h]

theorem step_eq_error (hv : views[index]? = some v) (h : s.effect views v = .error e) :
    step views index s = some (⟨.error e, v, none⟩, views) := by
  simp only [step, hv, h]

/-- A step that is taken has its view, and fails or has an effect on it. -/
theorem step_cases (h : step views index s = some (report, after)) :
    ∃ v, views[index]? = some v ∧
      ((∃ e, s.effect views v = .error e ∧ report = ⟨.error e, v, none⟩ ∧ after = views) ∨
        ∃ r, s.effect views v = .ok r ∧
          report = ⟨.ok r.reply, r.view, r.created.map fun w => (views.length, w)⟩ ∧
          after = views.set index r.view ++ r.created.toList) := by
  cases hv : views[index]? with
  | none => simp [step, hv] at h
  | some v =>
      refine ⟨v, rfl, ?_⟩
      cases heffect : s.effect views v with
      | error e =>
          rw [step_eq_error hv heffect] at h
          obtain ⟨rfl, rfl⟩ := Prod.mk.inj (Option.some.inj h)
          exact .inl ⟨e, rfl, rfl, rfl⟩
      | ok r =>
          rw [step_eq_ok hv heffect] at h
          obtain ⟨rfl, rfl⟩ := Prod.mk.inj (Option.some.inj h)
          exact .inr ⟨r, rfl, rfl, rfl⟩

/-- What holds of all views before a step, and of those that it leaves and adds, holds of all views
after it. -/
theorem forall_mem_after {P : View → Prop} (hviews : ∀ w ∈ views, P w) (hview : P r.view)
    (hcreated : ∀ w ∈ r.created, P w) :
    ∀ w ∈ views.set index r.view ++ r.created.toList, P w := by
  intro w hw
  rcases List.mem_append.mp hw with hw | hw
  · rcases List.mem_or_eq_of_mem_set hw with hw | rfl
    · exact hviews w hw
    · exact hview
  · exact hcreated w (Option.mem_toList.mp hw)

theorem inText_of_step (hviews : ∀ w ∈ views, w.InText src)
    (h : step views index s = some (report, after)) : ∀ w ∈ after, w.InText src := by
  obtain ⟨v, hv, ⟨e, -, -, rfl⟩ | ⟨r, heffect, -, rfl⟩⟩ := step_cases h
  · exact hviews
  · have hin := hviews v (List.mem_of_getElem? hv)
    have hparts := (ViewStep.leaves_of_effect heffect).partOf hin.start_le
    exact forall_mem_after hviews (hparts.1.inText hin) fun w hw => (hparts.2 w hw).inText hin

/-- A run that gets through takes its first step and goes on with the others. -/
theorem run_cons_cases {steps : List (Nat × ViewStep)} {reports : List StepReport}
    (h : run views ((index, s) :: steps) = some (reports, after)) :
    ∃ report next rest, step views index s = some (report, next) ∧
      run next steps = some (rest, after) ∧ reports = report :: rest := by
  rw [run] at h
  split at h
  · cases h
  · rename_i report next hstep
    obtain ⟨⟨rest, last⟩, hrest, heq⟩ := Option.map_eq_some_iff.mp h
    obtain ⟨rfl, rfl⟩ := Prod.mk.inj heq
    exact ⟨report, next, rest, hstep, hrest, rfl⟩

end ViewScript

end ArithGrammar
