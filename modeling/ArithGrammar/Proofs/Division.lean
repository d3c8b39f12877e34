import ArithGrammar.Proofs.ViewSafety

/-!
# What consuming steps make of a view

Trimming, taking and splitting remove pieces of a view, trimming at both ends and the others at the
front. Nothing gets lost or is counted twice: the pieces removed at the front in the order of the
steps, the view that is left, and the pieces dropped behind in the reverse order stand one behind
the other and make up the view (`Span.Tiles`), so their bytes are its bytes. This goes for pieces
that end inside characters as well, which only splitting may leave behind
(`ViewScript.run_divides_view`).
-/
namespace ArithGrammar
open Text (byteLength slice)

namespace Text
variable {s t : Text} {start stop : Nat}

def bytes (s : Text) : List UInt8 := s.flatMap String.utf8EncodeChar

/-- The bytes of the text between two offsets. -/
def bytesIn (s : Text) (p : Span) : List UInt8 := (s.bytes.take p.stop).drop p.start

theorem length_bytes (s : Text) : s.bytes.length = byteLength s := by
  induction s with
  | nil => rfl
  | cons c s ih =>
      rw [bytes, List.flatMap_cons, List.length_append, String.length_utf8EncodeChar,
        byteLength_cons, ← ih]
      rfl

theorem bytes_append (s t : Text) : (s ++ t).bytes = s.bytes ++ t.bytes := List.flatMap_append

theorem bytesIn_of_slice (h : slice s start stop = .ok t) : s.bytesIn ⟨start, stop⟩ = t.bytes := by
  obtain ⟨before, after, rfl, rfl, rfl⟩ := slice_eq_ok_iff.mp h
  rw [bytesIn, bytes_append, bytes_append, ← length_bytes before, ← length_bytes t,
    ← List.length_append, List.take_left', List.drop_left']
  · rfl
  · rfl

theorem bytesIn_append (s : Text) {a m b : Nat} (ham : a ≤ m) (hmb : m ≤ b) :
    s.bytesIn ⟨a, m⟩ ++ s.bytesIn ⟨m, b⟩ = s.bytesIn ⟨a, b⟩ := by
  have htake : s.bytes.take m = (s.bytes.take b).take m := by
    rw [List.take_take, Nat.min_eq_left hmb]
  have hdrop : (s.bytes.take b).drop m = ((s.bytes.take b).drop a).drop (m - a) := by
    rw [List.drop_drop, Nat.add_sub_cancel' ham]
  calc s.bytesIn ⟨a, m⟩ ++ s.bytesIn ⟨m, b⟩
      = ((s.bytes.take b).take m).drop a ++ (s.bytes.take b).drop m := by
        rw [← htake]
        rfl
    _ = ((s.bytes.take b).drop a).take (m - a) ++ ((s.bytes.take b).drop a).drop (m - a) := by
        rw [List.drop_take, hdrop]
    _ = s.bytesIn ⟨a, b⟩ := List.take_append_drop _ _

end Text

namespace Span
variable {p : Span} {ps qs : List Span} {a b m : Nat} {s : Text}

/-- The spans stand one behind the other, from the first offset to the last. -/
def Tiles : Nat → List Span → Nat → Prop
  | a, [], b => a = b
  | a, p :: ps, b => p.start = a ∧ p.start ≤ p.stop ∧ Tiles p.stop ps b

theorem Tiles.le (h : Tiles a ps b) : a ≤ b := by
  induction ps generalizing a with
  | nil => exact le_of_eq h
  | cons p ps ih =>
      obtain ⟨rfl, hp, hps⟩ := h
      exact hp.trans (ih hps)

theorem Tiles.append (h : Tiles a ps m) (k : Tiles m qs b) : Tiles a (ps ++ qs) b := by
  induction ps generalizing a with
  | nil =>
      obtain rfl : a = m := h
      exact k
  | cons p ps ih =>
      obtain ⟨hstart, hp, hps⟩ := h
      exact ⟨hstart, hp, ih hps⟩

/-- The bytes of spans that stand one behind the other are those between their ends. -/
theorem Tiles.flatMap_bytesIn (h : Tiles a ps b) : ps.flatMap s.bytesIn = s.bytesIn ⟨a, b⟩ := by
  induction ps generalizing a with
  | nil =>
      obtain rfl : a = b := h
      rw [List.flatMap_nil, Text.bytesIn, List.drop_take, Nat.sub_self, List.take_zero]
  | cons p ps ih =>
      obtain ⟨rfl, hp, hps⟩ := h
      rw [List.flatMap_cons, ih hps]
      exact Text.bytesIn_append s hp hps.le

end Span

namespace View
variable {v : View} {s : Text}

def span (v : View) : Span := ⟨v.start, v.stop⟩

/-- What trimming drops is blank, at either end. -/
theorem exists_dropped (h : v.text = .ok s) : ∃ front behind : Text,
    slice v.source v.start v.trimmed.start = .ok front ∧ front.Blank ∧
      slice v.source v.trimmed.stop v.stop = .ok behind ∧ behind.Blank := by
  obtain ⟨behind, hbehind, hafter, hlength⟩ := Text.eq_run_append_trimmed s
  obtain ⟨before, after, hsource, hstart, hstop⟩ := text_eq_ok_iff.mp h
  have hs := CharSet.run_append_afterRun .blank s
  rw [hafter] at hs
  have hstart' := start_trimmed h
  have hstop' := stop_eq (text_trimmed h)
  have hsize := congrArg byteLength hs
  simp only [Text.byteLength_append] at hsize
  refine ⟨CharSet.blank.run s, behind, ?_, CharSet.all_run _ _, ?_, hbehind⟩
  · refine Text.slice_eq_ok_iff.mpr ⟨before, Text.trimmed s ++ behind ++ after, ?_, hstart, ?_⟩
    · rw [hsource]
      nth_rewrite 1 [← hs]
      simp only [List.append_assoc]
    · rw [hstart']
  · refine Text.slice_eq_ok_iff.mpr
      ⟨before ++ CharSet.blank.run s ++ Text.trimmed s, after, ?_, ?_, ?_⟩
    · rw [hsource]
      nth_rewrite 1 [← hs]
      simp only [List.append_assoc]
    · simp only [Text.byteLength_append]
      omega
    · omega

end View

/-- The step removes something of its view. -/
def ViewStep.Consumes : ViewStep → Prop
  | trim | take _ _ | splitAt _ => True
  | head | text | find | headIn _ | beginsWith _ | copy | sameAs _ => False

/-- How steps on a view of the text divide it: the pieces that they remove at the front, in their
order, the view that they leave, and the pieces that they drop behind, the last one first. A token
and a view that is split off are a piece each, and what is trimmed away is blank. -/
inductive Divides (src : Text) :
    View → List ViewStep → List StepReport → List Span → View → List Span → Prop
  | nil {v : View} : v.source = src → Divides src v [] [] [] v []
  | trim {v w rest : View} {steps : List ViewStep} {reports : List StepReport}
      {front behind : List Span} {s t : Text} :
      slice src v.start w.start = .ok s → s.Blank → slice src w.stop v.stop = .ok t → t.Blank →
      Divides src w steps reports front rest behind →
      Divides src v (.trim :: steps) (⟨.ok .nothing, w, none⟩ :: reports)
        (⟨v.start, w.start⟩ :: front) rest (behind ++ [⟨w.stop, v.stop⟩])
  | take {v w rest : View} {steps : List ViewStep} {reports : List StepReport}
      {front behind : List Span} {len : Nat} {t : Token} :
      slice src t.span.start t.span.stop = .ok t.text →
      Divides src w steps reports front rest behind →
      Divides src v (.take len t.kind :: steps) (⟨.ok (.token t), w, none⟩ :: reports)
        (t.span :: front) rest behind
  | splitAt {v w rest piece : View} {steps : List ViewStep} {reports : List StepReport}
      {front behind : List Span} {len index : Nat} :
      piece.source = src →
      Divides src w steps reports front rest behind →
      Divides src v (.splitAt len :: steps) (⟨.ok .nothing, w, some (index, piece)⟩ :: reports)
        (piece.span :: front) rest behind

namespace ViewScript
variable {v rest : View} {views heads after : List View} {s : ViewStep} {report : StepReport}
  {steps : List ViewStep} {reports : List StepReport}

theorem exists_run_first (v : View) (views : List View) (steps : List ViewStep) :
    ∃ reports rest heads,
      run (v :: views) (steps.map (Prod.mk 0)) = some (reports, rest :: heads) := by
  induction steps generalizing v views with
  | nil => exact ⟨[], v, views, rfl⟩
  | cons s steps ih =>
      have hv : (v :: views)[0]? = some v := rfl
      cases heffect : s.effect (v :: views) v with
      | error e =>
          obtain ⟨reports, rest, heads, hrun⟩ := ih v views
          refine ⟨⟨.error e, v, none⟩ :: reports, rest, heads, ?_⟩
          rw [List.map_cons, run, step_eq_error hv heffect]
          dsimp only
          rw [hrun, Option.map_some]
      | ok r =>
          obtain ⟨reports, rest, heads, hrun⟩ := ih r.view (views ++ r.created.toList)
          refine ⟨⟨.ok r.reply, r.view, r.created.map fun w => ((v :: views).length, w)⟩ :: reports,
            rest, heads, ?_⟩
          rw [List.map_cons, run, step_eq_ok hv heffect]
          dsimp only
          rw [List.set_cons_zero, List.cons_append, hrun, Option.map_some]

theorem exists_divides (hle : v.start ≤ v.stop) (hsteps : ∀ s ∈ steps, s.Consumes)
    (h : run (v :: views) (steps.map (Prod.mk 0)) = some (reports, rest :: heads))
    (hok : ∀ r ∈ reports, ¬ r.Fails) :
    ∃ front behind, Divides v.source v steps reports front rest behind ∧
      Span.Tiles v.start (front ++ rest.span :: behind) v.stop := by
  induction steps generalizing v views reports with
  | nil =>
      obtain ⟨rfl, hviews⟩ := Prod.mk.inj (Option.some.inj h)
      obtain ⟨rfl, -⟩ := List.cons.inj hviews
      exact ⟨[], [], .nil rfl, rfl, hle, rfl⟩
  | cons s steps ih =>
      obtain ⟨report, next, later, hstep, hrest, rfl⟩ := run_cons_cases h
      obtain ⟨hhead, htail⟩ := List.forall_mem_cons.mp hok
      obtain ⟨hconsumes, hsteps⟩ := List.forall_mem_cons.mp hsteps
      obtain ⟨w, hw, ⟨e, -, rfl, -⟩ | ⟨r, heffect, rfl, rfl⟩⟩ := step_cases hstep
      · exact absurd ⟨e, rfl⟩ hhead
      obtain rfl : v = w := Option.some.inj hw
      rw [List.set_cons_zero, List.cons_append] at hrest
      have hleaves := ViewStep.leaves_of_effect heffect
      have hpart := (hleaves.partOf hle).1
      obtain ⟨front, behind, hdivides, htiles⟩ := ih hpart.start_le hsteps hrest htail
      rw [hpart.source] at hdivides
      cases hleaves with
      | trim hs =>
          obtain ⟨s, t, hfront, hs', hbehind, ht⟩ := View.exists_dropped hs
          have hends : Span.Tiles v.trimmed.start
              (front ++ rest.span :: (behind ++ [⟨v.trimmed.stop, v.stop⟩])) v.stop := by
            rw [← List.cons_append, ← List.append_assoc]
            exact htiles.append ⟨rfl, hpart.stop_le, rfl⟩
          exact ⟨_, _, .trim hfront hs' hbehind ht hdivides, rfl, hpart.start_ge, hends⟩
      | @take len kind t hs =>
          exact ⟨⟨v.start, v.cut len⟩ :: front, behind,
            .take (t := ⟨kind, t, ⟨v.start, v.cut len⟩⟩) hs hdivides, rfl, hpart.start_ge, htiles⟩
      | @splitAt len =>
          exact ⟨⟨v.start, v.cut len⟩ :: front, behind, .splitAt rfl hdivides, rfl, hpart.start_ge,
            htiles⟩
      | copy => exact hconsumes.elim
      | look hlooks =>
          cases s with
          | trim | take | splitAt => exact hlooks.elim
          | head | text | find | headIn | beginsWith | copy | sameAs => exact hconsumes.elim

/-- Trimming, taking and splitting an aligned view, in any order, divide it: as long as nothing
fails its bytes are those of the pieces removed at the front, of the view that is left, and of the
pieces dropped behind. -/
theorem run_divides_view (c : View) (hle : c.start ≤ c.stop) (hc : c.Aligned)
    (steps : List ViewStep) (hsteps : ∀ s ∈ steps, s.Consumes) :
    ∃ s reports rest heads, c.text = .ok s ∧
      run [c] (steps.map (Prod.mk 0)) = some (reports, rest :: heads) ∧
      ((∀ r ∈ reports, ¬ r.Fails) → ∃ front behind,
          Divides c.source c steps reports front rest behind ∧
        Span.Tiles c.start (front ++ rest.span :: behind) c.stop ∧
        (front ++ rest.span :: behind).flatMap c.source.bytesIn = s.bytes) := by
  obtain ⟨s, hs⟩ := (View.exists_text_iff hle).mpr hc
  obtain ⟨reports, rest, heads, hrun⟩ := exists_run_first c [] steps
  refine ⟨s, reports, rest, heads, hs, hrun, ?_⟩
  intro hok
  obtain ⟨front, behind, hdivides, htiles⟩ := exists_divides hle hsteps hrun hok
  refine ⟨front, behind, hdivides, htiles, ?_⟩
  rw [htiles.flatMap_bytesIn]
  exact Text.bytesIn_of_slice hs

/-- Pieces with blanks between them, the last one shorter than was asked for. -/
theorem run_divides_view_of_group :
    let c : View := ⟨"(  é + 1 )".toList, 1, 10⟩
    let steps : List ViewStep :=
      [.trim, .splitAt 2, .trim, .take 1 .addOp, .trim, .take 99 .integer]
    c.start ≤ c.stop ∧ c.Aligned ∧ (∀ s ∈ steps, s.Consumes) ∧
      (∀ r ∈ run [c] (steps.map (Prod.mk 0)), ∀ report ∈ r.1, report.reply.isOk = true) ∧
      ∃ s reports rest heads, c.text = .ok s ∧
        run [c] (steps.map (Prod.mk 0)) = some (reports, rest :: heads) ∧
        ((∀ r ∈ reports, ¬ r.Fails) → ∃ front behind,
          Divides c.source c steps reports front rest behind ∧
          Span.Tiles c.start (front ++ rest.span :: behind) c.stop ∧
          (front ++ rest.span :: behind).flatMap c.source.bytesIn = s.bytes) := by
  intro c steps
  have hle : c.start ≤ c.stop := by decide
  have hc : c.Aligned := ⟨by decide +kernel, by decide +kernel⟩
  have hsteps : ∀ s ∈ steps, s.Consumes := by simp [steps, ViewStep.Consumes]
  refine ⟨hle, hc, hsteps, ?_, run_divides_view c hle hc steps hsteps⟩
  decide +kernel

end ViewScript

end ArithGrammar
