import ArithGrammar.Attempt
import ArithGrammar.Proofs.Layout

/-!
# Views with a text

A view that has a text is known by its source, its stop and that text: whatever is consumed from
its front leaves the view `back r` of the text `r` that is left. Here each operation on views is
given for a view whose text is known, and none of them fails. Offsets occur in the tokens only.
-/
namespace ArithGrammar

namespace View
variable {v : View} {s t r : Text}

/-- The end of the view that has room for just the text `r`. -/
def back (v : View) (r : Text) : View := { v with start := v.stop - Text.byteLength r }

@[simp] theorem stop_back (v : View) (r : Text) : (v.back r).stop = v.stop := rfl

@[simp] theorem source_back (v : View) (r : Text) : (v.back r).source = v.source := rfl

@[simp] theorem back_back (v : View) (r t : Text) : (v.back r).back t = v.back t := rfl

@[simp] theorem source_whole (s : Text) : (whole s).source = s := rfl

@[simp] theorem start_whole (s : Text) : (whole s).start = 0 := rfl

theorem stop_eq (h : v.text = .ok s) : v.stop = v.start + Text.byteLength s := by
  obtain ⟨before, after, -, -, hstop⟩ := text_eq_ok_iff.mp h
  exact hstop.symm

theorem length_eq (h : v.text = .ok s) : v.length = Text.byteLength s := by
  rw [length, stop_eq h, Nat.add_sub_cancel_left]

theorem byteLength_lt_length {c : Char} (h : v.text = .ok (c :: s)) :
    Text.byteLength s < v.length := by
  have hsize := c.utf8Size_pos
  rw [length_eq h, Text.byteLength_cons]
  omega

theorem isEmpty_iff (h : v.text = .ok s) : v.isEmpty = true ↔ s = [] := by
  rw [isEmpty, decide_eq_true_iff, stop_eq h, ← Text.byteLength_eq_zero]
  omega

theorem start_back (h : v.text = .ok (t ++ r)) :
    (v.back r).start = v.start + Text.byteLength t := by
  have hstop := stop_eq h
  rw [Text.byteLength_append] at hstop
  change v.stop - Text.byteLength r = _
  omega

theorem back_self (h : v.text = .ok s) : v.back s = v := by
  have hstart : (v.back s).start = v.start := by simpa using start_back (t := []) h
  cases v
  simpa [back] using hstart

theorem text_back (h : v.text = .ok (t ++ r)) : (v.back r).text = .ok r := by
  obtain ⟨before, after, hsource, hstart, hstop⟩ := text_eq_ok_iff.mp h
  refine text_eq_ok_iff.mpr ⟨before ++ t, after, ?_, ?_, ?_⟩
  · simpa using hsource
  · rw [start_back h, Text.byteLength_append, hstart]
  · rw [start_back h, stop_back, ← hstop, Text.byteLength_append, Nat.add_assoc]

theorem text_back_cons {c : Char} (h : v.text = .ok (c :: s)) : (v.back s).text = .ok s :=
  text_back (t := [c]) h

theorem start_back_cons {c : Char} (h : v.text = .ok (c :: s)) :
    (v.back s).start = v.start + c.utf8Size :=
  start_back (t := [c]) h

theorem cut_eq (h : v.text = .ok (t ++ r)) :
    v.cut (Text.byteLength t) = v.start + Text.byteLength t := by
  rw [cut, length_eq h, Text.byteLength_append]
  omega

theorem splitAt_snd (h : v.text = .ok (t ++ r)) :
    (v.splitAt (Text.byteLength t)).2 = v.back r := by
  rw [splitAt, cut_eq h, ← start_back h]
  rfl

@[simp] theorem start_splitAt_fst (v : View) (len : Nat) : (v.splitAt len).1.start = v.start := rfl

theorem text_splitAt_fst (h : v.text = .ok (t ++ r)) :
    (v.splitAt (Text.byteLength t)).1.text = .ok t := by
  obtain ⟨before, after, hsource, hstart, hstop⟩ := text_eq_ok_iff.mp h
  refine text_eq_ok_iff.mpr ⟨before, r ++ after, ?_, hstart, ?_⟩
  · simpa using hsource
  · rw [stop_splitAt_fst, splitAt_snd h, start_back h, start_splitAt_fst]

theorem take_eq (h : v.text = .ok (t ++ r)) (kind : TokenKind) :
    v.take (Text.byteLength t) kind = .ok (Token.placed v.start kind t, v.back r) := by
  rw [take, text_splitAt_fst h, splitAt_snd h, cut_eq h]
  rfl

theorem head?_eq (h : v.text = .ok s) : v.head? = .ok s.head? := by
  rw [head?, h]
  rfl

theorem headIn_eq (h : v.text = .ok s) (set : CharSet) :
    v.headIn set = .ok (s.head?.any set.contains) := by
  rw [headIn, h]
  rfl

theorem beginsWith_eq (h : v.text = .ok s) (pattern : Text) :
    v.beginsWith pattern = .ok (pattern.isPrefixOf s) := by
  rw [beginsWith, h]
  rfl

/-- The view without the blanks at its ends, for a view that has a text. -/
def trimmed (v : View) : View :=
  { v with
    start := v.start + Text.byteLength (CharSet.blank.run v.chars)
    stop := v.stop - blanksBehind (CharSet.blank.afterRun v.chars) }

@[simp] theorem source_trimmed (v : View) : v.trimmed.source = v.source := rfl

theorem trim_eq (h : v.text = .ok s) : v.trim = .ok v.trimmed := by
  rw [trim, trimmed, chars_eq h, h]
  rfl

theorem start_trimmed (h : v.text = .ok s) :
    v.trimmed.start = v.start + Text.byteLength (CharSet.blank.run s) := by
  rw [trimmed, chars_eq h]

theorem text_trimmed (h : v.text = .ok s) : v.trimmed.text = .ok (Text.trimmed s) := by
  obtain ⟨behind, -, hbehind, hlen⟩ := Text.eq_run_append_trimmed s
  obtain ⟨before, after, hsource, hstart, hstop⟩ := text_eq_ok_iff.mp h
  have hs : CharSet.blank.run s ++ (Text.trimmed s ++ behind) = s := by
    rw [← hbehind, CharSet.run_append_afterRun]
  refine text_eq_ok_iff.mpr ⟨before ++ CharSet.blank.run s, behind ++ after, ?_, ?_, ?_⟩
  · rw [source_trimmed, hsource]
    nth_rewrite 1 [← hs]
    simp only [List.append_assoc]
  · rw [start_trimmed h, Text.byteLength_append, hstart]
  · have hbytes := congrArg Text.byteLength hs
    simp only [Text.byteLength_append] at hbytes
    have hstop' : v.trimmed.stop = v.stop - Text.byteLength behind := by
      rw [trimmed, chars_eq h, hlen]
    rw [start_trimmed h, hstop']
    omega

theorem length_trimmed_le (h : v.text = .ok s) : v.trimmed.length ≤ v.length := by
  rw [length_eq (text_trimmed h), length_eq h]
  exact Text.byteLength_trimmed_le s

theorem trimmed_eq_back (h : v.text = .ok s) (hs : s.EndsSolid) :
    v.trimmed = v.back (CharSet.blank.afterRun s) := by
  obtain ⟨behind, -, hbehind, hlen⟩ := Text.eq_run_append_trimmed s
  rw [Text.trimmed_of_endsSolid hs, List.self_eq_append_right] at hbehind
  subst hbehind
  have hback := start_back (t := CharSet.blank.run s) (r := CharSet.blank.afterRun s)
    (by rwa [CharSet.run_append_afterRun])
  rw [trimmed, chars_eq h, hlen, ← hback]
  rfl

theorem trimmed_trimmed (h : v.text = .ok s) : v.trimmed.trimmed = v.trimmed := by
  have htext := text_trimmed h
  have hahead : CharSet.blank.NotAhead s.trimmed := Text.notAhead_trimmed s
  rw [trimmed_eq_back htext (Text.endsSolid_trimmed s), CharSet.afterRun_eq_self hahead,
    back_self htext]

end View

end ArithGrammar
