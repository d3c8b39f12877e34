import ArithGrammar.Proofs.OnePassAgreement
import ArithGrammar.Proofs.Separators
import ArithGrammar.Proofs.ViewSteps

/-!
# What is unread behind the tokens

The tokens read so far show what is left to read next: the text behind the last of them, up to the
parenthesis that closes the innermost group they leave open, or up to the end of the text where none
is open (`Token.Unread`). A view faces this part of the text if it shows all of it, but perhaps for
blanks at its ends (`View.Faces`). What reading does to a view keeps it so: trimming, reading on,
entering a group and coming out of it again.

What is unread is settled by the text and the tokens (`Token.Unread.unique`).
-/
namespace ArithGrammar
open Text (byteLength slice)

theorem Text.slice_behind_open {before : Text} {n : Nat} (hbefore : byteLength before = n)
    (rest : Text) :
    slice (before ++ '(' :: rest) (n + 1) (byteLength (before ++ '(' :: rest)) = .ok rest := by
  have hslice := Text.slice_behind (before ++ ['(']) rest
  rwa [List.append_assoc, List.singleton_append, Text.byteLength_append, hbefore] at hslice

theorem Text.trimmed_trimmed (s : Text) : s.trimmed.trimmed = s.trimmed := by
  have h := Text.trimmed_append CharSet.all_nil CharSet.all_nil (Text.notAhead_trimmed s)
    (Text.endsSolid_trimmed s)
  rwa [List.nil_append, List.append_nil] at h

namespace Token

/-- The groups open behind one more token, by the tokens that open them, the innermost first. -/
def reopen (opened : List Token) (t : Token) : List Token :=
  match t.kind with
  | .openParen => t :: opened
  | .closeParen => opened.tail
  | _ => opened

/-- The groups that the tokens leave open, the innermost first. -/
def openers (tokens : List Token) : List Token := tokens.foldl reopen []

@[simp] theorem openers_concat (tokens : List Token) (t : Token) :
    openers (tokens ++ [t]) = reopen (openers tokens) t := by
  rw [openers, List.foldl_append]
  rfl

@[simp] theorem readUntil_concat (tokens : List Token) (t : Token) :
    readUntil (tokens ++ [t]) = t.span.stop := by
  rw [readUntil, List.getLast?_concat]
  rfl

/-- The token opens a group with the text `inner`, and behind its closing parenthesis the text goes
on with `after`. -/
structure Encloses (input : Text) (t : Token) (inner after : Text) : Prop where
  kind_eq : t.kind = .openParen
  exists_before : ∃ before, input = before ++ '(' :: (inner ++ ')' :: after) ∧
    byteLength before = t.span.start
  balanced : Balanced inner

/-- What is outside of the innermost of the open groups: all from its closing parenthesis on. -/
def Outside (input : Text) : List Token → Text → Prop
  | [], outside => outside = []
  | t :: _, outside => ∃ inner after, t.Encloses input inner after ∧ outside = ')' :: after

/-- What is unread behind the tokens, up to the end of the innermost group they leave open. -/
def Unread (input : Text) (tokens : List Token) (unread : Text) : Prop :=
  ∃ before outside, input = before ++ (unread ++ outside) ∧
    byteLength before = readUntil tokens ∧ Outside input (openers tokens) outside

section
variable {input inner inner' after after' unread unread' outside outside' : Text} {t : Token}
  {opened tokens : List Token}

theorem Encloses.unique (h : t.Encloses input inner after) (k : t.Encloses input inner' after') :
    inner = inner' ∧ after = after' := by
  obtain ⟨before, hinput, hbefore⟩ := h.exists_before
  obtain ⟨before', hinput', hbefore'⟩ := k.exists_before
  obtain ⟨-, hrest⟩ := Text.append_inj_of_byteLength (hinput.symm.trans hinput')
    (hbefore.trans hbefore'.symm)
  have hgroup : inner ++ ')' :: after = inner' ++ ')' :: after' := (List.cons.inj hrest).2
  have hclose := Literal.closing?_append h.balanced after
  rw [hgroup, Literal.closing?_append k.balanced] at hclose
  obtain ⟨hinner, hafter⟩ := Text.append_inj_of_byteLength hgroup (Option.some.inj hclose).symm
  exact ⟨hinner, (List.cons.inj hafter).2⟩

theorem Outside.unique (h : Outside input opened outside) (k : Outside input opened outside') :
    outside = outside' := by
  cases opened with
  | nil => exact Eq.trans h (Eq.symm k)
  | cons t opened =>
      obtain ⟨inner, after, hencloses, rfl⟩ := h
      obtain ⟨inner', after', hencloses', rfl⟩ := k
      rw [(hencloses.unique hencloses').2]

theorem Unread.unique (h : Unread input tokens unread) (k : Unread input tokens unread') :
    unread = unread' := by
  obtain ⟨before, outside, hinput, hbefore, houtside⟩ := h
  obtain ⟨before', outside', hinput', hbefore', houtside'⟩ := k
  obtain ⟨-, hrest⟩ := Text.append_inj_of_byteLength (hinput.symm.trans hinput')
    (hbefore.trans hbefore'.symm)
  rw [houtside.unique houtside'] at hrest
  exact List.append_cancel_right hrest

/-- What is closed by a balanced text and a parenthesis is not unmatched. -/
theorem Encloses.not_unmatched (h : t.Encloses input inner after) : ¬ t.Unmatched input := by
  rintro ⟨-, rest, hrest, hnone⟩
  obtain ⟨before, rfl, hbefore⟩ := h.exists_before
  have hslice := Text.slice_behind_open hbefore (inner ++ ')' :: after)
  obtain rfl := Except.ok.inj (hrest.symm.trans hslice)
  rw [Literal.closing?_append h.balanced] at hnone
  cases hnone

end

end Token

/-- Behind the tokens and a gap of blanks the view shows the text `s`, behind it there are only
blanks until what is outside of the innermost open group, and inside a group no parenthesis is left
over. -/
structure View.SetIn (input : Text) (opened tokens : List Token) (gap s behind outside : Text)
    (v : View) : Prop where
  openers_eq : Token.openers tokens = opened
  text_eq : v.text = .ok s
  exists_before : ∃ before, input = before ++ (gap ++ (s ++ (behind ++ outside))) ∧
    byteLength before = Token.readUntil tokens ∧ v.start = byteLength (before ++ gap)
  gap_blank : gap.Blank
  behind_blank : behind.Blank
  outside_eq : Token.Outside input opened outside
  balanced : opened ≠ [] → Balanced (s ++ behind)

/-- The view shows the text, which is all that is unread but for blanks. -/
def View.Faces (input : Text) (opened tokens : List Token) (s : Text) (v : View) : Prop :=
  ∃ gap behind outside, v.SetIn input opened tokens gap s behind outside

namespace View.Faces
variable {input s t r inner : Text} {opened tokens tokens' : List Token} {v : View}
  {kind : TokenKind}

theorem whole (input : Text) : (View.whole input).Faces input [] [] input := by
  refine ⟨[], [], [], rfl, View.text_whole input, ⟨[], by simp, rfl, rfl⟩, CharSet.all_nil,
    CharSet.all_nil, rfl, ?_⟩
  exact fun h => absurd rfl h

theorem openers_eq (h : v.Faces input opened tokens s) : Token.openers tokens = opened := by
  obtain ⟨gap, behind, outside, h⟩ := h
  exact h.openers_eq

theorem text_eq (h : v.Faces input opened tokens s) : v.text = .ok s := by
  obtain ⟨gap, behind, outside, h⟩ := h
  exact h.text_eq

/-- The view shows what is unread, up to blanks. -/
theorem exists_unread (h : v.Faces input opened tokens s) :
    ∃ u, Token.Unread input tokens u ∧ u.trimmed = s.trimmed := by
  obtain ⟨gap, behind, outside, h⟩ := h
  obtain ⟨before, hinput, hbefore, -⟩ := h.exists_before
  have houtside := h.outside_eq
  rw [← h.openers_eq] at houtside
  refine ⟨gap ++ s ++ behind, ⟨before, outside, ?_, hbefore, houtside⟩,
    Text.trimmed_of_blank_around h.gap_blank h.behind_blank s⟩
  rw [hinput]
  simp only [List.append_assoc]

theorem trimmed (h : v.Faces input opened tokens s) :
    v.trimmed.Faces input opened tokens s.trimmed := by
  obtain ⟨gap, behind, outside, h⟩ := h
  obtain ⟨before, hinput, hbefore, hstart⟩ := h.exists_before
  obtain ⟨rest, hrest, hafter, -⟩ := Text.eq_run_append_trimmed s
  have hs := CharSet.run_append_afterRun .blank s
  rw [hafter] at hs
  have hrun := CharSet.all_run .blank s
  refine ⟨gap ++ CharSet.blank.run s, rest ++ behind, outside, h.openers_eq,
    View.text_trimmed h.text_eq, ⟨before, ?_, hbefore, ?_⟩,
    CharSet.all_append.mpr ⟨h.gap_blank, hrun⟩, CharSet.all_append.mpr ⟨hrest, h.behind_blank⟩,
    h.outside_eq, fun hne => ?_⟩
  · rw [hinput]
    nth_rewrite 1 [← hs]
    simp only [List.append_assoc]
  · rw [View.start_trimmed h.text_eq, hstart]
    simp only [Text.byteLength_append, Nat.add_assoc]
  · have hbalanced := h.balanced hne
    rw [← hs, List.append_assoc] at hbalanced
    have hkept := hbalanced.of_append (.of_blank hrun)
    rwa [List.append_assoc] at hkept

/-- What is read on is behind the view then, if it is balanced and leaves open what was open. -/
theorem advance (h : v.Faces input opened tokens (t ++ r)) (ht : Balanced t)
    (hopened : Token.openers tokens' = opened)
    (huntil : Token.readUntil tokens' = v.start + byteLength t) :
    (v.back r).Faces input opened tokens' r := by
  obtain ⟨gap, behind, outside, h⟩ := h
  obtain ⟨before, hinput, -, hstart⟩ := h.exists_before
  refine ⟨[], behind, outside, hopened, View.text_back h.text_eq, ⟨before ++ gap ++ t, ?_, ?_, ?_⟩,
    CharSet.all_nil, h.behind_blank, h.outside_eq, fun hne => ?_⟩
  · rw [hinput]
    simp only [List.append_assoc, List.nil_append]
  · rw [huntil, hstart, Text.byteLength_append _ t]
  · rw [View.start_back h.text_eq, hstart, List.append_nil, Text.byteLength_append _ t]
  · have hbalanced := h.balanced hne
    rw [List.append_assoc] at hbalanced
    exact hbalanced.of_append ht

theorem read (h : v.Faces input opened tokens (t ++ r)) (ht : Balanced t)
    (hopen : kind ≠ .openParen) (hclose : kind ≠ .closeParen) :
    (v.back r).Faces input opened (tokens ++ [Token.placed v.start kind t]) r := by
  refine h.advance ht ?_ ?_
  · rw [Token.openers_concat, h.openers_eq]
    cases kind <;> first | rfl | contradiction
  · exact Token.readUntil_concat _ _

section
variable (h : v.Faces input opened tokens ('(' :: (inner ++ ')' :: r))) (hinner : Balanced inner)
include h hinner

theorem encloses :
    ∃ after, (Token.placed v.start .openParen ['(']).Encloses input inner after := by
  obtain ⟨gap, behind, outside, h⟩ := h
  obtain ⟨before, hinput, -, hstart⟩ := h.exists_before
  refine ⟨r ++ (behind ++ outside), rfl, ⟨before ++ gap, ?_, hstart.symm⟩, hinner⟩
  rw [hinput]
  simp

/-- In a group that is entered its own text is unread. -/
theorem enterGroup :
    ((v.back (inner ++ ')' :: r)).splitAt (byteLength inner)).1.Faces input
      (Token.placed v.start .openParen ['('] :: opened)
      (tokens ++ [Token.placed v.start .openParen ['(']]) inner := by
  obtain ⟨after, hencloses⟩ := h.encloses hinner
  obtain ⟨before, hinput, hbefore⟩ := hencloses.exists_before
  have hrest : (v.back (inner ++ ')' :: r)).text = .ok (inner ++ ')' :: r) :=
    View.text_back_cons h.text_eq
  have hstop : byteLength before + byteLength ['('] = v.start + byteLength ['('] := by
    rw [hbefore]
    rfl
  refine ⟨[], [], ')' :: after, ?_, View.text_splitAt_fst hrest, ⟨before ++ ['('], ?_, ?_, ?_⟩,
    CharSet.all_nil, CharSet.all_nil, ⟨inner, after, hencloses, rfl⟩, fun _ => ?_⟩
  · rw [Token.openers_concat, h.openers_eq]
    rfl
  · rw [hinput]
    simp
  · rw [Token.readUntil_concat, Text.byteLength_append, hstop]
    rfl
  · rw [View.start_splitAt_fst, List.append_nil, Text.byteLength_append, hstop]
    exact View.start_back_cons h.text_eq
  · rwa [List.append_nil]

/-- Behind a group that was entered the same groups are open as before it. -/
theorem leaveGroup {t : Token} (hopened : Token.openers tokens' = t :: opened) :
    (v.back r).Faces input opened
      (tokens' ++ [Token.placed (v.start + 1 + byteLength inner) .closeParen [')']]) r := by
  have hgroup : Balanced ('(' :: inner ++ [')']) := .group hinner
  have hsplit : '(' :: (inner ++ ')' :: r) = ('(' :: inner ++ [')']) ++ r := by simp
  rw [hsplit] at h
  refine h.advance hgroup ?_ ?_
  · rw [Token.openers_concat, hopened]
    rfl
  · have hparens : byteLength ('(' :: inner ++ [')']) = 1 + byteLength inner + 1 := by
      rw [Text.byteLength_append]
      rfl
    rw [Token.readUntil_concat, hparens, ← Nat.add_assoc, ← Nat.add_assoc]
    rfl

end

theorem unmatched (h : v.Faces input opened tokens ('(' :: s)) (hnone : Literal.closing? s = none) :
    (Token.placed v.start .openParen ['(']).Unmatched input := by
  obtain ⟨gap, behind, outside, h⟩ := h
  cases opened with
  | nil =>
      obtain ⟨before, hinput, -, hstart⟩ := h.exists_before
      obtain rfl : outside = [] := h.outside_eq
      have hsplit : input = (before ++ gap) ++ '(' :: (s ++ behind) := by
        rw [hinput]
        simp
      refine ⟨rfl, s ++ behind, ?_, Literal.closing?_append_blank h.behind_blank hnone⟩
      rw [hsplit]
      exact Text.slice_behind_open hstart.symm (s ++ behind)
  | cons t opened =>
      obtain ⟨n, hn⟩ := (h.balanced (List.cons_ne_nil t opened)).exists_closing?
      cases hnone.symm.trans (Literal.closing?_of_append_blank h.behind_blank hn)

end View.Faces

end ArithGrammar
