import ArithGrammar.Proofs.EmptyGroups
import ArithGrammar.Proofs.GroupContents
import ArithGrammar.Proofs.TruthfulAccount

/-!
# Where groups end

The end of a group is looked up in the view on which the group is read. This view was cut at the end of
each group around it and has lost blanks at its ends, but the search comes to the same in it as in all
of the text behind the opening parenthesis (`closing?_eq_of_looksUp`). Every group around is balanced, so
it closes what is opened in it.

So a group that is not closed in the text is the last thing read (`ends_with_unmatched`), and the tokens
of any other show where it ends, whatever becomes of the attempt (`groups_end_where_found`).
-/
namespace ArithGrammar
open Attempt Reading
open Text (byteLength slice)

namespace Due.Run
variable {es front behind : List Event} {t : Token} {d : Due}

/-- An operand is due only where a factor has just been entered. -/
theorem exists_entered_factor (h : Run (entry .expression) es operand) :
    ∃ front v, es = front ++ [.entered .factor v] := by
  obtain ⟨-, heq⟩ | ⟨front, e, d, rfl, -, hstep⟩ := h.eq_or_exists_last
  · cases heq
  · generalize hd : operand = d' at hstep
    cases hstep with
    | enter rule v =>
        cases rule with
        | factor => exact ⟨front, v, rfl⟩
        | _ => cases hd
    | @first t _ | @more t _ => cases hkind : t.kind <;> rw [hkind] at hd <;> cases hd
    | opening _ | closing _ => cases hd

/-- Either a factor is entered in front of an opening parenthesis and nothing or an expression behind
it, or it is that of an empty group and only the closing one follows. -/
theorem opening_cases (h : Run (entry .expression) (front ++ .read t :: behind) d) (hd : d ≠ refusal)
    (ht : t.kind = .openParen) :
    (∃ before v, front = before ++ [.entered .factor v]) ∧
        (behind = [] ∨ ∃ w more, behind = .entered .expression w :: more) ∨
      ∃ u, behind = [.read u] ∧ u.kind = .closeParen := by
  obtain ⟨d₁, hfront, hrest⟩ := h.of_append
  cases hrest with
  | @cons _ d₂ _ _ _ hstep hbehind =>
      generalize hopen : Event.read t = e at hstep
      cases hstep with
      | enter rule v => cases hopen
      | @first u _ =>
          obtain rfl := Event.read.inj hopen
          rw [ht] at hbehind
          refine .inl ⟨hfront.exists_entered_factor, ?_⟩
          cases hbehind with
          | nil => exact .inl rfl
          | cons hnext _ =>
              cases hnext with
              | enter rule w => exact .inr ⟨w, _, rfl⟩
      | @more u hmore =>
          obtain rfl := Event.read.inj hopen
          rw [ht] at hmore
          cases hmore
      | opening _ =>
          cases hbehind with
          | nil => exact absurd rfl hd
          | cons hnext hend =>
              cases hnext with
              | @closing u hu =>
                  cases hend with
                  | nil => exact .inr ⟨u, rfl, hu⟩
                  | cons hnone _ => cases hnone
      | closing hclose =>
          obtain rfl := Event.read.inj hopen
          cases ht.symm.trans hclose

end Due.Run

/-- Both attempts are the same, and where room is wanting, a factor has just been entered. -/
def Attempt.SameEntered {α : Type} (x y : Attempt α) : Prop :=
  y = x ∧ (x.TooDeep → ∃ front v, x.trace = front ++ [.entered .factor v])

theorem congruence_sameEntered : Congruence fun _ x y => x.SameEntered y where
  refl h := ⟨rfl, fun hdeep => absurd hdeep h⟩
  bind {α β x y f g} hxy hfg := by
    obtain ⟨rfl, hx⟩ := hxy
    constructor
    · exact bind_congr_of_ok fun a ha => (hfg a ha).1
    · rintro ⟨limit, hdeep⟩
      cases hout : y.outcome with
      | error failure =>
          rw [(bind_of_error hout f).2] at hdeep
          obtain rfl : failure = .tooDeep limit := Except.error.inj hdeep
          rw [trace_bind_of_error hout]
          exact hx ⟨limit, hout⟩
      | ok a =>
          rw [(bind_of_ok hout f).outcome] at hdeep
          obtain ⟨front, v, htrace⟩ := (hfg a hout).2 ⟨limit, hdeep⟩
          exact ⟨y.trace ++ front, v, by rw [trace_bind_of_ok hout, htrace, List.append_assoc]⟩

namespace Reading

/-- Without any room there is none left right behind the entry of a factor. -/
theorem trace_of_noRoom {limit : Nat} {v : View} (h : (factor limit 0 v).TooDeep) :
    (factor limit 0 v).trace = [.entered .factor v] := by
  obtain ⟨n, h⟩ := h
  unfold factor operand at h ⊢
  cases hhead : v.head? with
  | error e =>
      rw [hhead] at h
      cases h
  | ok head =>
      rw [hhead, ofSlice_ok_bind] at h
      rw [ofSlice_ok_bind]
      rw [(bind_of_ok rfl _).outcome] at h
      rw [trace_bind_of_ok rfl]
      cases head with
      | none => cases h
      | some c =>
          dsimp only at h ⊢
          split_ifs at h ⊢
          · exact absurd ⟨n, h⟩ (not_tooDeep_number v)
          · exact absurd ⟨n, h⟩ (not_tooDeep_name v)
          · rfl
          · rfl
          · cases h

theorem sameEntered_factor (limit room : Nat) (v : View) :
    (factor limit room v).SameEntered (factor limit room v) := by
  have hR := congruence_sameEntered
  induction room generalizing v with
  | zero => exact ⟨rfl, fun hdeep => ⟨[], v, trace_of_noRoom hdeep⟩⟩
  | succ room ih => exact hR.operand (fun v _ _ => hR.group ih v) (fun v _ _ => hR.sign ih v) v

end Reading

theorem exists_entered_of_tooDeep {limit : NestingLimit} {input : Text}
    (h : (recognize limit input).TooDeep) :
    ∃ front v, (recognize limit input).trace = front ++ [.entered .factor v] := by
  have hR := congruence_sameEntered
  have hsame : (recognize limit input).SameEntered (recognize limit input) :=
    hR.same_bind (not_tooDeep_trim _) fun v _ =>
      hR.expression (Reading.sameEntered_factor limit.levels limit.levels) v
  exact hsame.2 h

theorem Laid.start_lt_of_mem {start : Nat} {ts : List Token} {s : Text} {t : Token}
    (h : Laid start ts s) (ht : t ∈ ts) : t.span.start < start + byteLength s := by
  induction ts generalizing start s with
  | nil => cases ht
  | cons u ts ih =>
      obtain ⟨gap, rest, rfl, -, -, hsolid, hspan, hrest⟩ := h
      have hpos : byteLength u.text ≠ 0 := hsolid.1 ∘ Text.byteLength_eq_zero.mp
      rw [Text.byteLength_append, Text.byteLength_append]
      cases ht with
      | head =>
          rw [hspan]
          dsimp only
          omega
      | tail _ ht =>
          have hlt := ih hrest ht
          omega

theorem Token.mem_of_mem_openers {tokens : List Token} {t : Token} (h : t ∈ openers tokens) :
    t ∈ tokens := by
  induction tokens using List.reverseRecOn with
  | nil => exact h
  | append_singleton tokens u ih =>
      rw [openers_concat, reopen] at h
      apply List.mem_append.mpr
      split at h
      · rcases List.mem_cons.mp h with rfl | h
        · exact .inr (List.mem_singleton_self _)
        · exact .inl (ih h)
      · exact .inl (ih (List.mem_of_mem_tail h))
      · exact .inl (ih h)

section
variable {limit : NestingLimit} {input s rest : Text} {before behind : List Token} {t : Token}

theorem exists_text_around (h : (recognize limit input).tokens = before ++ t :: behind)
    (ht : t.kind = .openParen) :
    ∃ front gap r left, input = front ++ gap ++ '(' :: (r ++ left) ∧ Laid 0 before front ∧
      gap.Blank ∧ byteLength (front ++ gap) = t.span.start ∧
      Laid (t.span.start + 1) behind r ∧ t.text = ['('] := by
  obtain ⟨read, left, hinput, hlaid, -⟩ := laid_evaluate limit input
  have hlongest := allLongest_recognize limit input
  change Laid 0 (recognize limit input).tokens read at hlaid
  rw [h] at hlaid hlongest
  have htext := hlongest.of_append.1.text_of_openParen ht
  obtain ⟨front, r, rfl, hfront, hr⟩ := hlaid.of_append
  obtain ⟨gap, r, rfl, hgap, -, -, hspan, hbehind⟩ := hr
  have hstart : byteLength (front ++ gap) = t.span.start := by
    rw [hspan, Text.byteLength_append, Nat.zero_add]
  rw [htext, Nat.zero_add, ← Text.byteLength_append, hstart] at hbehind
  refine ⟨front, gap, r, left, ?_, hfront, hgap, hstart, hbehind, htext⟩
  rw [hinput, htext]
  simp

theorem slice_behind_token {front : Text} (hfront : byteLength front = t.span.start)
    (hinput : input = front ++ '(' :: rest) :
    slice input (t.span.start + 1) (byteLength input) = .ok rest := by
  rw [hinput]
  exact Text.slice_behind_open hfront rest

end

/-- The token opens a group, and its end is looked up in the text `s`, which is all that the view on
which the group is read shows behind the parenthesis. -/
def Attempt.LooksUp {α : Type} (x : Attempt α) (t : Token) (s : Text) : Prop :=
  ∃ front v behind, x.trace = front ++ .entered .factor v :: .read t :: behind ∧
    v.text = .ok ('(' :: s)

section
variable {limit : NestingLimit} {input s blanks outside rest front gap u : Text} {t : Token}
  {tokens before behind : List Token}

/-- What is outside of the innermost open group closes nothing that is opened in it. -/
theorem closing?_append_outside (hfront : Laid 0 tokens front)
    (hinput : input = front ++ gap ++ '(' :: (s ++ blanks ++ outside)) (hblanks : blanks.Blank)
    (houtside : Token.Outside input (Token.openers tokens) outside) :
    Literal.closing? s = Literal.closing? (s ++ blanks ++ outside) := by
  cases hs : Literal.closing? s with
  | some n =>
      rw [List.append_assoc]
      exact (Literal.closing?_append_right hs _).symm
  | none =>
      have hnone := Literal.closing?_append_blank hblanks hs
      generalize hopened : Token.openers tokens = opened at houtside
      cases opened with
      | nil =>
          obtain rfl : outside = [] := houtside
          rw [List.append_nil, hnone]
      | cons o opened =>
          exfalso
          obtain ⟨inner, after, hencloses, rfl⟩ := houtside
          obtain ⟨around, haround, hstart⟩ := hencloses.exists_before
          have ho : o ∈ tokens := Token.mem_of_mem_openers (by rw [hopened]; simp)
          have hlt := hfront.start_lt_of_mem ho
          have hsplit : around ++ '(' :: inner = (front ++ gap) ++ '(' :: (s ++ blanks) := by
            have hclosed : (around ++ '(' :: inner) ++ ')' :: after =
                ((front ++ gap) ++ '(' :: (s ++ blanks)) ++ ')' :: after := by
              rw [List.append_assoc, List.cons_append, ← haround, hinput]
              simp
            exact List.append_cancel_right hclosed
          rcases exists_split_of_append_cons hsplit with ⟨m, -, rfl⟩ | ⟨m, rfl, -⟩
          · obtain ⟨n, hn⟩ := hencloses.balanced.exists_closing?_behind
            cases hnone.symm.trans hn
          · rw [Text.byteLength_append, Text.byteLength_append] at hstart
            omega

/-- What is unread in front of a parenthesis goes on with it and with what is outside. -/
theorem exists_of_unread (hfront : Laid 0 tokens front) (hgap : gap.Blank)
    (hinput : input = front ++ gap ++ '(' :: rest) (hunread : Token.Unread input tokens u) :
    ∃ s blanks outside, u.trimmed = '(' :: s ∧ rest = s ++ blanks ++ outside ∧ blanks.Blank ∧
      Token.Outside input (Token.openers tokens) outside := by
  obtain ⟨before, outside, hbefore, hlen, houtside⟩ := hunread
  rw [hfront.readUntil_eq] at hlen
  rw [hbefore, List.append_assoc] at hinput
  obtain ⟨rfl, hrest⟩ := Text.append_inj_of_byteLength hinput hlen
  rcases exists_split_of_append_cons hrest.symm with ⟨b, rfl, rfl⟩ | ⟨m, rfl, hm⟩
  · have hopen : CharSet.blank.NotAhead ('(' :: b) := CharSet.notAhead_cons.mpr (by decide)
    obtain ⟨blanks, hblanks, hafter, -⟩ := Text.eq_run_append_trimmed (gap ++ '(' :: b)
    rw [CharSet.afterRun_append hgap, CharSet.afterRun_eq_self hopen] at hafter
    cases htrimmed : Text.trimmed (gap ++ '(' :: b) with
    | nil =>
        rw [htrimmed, List.nil_append] at hafter
        rw [← hafter] at hblanks
        exact absurd (hblanks '(' List.mem_cons_self) (by decide)
    | cons c s =>
        rw [htrimmed] at hafter
        obtain ⟨rfl, rfl⟩ := List.cons.inj hafter
        exact ⟨s, blanks, outside, rfl, rfl, hblanks, houtside⟩
  · -- what is outside would begin with blanks and the parenthesis
    exfalso
    have hmblank := (CharSet.all_append.mp hgap).2
    cases hopened : Token.openers tokens with
    | nil =>
        rw [hopened] at houtside
        rw [show outside = [] from houtside] at hm
        cases m <;> cases hm
    | cons o opened =>
        rw [hopened] at houtside
        obtain ⟨inner, after, -, rfl⟩ := houtside
        cases m with
        | nil => cases hm
        | cons c m =>
            obtain rfl : ')' = c := (List.cons.inj hm).1
            exact absurd (hmblank ')' List.mem_cons_self) (by decide)

/-- The search in the view comes to the same as in all of the text behind the parenthesis. -/
theorem closing?_eq_of_looksUp (h : (recognize limit input).LooksUp t s) (ht : t.kind = .openParen)
    (hrest : slice input (t.span.start + 1) (byteLength input) = .ok rest) :
    Literal.closing? s = Literal.closing? rest := by
  obtain ⟨front, v, behind, htrace, hv⟩ := h
  have htells := tells_recognize limit input
  have htruthful := htells.truthful
  have htokens := htells.tokens_eq
  rw [htrace] at htruthful htokens
  rw [Event.tokens_append, Event.tokens_entered, Event.tokens_read] at htokens
  obtain ⟨u, hunread, hu⟩ := htruthful.shows
  obtain ⟨read, gap, r, left, hinput, hread, hgap, hstart, -⟩ := exists_text_around htokens ht
  obtain rfl : r ++ left = rest :=
    Except.ok.inj ((slice_behind_token hstart hinput).symm.trans hrest)
  obtain ⟨s', blanks, outside, htrimmed, hsplit, hblanks, houtside⟩ :=
    exists_of_unread hread hgap hinput hunread
  rw [hu, htrimmed] at hv
  obtain rfl : s' = s := (List.cons.inj (Except.ok.inj hv)).2
  rw [hsplit] at hinput ⊢
  exact closing?_append_outside hread hinput hblanks houtside

end

section
variable {limit : NestingLimit} {input rest : Text} {before behind : List Token} {t : Token}

theorem exists_trace_around (h : (recognize limit input).tokens = before ++ t :: behind)
    (ht : t.kind = .openParen) :
    ∃ es fs, (recognize limit input).trace = es ++ .read t :: fs ∧ before = Event.tokens es ∧
      behind = Event.tokens fs ∧
      ((∃ front v, es = front ++ [.entered .factor v]) ∧
          (fs = [] ∨ ∃ w more, fs = .entered .expression w :: more) ∨
        ∃ u, fs = [.read u] ∧ u.kind = .closeParen) := by
  have htokens := (tells_recognize limit input).tokens_eq
  obtain ⟨d, hrun, hstops, -⟩ := exists_due_recognize limit input
  have hd : d ≠ .refusal := by
    rintro rfl
    exact hstops
  obtain ⟨es, fs, htrace, rfl, rfl⟩ := Event.exists_of_tokens_eq (htokens.symm.trans h)
  rw [htrace] at hrun
  exact ⟨es, fs, htrace, rfl, rfl, hrun.opening_cases hd ht⟩

/-- Where an opening parenthesis has been read, its end was looked up in some view, unless it is that
of an empty group, which is refused. -/
theorem looksUp_or_emptyGroup (h : (recognize limit input).tokens = before ++ t :: behind)
    (ht : t.kind = .openParen) :
    (∃ s, (recognize limit input).LooksUp t s) ∨ ∃ u, behind = [u] ∧ u.kind = .closeParen := by
  obtain ⟨es, fs, htrace, rfl, rfl, hcases⟩ := exists_trace_around h ht
  have htruthful := (tells_recognize limit input).truthful
  rw [htrace] at htruthful
  rcases hcases with ⟨⟨front, v, rfl⟩, -⟩ | ⟨u, rfl, hu⟩
  · left
    rw [List.append_assoc, List.singleton_append] at htrace htruthful
    rw [Event.tokens_append, Event.tokens_entered, Event.tokens_nil, List.append_nil] at h
    obtain ⟨u, hunread, hv⟩ := htruthful.shows
    obtain ⟨read, gap, r, left, hinput, hread, hgap, -⟩ := exists_text_around h ht
    obtain ⟨s, -, -, htrimmed, -⟩ := exists_of_unread hread hgap hinput hunread
    exact ⟨s, front, v, fs, htrace, by rw [hv, htrimmed]⟩
  · exact .inr ⟨u, rfl, hu⟩

theorem outcome_of_last {front : List Event}
    (h : (recognize limit input).trace = front ++ [.read t]) (ht : t.kind = .openParen) :
    (recognize limit input).outcome = .error .mismatch := by
  obtain ⟨read, rest, -, -, -, hout⟩ := covers_recognize limit input
  cases houtcome : (recognize limit input).outcome with
  | ok u =>
      obtain ⟨hrun, -⟩ := (tells_recognize limit input).ok u houtcome
      rw [h] at hrun
      obtain ⟨d, -, hlast⟩ := hrun.of_append
      cases hlast with
      | cons hstep hnil =>
          cases hnil
          rcases hstep.of_openParen ht with hd | hd <;> cases hd
  | error failure =>
      cases failure with
      | mismatch => rfl
      | tooDeep n =>
          obtain ⟨front', v, htrace⟩ := exists_entered_of_tooDeep ⟨n, houtcome⟩
          cases (List.append_inj' (h.symm.trans htrace) rfl).2
      | badSlice e =>
          rw [houtcome] at hout
          exact absurd rfl (hout.2 e)

/-- A group that is not closed is the last thing read, and that is why the attempt fails. -/
theorem ends_with_unmatched (h : (recognize limit input).tokens = before ++ t :: behind)
    (ht : t.Unmatched input) :
    behind = [] ∧ (recognize limit input).outcome = .error .mismatch := by
  obtain ⟨hopen, rest, hrest, hnone⟩ := id ht
  obtain ⟨es, fs, htrace, rfl, rfl, hcases⟩ := exists_trace_around h hopen
  have htruthful := (tells_recognize limit input).truthful
  rw [htrace] at htruthful
  rcases hcases with ⟨-, rfl | ⟨w, more, rfl⟩⟩ | ⟨u, rfl, hu⟩
  · exact ⟨rfl, outcome_of_last htrace hopen⟩
  · have hbehind := (Event.truthful_append.mp htruthful).2
    exact absurd ht hbehind.not_unmatched
  · -- the parenthesis of an empty group closes it
    exfalso
    obtain ⟨front, gap, r, left, hinput, -, -, hstart, hbehind, -⟩ := exists_text_around h hopen
    obtain rfl : r ++ left = rest :=
      Except.ok.inj ((slice_behind_token hstart hinput).symm.trans hrest)
    obtain ⟨blanks, more, rfl, hblanks, -⟩ := hbehind
    have hlongest := allLongest_recognize limit input
    rw [h] at hlongest
    have htext := hlongest.of_append.2.1.text_of_closeParen hu
    rw [htext, List.append_assoc, List.append_assoc] at hnone
    cases hnone.symm.trans (Literal.closing?_append (.of_blank hblanks) (more ++ left))

/-- Where the group is closed in the text, no token reaches over its end. The first one that does not
stand in front of it closes the group, and the ones in front of that are its contents. -/
theorem closes_where_found {n : Nat} (h : (recognize limit input).tokens = before ++ t :: behind)
    (ht : t.kind = .openParen)
    (hrest : slice input (t.span.start + 1) (byteLength input) = .ok rest)
    (hclose : Literal.closing? rest = some n) :
    let close := t.span.start + 1 + n
    (∀ u ∈ behind, u.span.start < close → u.span.stop ≤ close) ∧
    ∀ content u more, behind = content ++ u :: more →
      (∀ v ∈ content, v.span.start < close) → close ≤ u.span.start →
      u.kind = .closeParen ∧ u.span = ⟨close, close + 1⟩ ∧
        ∃ inner, slice input (t.span.start + 1) close = .ok inner ∧
          (Token.Contents (t.span.start + 1) inner content ∨
            content = [] ∧ inner.Blank ∧ more = [] ∧
              (Verdict.evaluate limit input).valid = false) := by
  intro close
  obtain ⟨front, gap, r, left, hinput, -, -, hstart, hlaid, htext⟩ := exists_text_around h ht
  obtain rfl : r ++ left = rest :=
    Except.ok.inj ((slice_behind_token hstart hinput).symm.trans hrest)
  obtain ⟨inner, after, hinner, rfl, hbalanced⟩ := Literal.exists_balanced_of_closing? hclose
  have hlongest := allLongest_recognize limit input
  rw [h] at hlongest
  have hbehind : Token.AllLongest input behind := hlongest.of_append.2
  constructor
  · intro u hu hlt
    obtain ⟨content, more, rfl⟩ := List.append_of_mem hu
    exact stop_le_of_start_lt hlaid hinner hbehind hlt
  · rintro content u more rfl hcontent hle
    obtain ⟨hkind, hone, hspan, s, blanks, rfl, hblanks, hs⟩ :=
      closes_group hlaid hinner hbehind hcontent hle
    refine ⟨hkind, hspan, s ++ blanks, ?_, ?_⟩
    · rw [hinput, hinner]
      refine Text.slice_eq_ok_iff.mpr ⟨front ++ gap ++ ['('], ')' :: after, by simp, ?_, rfl⟩
      rw [Text.byteLength_append _ ['('], hstart]
      rfl
    · refine contents_or_emptyGroup h ?_ ?_ hs (hbalanced.of_append_blank hblanks) hblanks
      · rw [Token.terminal, ht, htext]
        rfl
      · rw [Token.terminal, hkind, hone]
        rfl

end

/-- What becomes of the group that the token opens, given the tokens behind it and the text behind its
parenthesis. Its end is the one found in that text, in whatever view it was looked up, and the tokens
keep to it. -/
structure Token.GroupEnds (input : Text) (attempt : Attempt Unit) (t : Token) (behind : List Token)
    (rest : Text) : Prop where
  looked_up : (∃ s, attempt.LooksUp t s) ∨ ∃ u, behind = [u] ∧ u.kind = .closeParen
  found : ∀ s, attempt.LooksUp t s → Literal.closing? s = Literal.closing? rest
  unclosed : Literal.closing? rest = none → behind = [] ∧ attempt.outcome = .error .mismatch
  closed : ∀ k, Literal.closing? rest = some k →
    let close := t.span.start + 1 + k
    (∀ u ∈ behind, u.span.start < close → u.span.stop ≤ close) ∧
    ∀ content u more, behind = content ++ u :: more →
      (∀ v ∈ content, v.span.start < close) → close ≤ u.span.start →
      u.kind = .closeParen ∧ u.span = ⟨close, close + 1⟩ ∧
        ∃ inner, slice input (t.span.start + 1) close = .ok inner ∧
          (Token.Contents (t.span.start + 1) inner content ∨
            content = [] ∧ inner.Blank ∧ more = [] ∧ (Verdict.ofAttempt attempt).valid = false)

/-- Every group ends where the search in all of the text behind its parenthesis says. -/
theorem groups_end_where_found (n : Nat) (input : Text) (before : List Token) (t : Token)
    (behind : List Token) (h : (recognize (.ofNat n) input).tokens = before ++ t :: behind)
    (ht : t.kind = .openParen) :
    ∃ rest, slice input (t.span.start + 1) (byteLength input) = .ok rest ∧
      t.GroupEnds input (recognize (.ofNat n) input) behind rest := by
  obtain ⟨front, gap, r, left, hinput, -, -, hstart, -⟩ := exists_text_around h ht
  have hrest := slice_behind_token hstart hinput
  refine ⟨r ++ left, hrest, ?_⟩
  constructor
  · exact looksUp_or_emptyGroup h ht
  · exact fun s hs => closing?_eq_of_looksUp hs ht hrest
  · exact fun hnone => ends_with_unmatched h ⟨ht, r ++ left, hrest, hnone⟩
  · exact fun k hk => closes_where_found h ht hrest hk

/-- A group in a group, in a text that is refused behind both. -/
theorem groups_end_where_found_of_nested :
    (recognize (.ofNat 2) "( (1) - x ) *".toList).tokens =
        [] ++ Token.placed 0 .openParen ['('] ::
          [.placed 2 .openParen ['('], .placed 3 .integer ['1'], .placed 4 .closeParen [')'],
            .placed 6 .addOp ['-'], .placed 8 .identifier ['x'], .placed 10 .closeParen [')'],
            .placed 12 .mulOp ['*']] ∧
      ∃ rest, slice "( (1) - x ) *".toList (0 + 1) (byteLength "( (1) - x ) *".toList) = .ok rest ∧
        (Token.placed 0 .openParen ['(']).GroupEnds "( (1) - x ) *".toList
          (recognize (.ofNat 2) "( (1) - x ) *".toList)
          [.placed 2 .openParen ['('], .placed 3 .integer ['1'], .placed 4 .closeParen [')'],
            .placed 6 .addOp ['-'], .placed 8 .identifier ['x'], .placed 10 .closeParen [')'],
            .placed 12 .mulOp ['*']] rest := by
  have htokens : (recognize (.ofNat 2) "( (1) - x ) *".toList).tokens =
      [] ++ Token.placed 0 .openParen ['('] ::
        [.placed 2 .openParen ['('], .placed 3 .integer ['1'], .placed 4 .closeParen [')'],
          .placed 6 .addOp ['-'], .placed 8 .identifier ['x'], .placed 10 .closeParen [')'],
          .placed 12 .mulOp ['*']] := by decide +kernel
  exact ⟨htokens, groups_end_where_found 2 _ _ _ _ htokens rfl⟩

end ArithGrammar
