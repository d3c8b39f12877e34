import ArithGrammar.Proofs.OpenNesting

/-!
# Empty groups behind an operator

An empty pair of parentheses is refused as soon as it follows an additive operator. Without this rule
a term is entered there like behind any other operator (`Unguarded.sums`), and the text is refused as
well, only earlier: at the empty expression in the group, or at its opening parenthesis if there is no
room for another group.

The two ways of reading go on alike up to such a pair and fail there for good (`Attempt.Freed`), so
they part in what they have read last and in nothing else (`recognize_without_guard`).
-/
namespace ArithGrammar
open Attempt Reading

namespace Unguarded

def sums (factor : View → Attempt View) : Nat → View → Attempt View
  | 0, v => pure v
  | bytes + 1, v => do
    if ← ofSlice (v.headIn .addOp) then
      let v ← trim (← read .addOp 1 v)
      sums factor bytes (← term factor v)
    else
      return v

def expression (factor : View → Attempt View) (v : View) : Attempt Unit := do
  enter .expression v
  let v ← term factor (← trim v)
  let v ← sums factor v.length v
  if v.isEmpty then pure () else fail .mismatch

def group (factor : View → Attempt View) (v : View) : Attempt View := do
  let v ← read .openParen 1 v
  match Literal.closing? (← ofSlice v.text) with
  | none => fail .mismatch
  | some close =>
    let (inner, rest) := v.splitAt close
    expression factor inner
    read .closeParen 1 rest

def factor (limit : Nat) : Nat → View → Attempt View
  | 0 => operand (fun _ => fail (.tooDeep limit)) (fun _ => fail (.tooDeep limit))
  | room + 1 => operand (group (factor limit room)) (sign (factor limit room))

def recognize (limit : NestingLimit) (input : Text) : Attempt Unit := do
  let v ← trim (View.whole input)
  expression (factor limit.levels limit.levels) v

end Unguarded

namespace Attempt
variable {α β : Type} {limit : Nat} {x y : Attempt α} {f g : α → Attempt β}

/-- The attempt ends by refusing an empty group: both parentheses are read directly behind an
additive operator, and no rule is entered in between. -/
def RefusesGroup (x : Attempt α) : Prop :=
  ∃ front op a b, x.trace = front ++ [.read op, .read a, .read b] ∧ op.kind = .addOp ∧
    a.kind = .openParen ∧ b.kind = .closeParen

/-- What is left of the tokens if the group is entered instead: its opening parenthesis, unless there
was no room for it. -/
inductive Enters (limit : Nat) (kept : List Token) (a : Token) (y : Attempt α) : Prop
  | opened : y.tokens = kept ++ [a] → y.outcome = .error .mismatch → Enters limit kept a y
  | noRoom : y.tokens = kept → y.outcome = .error (.tooDeep limit) → Enters limit kept a y

/-- The attempt `y` is the attempt `x`, unless that refuses an empty group. Then `y` enters it. -/
inductive Freed (limit : Nat) (x y : Attempt α) : Prop
  | same : y = x → Freed limit x y
  | refused (kept : List Token) (a b : Token) : x.RefusesGroup → x.outcome = .error .mismatch →
      x.tokens = kept ++ [a, b] → a.kind = .openParen → b.kind = .closeParen →
      y.Enters limit kept a → Freed limit x y

theorem RefusesGroup.of_bind {a : α} (hx : x.outcome = .ok a) (h : (f a).RefusesGroup) :
    (x >>= f).RefusesGroup := by
  obtain ⟨front, op, b, c, htrace, hkinds⟩ := h
  refine ⟨x.trace ++ front, op, b, c, ?_, hkinds⟩
  rw [trace_bind_of_ok hx, htrace, List.append_assoc]

theorem Enters.bind {kept : List Token} {t : Token} (h : y.Enters limit kept t)
    (f : α → Attempt β) : (y >>= f).Enters limit kept t := by
  cases h with
  | opened htokens hout =>
      obtain ⟨hbind, hout'⟩ := bind_of_error hout f
      exact .opened (hbind.trans htokens) hout'
  | noRoom htokens hout =>
      obtain ⟨hbind, hout'⟩ := bind_of_error hout f
      exact .noRoom (hbind.trans htokens) hout'

theorem Enters.of_reads {kept ts : List Token} {t : Token} {z : Attempt α}
    (hz : z.Reads ts y) (h : y.Enters limit kept t) : z.Enters limit (ts ++ kept) t := by
  cases h with
  | opened htokens hout =>
      refine .opened ?_ (hz.outcome.trans hout)
      rw [hz.tokens, htokens, List.append_assoc]
  | noRoom htokens hout =>
      refine .noRoom ?_ (hz.outcome.trans hout)
      rw [hz.tokens, htokens]

/-- The group that is refused is the last thing read, so nothing in sequence changes that. -/
theorem congruence_freed (limit : Nat) : Congruence fun _ x y => Freed limit x y where
  refl _ := .same rfl
  bind {α β x y f g} hxy hfg := by
    cases hxy with
    | same hyx =>
        rw [hyx]
        cases hout : x.outcome with
        | error failure =>
            refine .same (bind_congr_of_ok fun a ha => ?_)
            rw [hout] at ha
            cases ha
        | ok a =>
            cases hfg a hout with
            | same hga =>
                refine .same (bind_congr_of_ok fun b hb => ?_)
                obtain rfl : a = b := Except.ok.inj (hout.symm.trans hb)
                exact hga
            | refused kept t u hrefuses hmismatch htokens ht hu henters =>
                have hf := bind_of_ok hout f
                refine .refused (x.tokens ++ kept) t u (hrefuses.of_bind hout)
                  (hf.outcome.trans hmismatch) ?_ ht hu (henters.of_reads (bind_of_ok hout g))
                rw [hf.tokens, htokens, List.append_assoc]
    | refused kept t u hrefuses hmismatch htokens ht hu henters =>
        obtain ⟨hbind, hout⟩ := bind_of_error hmismatch f
        obtain ⟨front, op, b, c, htrace, hkinds⟩ := hrefuses
        have hrefuses : (x >>= f).RefusesGroup :=
          ⟨front, op, b, c, (trace_bind_of_error hmismatch f).trans htrace, hkinds⟩
        exact .refused kept t u hrefuses hout (hbind.trans htokens) ht hu (henters.bind g)

end Attempt

namespace Unguarded
variable {f g : View → Attempt View} {limit room n : Nat} {v : View} {s r : Text} {c : Char}
  {st : List Opened}

/-- Reading an empty group comes to nothing but its opening parenthesis, if there is room for it. -/
def EntersEmpty (limit : Nat) (g : View → Attempt View) : Prop :=
  ∀ ⦃v r⦄, v.text = .ok ('(' :: ')' :: r) →
    (g v).Enters limit [] (Token.placed v.start .openParen ['('])

theorem reads_sums (h : v.text = .ok (c :: s)) (hc : CharSet.addOp.contains c = true) :
    (sums g (n + 1) v).Reads [Token.placed v.start .addOp [c]]
      (term g (v.back s).trimmed >>= sums g n) := by
  have hop := reads_char h (CharSet.utf8Size_eq_one hc) .addOp
  rw [sums, View.headIn_eq h, ofSlice_ok_bind, List.head?_cons, Option.any_some, if_pos hc]
  refine hop.bind_eq ?_
  rw [trim_eq_pure (View.text_back_cons h), pure_bind]

theorem reads_expression (h : v.text = .ok s) :
    (expression g v).Reads [] (do
      let w ← term g v.trimmed
      let w ← sums g w.length w
      if w.isEmpty then pure () else fail .mismatch) := by
  rw [expression]
  refine (reads_enter .expression v).bind_eq ?_
  rw [trim_eq_pure h, pure_bind]

theorem reads_group (h : v.text = .ok ('(' :: (s ++ ')' :: r)))
    (hclose : Literal.closing? (s ++ ')' :: r) = some (Text.byteLength s)) :
    (group g v).Reads [Token.placed v.start .openParen ['(']] (do
      expression g ((v.back (s ++ ')' :: r)).splitAt (Text.byteLength s)).1
      read .closeParen 1 (v.back (')' :: r))) := by
  have hrest := View.text_back_cons h
  have hopen := reads_char h rfl .openParen
  rw [group]
  refine hopen.bind_eq ?_
  have hsplit := View.splitAt_snd hrest
  rw [View.back_back] at hsplit
  rw [hrest, ofSlice_ok_bind, hclose, ← hsplit]

theorem reads_factor_nil (limit room : Nat) (h : v.text = .ok []) :
    (factor limit room v).Reads [] (fail .mismatch) := by
  cases room with
  | zero => exact reads_operand_nil h
  | succ room => exact reads_operand_nil h

theorem reads_group_empty (limit room : Nat) (h : v.text = .ok ('(' :: ')' :: r)) :
    (group (factor limit room) v).Reads [Token.placed v.start .openParen ['(']]
      (fail .mismatch) := by
  have hgroup := reads_group (g := factor limit room) (s := []) h rfl
  have hinner : ((v.back (')' :: r)).splitAt 0).1.text = .ok [] :=
    View.text_splitAt_fst (t := []) (View.text_back_cons h)
  have hterm := reads_term (factor limit room) ((v.back (')' :: r)).splitAt 0).1.trimmed
  have hfactor := reads_factor_nil limit room (View.text_trimmed hinner)
  have hexpression := (reads_expression (g := factor limit room) hinner).tail
    ((hterm.tail (hfactor.bind _)).bind _)
  exact hgroup.tail (hexpression.bind _)

theorem entersEmpty_factor (limit room : Nat) : EntersEmpty limit (factor limit room) := by
  intro v r h
  cases room with
  | zero =>
      have hfactor : (factor limit 0 v).Reads [] (fail (.tooDeep limit)) := reads_operand_open h
      exact .noRoom hfactor.tokens hfactor.outcome
  | succ room =>
      have hfactor : (factor limit (room + 1) v).Reads [] (group (factor limit room) v) :=
        reads_operand_open h
      have hgroup := hfactor.trans (reads_group_empty limit room h)
      exact .opened hgroup.tokens hgroup.outcome

theorem sums_of_notAhead (h : v.text = .ok s) (hs : CharSet.addOp.NotAhead s) :
    sums g n v = pure v := by
  cases n with
  | zero => rfl
  | succ n =>
      rw [sums, View.headIn_eq h, ofSlice_ok_bind, CharSet.notAhead_iff_any.mp hs]
      rfl

/-- Where the pair is refused, an operator and both parentheses are read one behind the other. -/
theorem refusesGroup_sums (h : v.text = .ok (c :: s)) (hc : CharSet.addOp.contains c = true)
    (hguard : s.trimmed = '(' :: ')' :: r) : (Reading.sums f (n + 1) v).RefusesGroup := by
  have hrest := View.text_back_cons h
  have htrimmed := View.text_trimmed hrest
  have hbegins := View.beginsWith_eq htrimmed ['(', ')']
  rw [hguard] at htrimmed hbegins
  have hop := read_char_eq h (CharSet.utf8Size_eq_one hc) .addOp
  have hopen := read_char_eq htrimmed rfl .openParen
  have hclose := read_char_eq (View.text_back_cons htrimmed) rfl .closeParen
  have hprefix : (['(', ')'] : Text).isPrefixOf ('(' :: ')' :: r) = true := by simp
  refine ⟨[], Token.placed v.start .addOp [c],
    Token.placed (v.back s).trimmed.start .openParen ['('],
    Token.placed ((v.back s).trimmed.back (')' :: r)).start .closeParen [')'], ?_, rfl, rfl, rfl⟩
  rw [Reading.sums, View.headIn_eq h, ofSlice_ok_bind, List.head?_cons, Option.any_some, if_pos hc,
    hop, ok_bind, trim_eq_pure hrest, pure_bind, hbegins, ofSlice_ok_bind, if_pos hprefix, hopen,
    ok_bind, hclose]
  rfl

section
variable (hfg : ∀ v, Freed limit (f v) (g v)) (hg : EntersEmpty limit g)
include hg

theorem freed_sums_empty (h : v.text = .ok (c :: s)) (hc : CharSet.addOp.contains c = true)
    (hguard : s.trimmed = '(' :: ')' :: r) :
    Freed limit (Reading.sums f (n + 1) v) (sums g (n + 1) v) := by
  have hrefused := reads_sums_empty (f := f) (n := n) h hc hguard
  have htrimmed := View.text_trimmed (View.text_back_cons h)
  rw [hguard] at htrimmed
  have hterm : (term g (v.back s).trimmed).Enters limit []
      (Token.placed (v.back s).trimmed.start .openParen ['(']) :=
    .of_reads (reads_term g _) ((hg htrimmed).bind _)
  refine .refused [Token.placed v.start .addOp [c]] _ _ (refusesGroup_sums h hc hguard)
    hrefused.outcome hrefused.tokens rfl rfl ?_
  exact .of_reads (reads_sums h hc) (hterm.bind _)

include hfg

theorem freed_sums (n : Nat) (v : View) : Freed limit (Reading.sums f n v) (sums g n v) := by
  have hR := congruence_freed limit
  induction n generalizing v with
  | zero => exact .same rfl
  | succ n ih =>
      cases hs : v.text with
      | error e =>
          refine .same ?_
          rw [Reading.sums, sums, View.headIn, hs]
          rfl
      | ok s =>
          by_cases hahead : CharSet.addOp.NotAhead s
          · rw [Reading.sums_of_notAhead hs hahead, sums_of_notAhead hs hahead]
            exact .same rfl
          obtain ⟨c, s, rfl, hc⟩ := CharSet.exists_of_not_notAhead hahead
          by_cases hguard : ['(', ')'] <+: Text.trimmed s
          · obtain ⟨r, hr⟩ := hguard
            exact freed_sums_empty hg hs hc hr.symm
          · rw [Reading.sums, sums]
            refine hR.same_bind (not_tooDeep_ofSlice _) fun ahead _ => ?_
            split_ifs
            · refine hR.same_bind (not_tooDeep_read _ _ _) fun w hw => ?_
              have hop := read_char_eq hs (CharSet.utf8Size_eq_one hc) .addOp
              obtain rfl : v.back s = w := by
                rw [hop] at hw
                exact Except.ok.inj hw
              have hrest := View.text_back_cons hs
              rw [trim_eq_pure hrest, pure_bind, pure_bind,
                View.beginsWith_eq (View.text_trimmed hrest), ofSlice_ok_bind,
                if_neg (by simpa using hguard)]
              exact hR.bind (hR.term hfg _) fun w _ => ih w
            · exact .same rfl

theorem freed_expression (v : View) : Freed limit (Reading.expression f v) (expression g v) := by
  have hR := congruence_freed limit
  refine hR.same_bind (not_tooDeep_enter _ _) fun _ _ => ?_
  refine hR.same_bind (not_tooDeep_trim v) fun v _ => ?_
  refine hR.bind (hR.term hfg v) fun v _ => ?_
  exact hR.bind (freed_sums hfg hg v.length v) fun v _ => .same rfl

theorem freed_group (v : View) : Freed limit (Reading.group f v) (group g v) := by
  have hR := congruence_freed limit
  refine hR.same_bind (not_tooDeep_read _ _ _) fun v _ => ?_
  refine hR.same_bind (not_tooDeep_ofSlice _) fun rest _ => ?_
  cases Literal.closing? rest with
  | none => exact .same rfl
  | some close => exact hR.bind (freed_expression hfg hg _) fun _ _ => .same rfl

end

theorem freed_factor (limit room : Nat) (v : View) :
    Freed limit (Reading.factor limit room v) (factor limit room v) := by
  have hR := congruence_freed limit
  induction room generalizing v with
  | zero => exact .same rfl
  | succ room ih =>
      have hempty := entersEmpty_factor limit room
      exact hR.operand (fun v _ _ => freed_group ih hempty v) (fun v _ _ => hR.sign ih v) v

theorem freed_recognize (limit : NestingLimit) (input : Text) :
    Freed limit.levels (ArithGrammar.recognize limit input) (recognize limit input) := by
  have hR := congruence_freed limit.levels
  have hempty := entersEmpty_factor limit.levels limit.levels
  exact hR.same_bind (not_tooDeep_trim _) fun v _ =>
    freed_expression (freed_factor limit.levels limit.levels) hempty v

end Unguarded

namespace Event
variable {es fs : List Event} {t : Token}

/-- Every opening parenthesis is read where a factor has just been entered. -/
def OpensInFactors (es : List Event) : Prop :=
  ∀ front t behind, es = front ++ .read t :: behind → t.kind = .openParen →
    ∃ before v, front = before ++ [.entered .factor v]

theorem opensInFactors_nil : OpensInFactors [] := by
  intro front t behind h
  cases front <;> cases h

theorem OpensInFactors.append (h : OpensInFactors es) (k : OpensInFactors fs) :
    OpensInFactors (es ++ fs) := by
  intro front t behind hsplit ht
  rcases List.append_eq_append_iff.mp hsplit with ⟨more, rfl, hfs⟩ | ⟨more, rfl, hmore⟩
  · obtain ⟨before, v, rfl⟩ := k more t behind hfs ht
    exact ⟨es ++ before, v, by rw [List.append_assoc]⟩
  · cases more with
    | nil =>
        obtain ⟨before, v, hnil⟩ := k [] t behind hmore.symm ht
        cases before <;> cases hnil
    | cons e more =>
        obtain ⟨rfl, -⟩ := List.cons.inj hmore
        exact h front t more rfl ht

theorem opensInFactors_entered (rule : Rule) (v : View) : OpensInFactors [.entered rule v] := by
  intro front t behind h
  cases front with
  | nil => cases h
  | cons e front => cases front <;> cases h

theorem opensInFactors_read (ht : t.kind ≠ .openParen) : OpensInFactors [.read t] := by
  intro front u behind h hu
  cases front with
  | nil =>
      cases h
      exact absurd hu ht
  | cons e front => cases front <;> cases h

theorem opensInFactors_opening (v : View) (t : Token) :
    OpensInFactors [.entered .factor v, .read t] := by
  intro front u behind h _
  cases front with
  | nil => cases h
  | cons e front =>
      cases front with
      | nil =>
          cases h
          exact ⟨[], v, rfl⟩
      | cons e front => cases front <;> cases h

end Event

namespace Attempt
open Event
variable {α β : Type} {x : Attempt α} {f : α → Attempt β} {front : List Event}

/-- Behind the events in front, no parenthesis is read but where a factor has been entered. -/
def Opens (front : List Event) (x : Attempt α) : Prop := OpensInFactors (front ++ x.trace)

theorem Opens.silent (hfront : OpensInFactors front) (h : x.trace = []) : x.Opens front := by
  rwa [Opens, h, List.append_nil]

theorem Opens.bind (hx : x.Opens front) (hf : ∀ a, (f a).Opens []) : (x >>= f).Opens front := by
  cases hout : x.outcome with
  | error failure =>
      rw [Opens, trace_bind_of_error hout]
      exact hx
  | ok a =>
      rw [Opens, trace_bind_of_ok hout, ← List.append_assoc]
      exact hx.append (hf a)

theorem opens_pure (a : α) : (pure a : Attempt α).Opens [] := .silent opensInFactors_nil rfl

theorem opens_fail (failure : Failure) : (fail failure : Attempt α).Opens [] :=
  .silent opensInFactors_nil rfl

theorem opens_ofSlice (s : Except Text.SliceError α) : (ofSlice s).Opens [] :=
  .silent opensInFactors_nil rfl

theorem opens_enter (rule : Rule) (v : View) : (enter rule v).Opens [] :=
  opensInFactors_entered rule v

theorem opens_read {kind : TokenKind} (hkind : kind ≠ .openParen) (len : Nat) (v : View) :
    (read kind len v).Opens [] := by
  unfold Attempt.read View.take
  cases (v.splitAt len).1.text with
  | error e => exact opensInFactors_nil
  | ok s => exact opensInFactors_read hkind

theorem opens_openParen (w : View) (len : Nat) (v : View) :
    (read .openParen len v).Opens [.entered .factor w] := by
  unfold Attempt.read View.take
  cases (v.splitAt len).1.text with
  | error e => exact opensInFactors_entered .factor w
  | ok s => exact opensInFactors_opening w _

theorem Opens.not_refusesGroup (h : x.Opens []) : ¬ x.RefusesGroup := by
  rintro ⟨front, op, a, b, htrace, -, ha, -⟩
  have hsplit : x.trace = front ++ [.read op] ++ .read a :: [.read b] := by
    rw [htrace, List.append_assoc]
    rfl
  obtain ⟨before, v, hbefore⟩ := h _ _ _ hsplit ha
  cases (List.append_inj' hbefore rfl).2

end Attempt

namespace Unguarded
variable {g h : View → Attempt View}

theorem opens_number (v : View) : (number v).Opens [] := by
  refine (opens_ofSlice _).bind fun rest => ?_
  split
  · refine (opens_read (by decide) _ v).bind fun v => ?_
    exact (opens_read (by decide) _ v).bind fun v => opens_read (by decide) _ v
  · exact opens_read (by decide) _ v
  · exact opens_fail .mismatch

theorem opens_name (v : View) : (name v).Opens [] := by
  refine (opens_ofSlice _).bind fun rest => ?_
  split
  · exact opens_read (by decide) _ v
  · exact opens_fail .mismatch

/-- Only a group begins with a parenthesis, and a factor has been entered on it. -/
theorem opens_operand (hg : ∀ w v, (g v).Opens [.entered .factor w]) (hh : ∀ v, (h v).Opens [])
    (v : View) : (operand g h v).Opens [] := by
  have hentered := Event.opensInFactors_entered .factor v
  change Event.OpensInFactors ([.entered .factor v] ++ _)
  cases v.head? with
  | error e => exact hentered
  | ok head =>
      cases head with
      | none => exact hentered
      | some c =>
          rw [ofSlice_ok_bind]
          dsimp only
          split_ifs
          · exact hentered.append (opens_number v)
          · exact hentered.append (opens_name v)
          · exact hg v v
          · exact hentered.append (hh v)
          · exact hentered

section
variable (hg : ∀ v, (g v).Opens [])
include hg

theorem opens_products (n : Nat) (v : View) : (products g n v).Opens [] := by
  induction n generalizing v with
  | zero => exact opens_pure v
  | succ n ih =>
      refine (opens_ofSlice _).bind fun ahead => ?_
      split_ifs
      · refine (opens_read (by decide) _ v).bind fun v => ?_
        refine (opens_ofSlice _).bind fun v => ?_
        exact (hg v).bind fun v => (opens_ofSlice _).bind fun v => ih v
      · exact opens_pure v

theorem opens_term (v : View) : (term g v).Opens [] := by
  refine (opens_enter .term v).bind fun _ => ?_
  exact (hg v).bind fun v => (opens_ofSlice _).bind fun v => opens_products hg v.length v

theorem opens_sums (n : Nat) (v : View) : (sums g n v).Opens [] := by
  induction n generalizing v with
  | zero => exact opens_pure v
  | succ n ih =>
      refine (opens_ofSlice _).bind fun ahead => ?_
      split_ifs
      · refine (opens_read (by decide) _ v).bind fun v => ?_
        exact (opens_ofSlice _).bind fun v => (opens_term hg v).bind fun v => ih v
      · exact opens_pure v

theorem opens_expression (v : View) : (expression g v).Opens [] := by
  refine (opens_enter .expression v).bind fun _ => ?_
  refine (opens_ofSlice _).bind fun v => ?_
  refine (opens_term hg v).bind fun v => ?_
  refine (opens_sums hg v.length v).bind fun v => ?_
  split_ifs
  · exact opens_pure ()
  · exact opens_fail .mismatch

theorem opens_group (w v : View) : (group g v).Opens [.entered .factor w] := by
  refine (opens_openParen w _ v).bind fun v => ?_
  refine (opens_ofSlice _).bind fun rest => ?_
  cases Literal.closing? rest with
  | none => exact opens_fail .mismatch
  | some close => exact (opens_expression hg _).bind fun _ => opens_read (by decide) _ _

theorem opens_sign (v : View) : (sign g v).Opens [] :=
  (opens_read (by decide) _ v).bind fun v => (opens_ofSlice _).bind fun v => hg v

end

theorem opens_factor (limit room : Nat) (v : View) : (factor limit room v).Opens [] := by
  induction room generalizing v with
  | zero =>
      refine opens_operand (fun w _ => ?_) (fun _ => opens_fail _) v
      exact .silent (Event.opensInFactors_entered .factor w) rfl
  | succ room ih => exact opens_operand (opens_group ih) (opens_sign ih) v

theorem opens_recognize (limit : NestingLimit) (input : Text) :
    (recognize limit input).Opens [] :=
  (opens_ofSlice _).bind fun v => opens_expression (opens_factor _ _) v

section
variable {room : Nat} {st : List Opened} (hg : NestsOperand room g) (hst : Opened.endSigns st = st)
include hg hst

theorem nests_sums (n : Nat) (v : View) : (sums g n v).Nests (st.length + room) st st := by
  have hle : st.length ≤ st.length + room := Nat.le_add_right _ _
  induction n generalizing v with
  | zero => exact .pure hle v
  | succ n ih =>
      refine .bind (.ofSlice hle _) fun ahead _ => ?_
      split_ifs
      · refine .bind (.read rfl hle hle _ v) fun v _ => ?_
        refine .bind (.ofSlice hle _) fun v _ => ?_
        exact .bind (nests_term hg hst v) fun v _ => ih v
      · exact .pure hle v

theorem nests_expression (v : View) : (expression g v).Nests (st.length + room) st st := by
  have hle : st.length ≤ st.length + room := Nat.le_add_right _ _
  refine .bind (.enter hle _ v) fun _ _ => ?_
  refine .bind (.ofSlice hle _) fun v _ => ?_
  refine .bind (nests_term hg hst v) fun v _ => ?_
  refine .bind (nests_sums hg hst v.length v) fun v _ => ?_
  split_ifs
  · exact .pure hle ()
  · exact .mismatch hle

end

theorem nestsOperand_group {room : Nat} (hg : NestsOperand room g) :
    NestsOperand (room + 1) (group g) := by
  intro st v
  have hle : st.length ≤ st.length + (room + 1) := Nat.le_add_right _ _
  have hle' : (Opened.group :: st).length ≤ st.length + (room + 1) := by
    rw [List.length_cons]
    omega
  have hend := (Opened.length_endSigns_le st).trans hle
  refine .bind (.read rfl hle hle' _ v) fun v _ => ?_
  refine .bind (.ofSlice hle' _) fun rest _ => ?_
  cases Literal.closing? rest with
  | none => exact .mismatch hle'
  | some close =>
      have hgroup : Opened.endSigns (.group :: st) = .group :: st := rfl
      have hinner := nests_expression hg hgroup (v.splitAt close).1
      rw [List.length_cons, Nat.add_right_comm, Nat.add_assoc] at hinner
      exact .bind hinner fun _ _ => .read rfl hle' hend _ _

theorem nestsOperand_factor (limit room : Nat) : NestsOperand room (factor limit room) := by
  induction room with
  | zero =>
      exact nestsOperand_operand (fun _ _ => .tooDeep limit rfl) (fun _ _ => .tooDeep limit rfl)
  | succ room ih => exact nestsOperand_operand (nestsOperand_group ih) (nestsOperand_sign ih)

theorem nests_recognize (limit : NestingLimit) (input : Text) :
    (recognize limit input).Nests limit.levels [] [] := by
  have hfactor := nestsOperand_factor limit.levels limit.levels
  refine .bind (.ofSlice (Nat.zero_le _) _) fun v _ => ?_
  have hnothing : Opened.endSigns [] = [] := rfl
  have hexpression := nests_expression hfactor hnothing v
  rwa [List.length_nil, Nat.zero_add] at hexpression

/-- A group that was entered shows in the tokens how much was open in front of it. -/
theorem openAfter_of_enters {limit : NestingLimit} {input : Text} {kept : List Token} {a : Token}
    (ha : a.kind = .openParen) (h : (recognize limit input).Enters limit.levels kept a) :
    ∃ st, Token.openAfter kept = some st ∧
      (st.length < limit.levels ∧ (recognize limit input).tokens = kept ++ [a] ∧
          (recognize limit input).outcome = .error .mismatch ∨
        st.length = limit.levels ∧ (recognize limit input).tokens = kept ∧
          (recognize limit input).outcome = .error (.tooDeep limit.levels)) := by
  have hnests := nests_recognize limit input
  cases h with
  | opened htokens hout =>
      obtain ⟨front, pair, hsplit, hwithin, hpair⟩ := hnests.within
      rw [htokens] at hsplit
      obtain rfl : pair = [] := by
        rcases hpair with hnil | ⟨-, y, z, rfl, -, hz⟩
        · exact hnil
        · have hlast := congrArg List.getLast? hsplit
          rw [List.getLast?_concat, List.getLast?_append] at hlast
          obtain rfl : a = z := Option.some.inj hlast
          cases ha.symm.trans hz
      rw [List.append_nil] at hsplit
      rw [← hsplit, List.map_append] at hwithin
      obtain ⟨st, hst, -⟩ := hwithin.of_append
      have hpeak := Opened.length_lt_peak hst (.inl ha) []
      exact ⟨st, hst, .inl ⟨Nat.lt_of_lt_of_le hpeak hwithin.peak_le, htokens, hout⟩⟩
  | noRoom htokens hout =>
      obtain ⟨st, hst, hlength⟩ := hnests.full ⟨_, hout⟩
      rw [htokens] at hst
      exact ⟨st, hst, .inr ⟨hlength, htokens, hout⟩⟩

end Unguarded

/-- Without the refusal of empty groups the verdict is the same on every text. Nothing else differs
either unless one is refused, and then only the parentheses are missing that have been read for it:
the closing one if there was room to enter the group, both if there was none. -/
theorem recognize_without_guard (n : Nat) (input : Text) :
    let attempt := recognize (.ofNat n) input
    let free := Unguarded.recognize (.ofNat n) input
    (Verdict.ofAttempt free).valid = (Verdict.evaluate (.ofNat n) input).valid ∧
    (¬ attempt.RefusesGroup → free.tokens = attempt.tokens ∧ free.outcome = attempt.outcome) ∧
    (attempt.RefusesGroup → attempt.outcome = .error .mismatch ∧ ∃ kept a b st,
      attempt.tokens = kept ++ [a, b] ∧ a.kind = .openParen ∧ b.kind = .closeParen ∧
        Token.openAfter kept = some st ∧ st.length ≤ min n maxNesting ∧
        (st.length < min n maxNesting →
          free.tokens = kept ++ [a] ∧ free.outcome = .error .mismatch) ∧
        (st.length = min n maxNesting →
          free.tokens = kept ∧ free.outcome = .error (.tooDeep (min n maxNesting)))) := by
  intro attempt free
  cases Unguarded.freed_recognize (.ofNat n) input with
  | same heq =>
      have hfree : free = attempt := heq
      have hnot : ¬ attempt.RefusesGroup := by
        rw [← hfree]
        exact (Unguarded.opens_recognize (.ofNat n) input).not_refusesGroup
      rw [hfree]
      exact ⟨rfl, fun _ => ⟨rfl, rfl⟩, fun hrefuses => absurd hrefuses hnot⟩
  | refused kept a b hrefuses hmismatch htokens ha hb henters =>
      obtain ⟨st, hst, hcases⟩ := Unguarded.openAfter_of_enters ha henters
      have hmismatch : attempt.outcome = .error .mismatch := hmismatch
      have hlevels : (NestingLimit.ofNat n).levels = min n maxNesting := rfl
      rw [hlevels] at hcases
      have hfails : ∃ failure, free.outcome = .error failure := by
        rcases hcases with ⟨-, -, hout⟩ | ⟨-, -, hout⟩
        · exact ⟨_, hout⟩
        · exact ⟨_, hout⟩
      obtain ⟨failure, hfailure⟩ := hfails
      refine ⟨?_, fun hnot => absurd hrefuses hnot, fun _ => ⟨hmismatch, kept, a, b, st, htokens, ha,
        hb, hst, ?_⟩⟩
      · rw [Verdict.evaluate, Verdict.ofAttempt, Verdict.ofAttempt, hfailure, hmismatch]
        rfl
      · rcases hcases with ⟨hlt, hentered⟩ | ⟨heq, hrefused⟩
        · exact ⟨hlt.le, fun _ => hentered, fun heq => absurd heq hlt.ne⟩
        · exact ⟨heq.le, fun hlt => absurd heq hlt.ne, fun _ => hrefused⟩

/-- Under the limit 1 there is room to enter the group of the first text, and none in the second. -/
example : (Unguarded.recognize (.ofNat 1) "1 + ()".toList).tokens.length = 3 ∧
    (Unguarded.recognize (.ofNat 1) "(1 - () * 2)".toList).tokens.length = 3 := by
  decide +kernel

end ArithGrammar
