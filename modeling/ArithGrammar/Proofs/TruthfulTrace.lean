import ArithGrammar.Proofs.DueEntries
import ArithGrammar.Proofs.UnreadText

/-!
# Traces tell what happens

Whatever becomes of an attempt, its trace reads the attempt's tokens, goes on with what is due, and
shows at each entry of a rule what the tokens in front of it leave unread (`Attempt.Tells`). Where
it fails, either the first token of an operand is missing, or something behind an operand is left,
or a group just opened is not closed, or an empty group has been refused (`Due.Stops`).

Sequences of attempts keep this, so there is one lemma for each rule, up to `tells_recognize`.
-/
namespace ArithGrammar
open Attempt Reading
open Text (byteLength)

/-- What a view shows where a rule is entered behind the tokens. An expression is the whole text or
that of the group just opened, without or with the blanks around it, and a term or a factor is
entered on what is unread without the blanks around it. -/
def Rule.Shows (input : Text) (tokens : List Token) (v : View) : Rule → Prop
  | .expression => tokens = [] ∧ v.text = .ok input.trimmed ∨
      ∃ t ∈ tokens.getLast?, ∃ inner after, t.Encloses input inner after ∧ v.text = .ok inner
  | .term | .factor => ∃ u, Token.Unread input tokens u ∧ v.text = .ok u.trimmed

namespace Event
variable {input : Text} {tokens : List Token} {es fs : List Event}

/-- Behind the tokens the trace shows at each entry of a rule what there is then. -/
def Truthful (input : Text) : List Token → List Event → Prop
  | _, [] => True
  | tokens, .entered rule v :: es => rule.Shows input tokens v ∧ Truthful input tokens es
  | tokens, .read t :: es => Truthful input (tokens ++ [t]) es

theorem truthful_append : Truthful input tokens (es ++ fs) ↔
    Truthful input tokens es ∧ Truthful input (tokens ++ Event.tokens es) fs := by
  induction es generalizing tokens with
  | nil => simp [Truthful]
  | cons e es ih =>
      cases e with
      | entered rule v => simp only [List.cons_append, Truthful, ih, tokens_entered, and_assoc]
      | read t =>
          simp only [List.cons_append, Truthful, ih, tokens_read, List.append_assoc,
            List.nil_append]

theorem Truthful.shows {rule : Rule} {v : View}
    (h : Truthful input tokens (es ++ .entered rule v :: fs)) :
    rule.Shows input (tokens ++ Event.tokens es) v :=
  (truthful_append.mp h).2.1

/-- A group that an expression is entered in is closed. -/
theorem Truthful.not_unmatched {t : Token} {v : View}
    (h : Truthful input tokens (.read t :: .entered .expression v :: es)) :
    ¬ t.Unmatched input := by
  have hlast : (tokens ++ [t]).getLast? = some t := List.getLast?_concat
  obtain ⟨hnil, -⟩ | ⟨u, hu, inner, after, hencloses, -⟩ := h.1
  · rw [hnil] at hlast
    cases hlast
  · obtain rfl : t = u := Option.some.inj (hlast.symm.trans hu)
    exact hencloses.not_unmatched

end Event

/-- What may be due where an attempt fails behind the tokens. -/
def Due.Stops (input : Text) (tokens : List Token) : Due → Prop
  | .operand | .further | .nothing => True
  | .entry .expression => ∃ t ∈ tokens.getLast?, t.Unmatched input
  | .entry _ | .refusal => False

namespace Attempt
variable {α β : Type} {input : Text} {tokens : List Token} {due due' due'' : Due}
  {leaves leaves' : α → List Token → Prop} {leavesNext : β → List Token → Prop} {x : Attempt α}

/-- Behind the tokens and where `due` is due the attempt has a true trace. A success makes `due'`
due and keeps what `leaves` says of its result and of all the tokens read then. -/
structure Tells (input : Text) (tokens : List Token) (due due' : Due)
    (leaves : α → List Token → Prop) (x : Attempt α) : Prop where
  tokens_eq : x.tokens = Event.tokens x.trace
  truthful : Event.Truthful input tokens x.trace
  ok : ∀ a, x.outcome = .ok a → Due.Run due x.trace due' ∧ leaves a (tokens ++ x.tokens)
  error : ∀ failure, x.outcome = .error failure →
    ∃ d, Due.Run due x.trace d ∧ d.Stops input (tokens ++ x.tokens)

namespace Tells

theorem pure {a : α} (h : leaves a tokens) :
    (pure a : Attempt α).Tells input tokens due due leaves := by
  refine ⟨rfl, trivial, fun b hb => ?_, nofun⟩
  obtain rfl : a = b := Except.ok.inj hb
  exact ⟨.nil due, by rwa [Attempt.pure_eq, List.append_nil]⟩

theorem fail {failure : Failure} (h : due.Stops input tokens) :
    (fail failure : Attempt α).Tells input tokens due due' leaves := by
  refine ⟨rfl, trivial, nofun, fun _ _ => ⟨due, .nil due, ?_⟩⟩
  rwa [Attempt.fail_eq, List.append_nil]

theorem enter {rule : Rule} {v : View} (h : rule.Shows input tokens v) :
    (enter rule v).Tells input tokens (.entry rule) (Due.afterEntry rule)
      fun _ tokens' => tokens' = tokens := by
  refine ⟨rfl, ⟨h, trivial⟩, fun _ _ => ⟨.single (.enter rule v), ?_⟩, nofun⟩
  exact List.append_nil tokens

theorem read (kind : TokenKind) {v : View} {t r : Text} (h : v.text = .ok (t ++ r))
    (hstep : Due.Step due (.read (Token.placed v.start kind t)) due') :
    (read kind (byteLength t) v).Tells input tokens due due' fun w tokens' =>
      w = v.back r ∧ tokens' = tokens ++ [Token.placed v.start kind t] := by
  rw [read_eq h]
  refine ⟨rfl, trivial, fun w hw => ⟨.single hstep, ?_, rfl⟩, nofun⟩
  exact (Except.ok.inj hw).symm

theorem mono (h : x.Tells input tokens due due' leaves)
    (himp : ∀ a tokens', leaves a tokens' → leaves' a tokens') :
    x.Tells input tokens due due' leaves' := by
  refine ⟨h.tokens_eq, h.truthful, fun a ha => ?_, h.error⟩
  obtain ⟨hrun, hleaves⟩ := h.ok a ha
  exact ⟨hrun, himp _ _ hleaves⟩

theorem bind {f : α → Attempt β} (h : x.Tells input tokens due due' leaves)
    (hf : ∀ a tokens', leaves a tokens' → (f a).Tells input tokens' due' due'' leavesNext) :
    (x >>= f).Tells input tokens due due'' leavesNext := by
  obtain ⟨ts, trace, failure | a⟩ := x
  · rw [error_bind]
    exact ⟨h.tokens_eq, h.truthful, nofun, fun _ _ => h.error failure rfl⟩
  · obtain ⟨hrun, hleaves⟩ := h.ok a rfl
    have ha := hf a _ hleaves
    have htokens : ts = Event.tokens trace := h.tokens_eq
    rw [ok_bind]
    refine ⟨?_, ?_, fun b hb => ?_, fun failure hfailure => ?_⟩
    · dsimp only
      rw [Event.tokens_append, ← htokens, ha.tokens_eq]
    · refine Event.truthful_append.mpr ⟨h.truthful, ?_⟩
      rw [← htokens]
      exact ha.truthful
    · obtain ⟨hrun', hleaves'⟩ := ha.ok b hb
      exact ⟨hrun.append hrun', by rwa [← List.append_assoc]⟩
    · obtain ⟨d, hrun', hstops⟩ := ha.error failure hfailure
      exact ⟨d, hrun.append hrun', by rwa [← List.append_assoc]⟩

end Tells

end Attempt

namespace Reading
variable {f g : View → Attempt View} {input s r : Text} {opened tokens : List Token} {v : View}
  {due due' : Due} {c : Char} {room : Nat}

def FacesOn (input : Text) (opened : List Token) (v : View) (tokens : List Token) : Prop :=
  ∃ s, v.Faces input opened tokens s

/-- The reader reads a factor where one is due. -/
def TellsFactor (input : Text) (f : View → Attempt View) : Prop :=
  ∀ ⦃opened : List Token⦄ ⦃tokens : List Token⦄ ⦃s : Text⦄ ⦃v : View⦄,
    v.Faces input opened tokens s.trimmed →
      (f v).Tells input tokens (.entry .factor) .further (FacesOn input opened)

/-- The reader reads an operand that begins with the character. -/
def TellsOperand (input : Text) (c : Char) (f : View → Attempt View) : Prop :=
  ∀ ⦃opened : List Token⦄ ⦃tokens : List Token⦄ ⦃s : Text⦄ ⦃v : View⦄,
    v.Faces input opened tokens (c :: s) →
      (f v).Tells input tokens .operand .further (FacesOn input opened)

/-- A term or a factor is entered on what is unread without the blanks around it. -/
theorem exists_unread_of_trimmed (h : v.Faces input opened tokens s.trimmed) :
    ∃ u, Token.Unread input tokens u ∧ v.text = .ok u.trimmed := by
  obtain ⟨u, hu, htrimmed⟩ := h.exists_unread
  refine ⟨u, hu, ?_⟩
  rw [htrimmed, Text.trimmed_trimmed]
  exact h.text_eq

/-- A piece that holds no parenthesis is read. -/
theorem tells_read (kind : TokenKind) {t : Text} (h : v.Faces input opened tokens (t ++ r))
    (ht : kind.charSet.All t) (hopen : kind ≠ .openParen) (hclose : kind ≠ .closeParen)
    (hstep : Due.Step due (.read (Token.placed v.start kind t)) due') :
    (read kind (byteLength t) v).Tells input tokens due due' fun w tokens' =>
      w = v.back r ∧ w.Faces input opened tokens' r := by
  have hbalanced : Balanced t := by
    refine .of_set ?_ ?_ ht
    · cases kind <;> first | rfl | contradiction
    · cases kind <;> first | rfl | contradiction
  refine (Tells.read kind h.text_eq hstep).mono ?_
  rintro w tokens' ⟨rfl, rfl⟩
  exact ⟨rfl, h.read hbalanced hopen hclose⟩

theorem tells_char (kind : TokenKind) (h : v.Faces input opened tokens (c :: s))
    (hc : kind.charSet.contains c = true) (hopen : kind ≠ .openParen) (hclose : kind ≠ .closeParen)
    (hstep : Due.Step due (.read (Token.placed v.start kind [c])) due') :
    (read kind 1 v).Tells input tokens due due' fun w tokens' =>
      w = v.back s ∧ w.Faces input opened tokens' s := by
  have hone : byteLength [c] = 1 := CharSet.utf8Size_eq_one hc
  have hread := tells_read kind (t := [c]) h (CharSet.all_cons.mpr ⟨hc, CharSet.all_nil⟩) hopen
    hclose hstep
  rwa [hone] at hread

theorem tells_number (h : v.Faces input opened tokens (c :: s))
    (hc : CharSet.digit.contains c = true) :
    (number v).Tells input tokens .operand .further (FacesOn input opened) := by
  obtain ⟨t, r, hs, hne, ht, hr, hnone⟩ | ⟨whole, fraction, r, hs, -, hw, hne, hf, hr⟩ :=
    Literal.number_cases hc s
  · rw [hs] at h
    rw [number, h.text_eq, ofSlice_ok_bind, hnone, Literal.integer?_append hne ht hr]
    refine (tells_read .integer h ht (by decide) (by decide) (.first rfl)).mono ?_
    rintro w tokens' ⟨-, hw⟩
    exact ⟨r, hw⟩
  · rw [hs, List.append_assoc] at h
    have hlen : byteLength whole + 1 + byteLength fraction - byteLength whole - 1 =
        byteLength fraction := by omega
    rw [number, h.text_eq, ofSlice_ok_bind, ← List.append_assoc,
      Literal.decimal?_append hw hne hf hr]
    dsimp only
    rw [hlen]
    refine .bind (tells_read .integer h hw (by decide) (by decide) (.first rfl)) ?_
    rintro v tokens' ⟨-, hdot⟩
    refine .bind (tells_char .dot hdot rfl (by decide) (by decide) (.more rfl)) ?_
    rintro v tokens' ⟨-, hfraction⟩
    refine (tells_read .fraction hfraction hf (by decide) (by decide) (.more rfl)).mono ?_
    rintro w tokens' ⟨-, hw⟩
    exact ⟨r, hw⟩

theorem tells_name (h : v.Faces input opened tokens (c :: s))
    (hc : CharSet.nameStart.contains c = true) :
    (name v).Tells input tokens .operand .further (FacesOn input opened) := by
  obtain ⟨t, r, hs, ht, hr⟩ := Literal.name_cases c s
  rw [hs] at h
  have hname : CharSet.namePart.All (c :: t) := Name.all ⟨c, t, hc, ht⟩
  rw [name, h.text_eq, ofSlice_ok_bind, Literal.name?_cons hc ht hr]
  refine (tells_read .identifier h hname (by decide) (by decide) (.first rfl)).mono ?_
  rintro w tokens' ⟨-, hw⟩
  exact ⟨r, hw⟩

theorem tells_operand (hf : TellsOperand input '(' f) (hg : TellsOperand input '-' g) :
    TellsFactor input (operand f g) := by
  intro opened tokens s v h
  refine .bind (.enter (exists_unread_of_trimmed h)) ?_
  rintro _ tokens' rfl
  generalize s.trimmed = s at h
  rw [View.head?_eq h.text_eq, ofSlice_ok_bind]
  cases s with
  | nil => exact .fail trivial
  | cons c s =>
      dsimp only [List.head?_cons]
      split_ifs with hdigit hname hopen hminus
      · exact tells_number h hdigit
      · exact tells_name h hname
      · obtain rfl : c = '(' := of_decide_eq_true hopen
        exact hf h
      · obtain rfl : c = '-' := of_decide_eq_true hminus
        exact hg h
      · exact .fail trivial

/-- An empty group is read where a term is due, and refused. -/
theorem tells_emptyGroup (h : v.text = .ok ('(' :: ')' :: r)) :
    (do let v ← read .openParen 1 v
        let _ ← read .closeParen 1 v
        fail .mismatch : Attempt View).Tells input tokens (.entry .term) due
      (FacesOn input opened) := by
  refine .bind (.read .openParen (t := ['(']) h (.opening rfl)) ?_
  rintro w tokens' ⟨rfl, -⟩
  refine .bind (.read .closeParen (t := [')']) (View.text_back_cons h) (.closing rfl)) ?_
  rintro w tokens'' -
  exact .fail trivial

section
variable (hf : TellsFactor input f)
include hf

theorem tells_products (n : Nat) (h : v.Faces input opened tokens s) :
    (products f n v).Tells input tokens .further .further (FacesOn input opened) := by
  induction n generalizing tokens s v with
  | zero => exact .pure ⟨s, h⟩
  | succ n ih =>
      by_cases hahead : CharSet.mulOp.NotAhead s
      · rw [products_of_notAhead h.text_eq hahead]
        exact .pure ⟨s, h⟩
      · obtain ⟨c, s, rfl, hc⟩ := CharSet.exists_of_not_notAhead hahead
        rw [products, View.headIn_eq h.text_eq, ofSlice_ok_bind, List.head?_cons, Option.any_some,
          if_pos hc]
        refine .bind (tells_char .mulOp h hc (by decide) (by decide) (.more rfl)) ?_
        rintro v tokens' ⟨-, hv⟩
        rw [trim_eq_pure hv.text_eq, pure_bind]
        refine .bind (hf hv.trimmed) ?_
        rintro v tokens'' ⟨r, hv⟩
        rw [trim_eq_pure hv.text_eq, pure_bind]
        exact ih hv.trimmed

theorem tells_term (h : v.Faces input opened tokens s.trimmed) :
    (term f v).Tells input tokens (.entry .term) .further (FacesOn input opened) := by
  refine .bind (.enter (exists_unread_of_trimmed h)) ?_
  rintro _ tokens' rfl
  refine .bind (hf h) ?_
  rintro v tokens' ⟨r, hv⟩
  rw [trim_eq_pure hv.text_eq, pure_bind]
  exact tells_products hf _ hv.trimmed

theorem tells_sums (n : Nat) (h : v.Faces input opened tokens s) :
    (sums f n v).Tells input tokens .further .further (FacesOn input opened) := by
  induction n generalizing tokens s v with
  | zero => exact .pure ⟨s, h⟩
  | succ n ih =>
      by_cases hahead : CharSet.addOp.NotAhead s
      · rw [sums_of_notAhead h.text_eq hahead]
        exact .pure ⟨s, h⟩
      · obtain ⟨c, s, rfl, hc⟩ := CharSet.exists_of_not_notAhead hahead
        rw [sums, View.headIn_eq h.text_eq, ofSlice_ok_bind, List.head?_cons, Option.any_some,
          if_pos hc]
        refine .bind (tells_char .addOp h hc (by decide) (by decide) (.more rfl)) ?_
        rintro v tokens' ⟨-, hv⟩
        have htext := hv.trimmed.text_eq
        rw [trim_eq_pure hv.text_eq, pure_bind, View.beginsWith_eq htext, ofSlice_ok_bind]
        split_ifs with hempty
        · obtain ⟨r, hr⟩ := List.isPrefixOf_iff_prefix.mp hempty
          rw [← hr] at htext
          exact tells_emptyGroup htext
        · refine .bind (tells_term hf hv.trimmed) ?_
          rintro v tokens'' ⟨r, hv⟩
          exact ih hv

/-- The groups that are open around an expression are open behind it. -/
theorem tells_expression (h : v.Faces input opened tokens s)
    (hshows : Rule.expression.Shows input tokens v) :
    (expression f v).Tells input tokens (.entry .expression) .further
      fun _ tokens' => Token.openers tokens' = opened := by
  refine .bind (.enter hshows) ?_
  rintro _ tokens' rfl
  rw [trim_eq_pure h.text_eq, pure_bind]
  refine .bind (tells_term hf h.trimmed) ?_
  rintro v tokens' ⟨r, hv⟩
  refine .bind (tells_sums hf _ hv) ?_
  rintro w tokens'' ⟨t, hw⟩
  split_ifs
  · exact .pure hw.openers_eq
  · exact .fail trivial

end

theorem tells_group (hf : TellsFactor input f) : TellsOperand input '(' (group f) := by
  intro opened tokens s v h
  refine .bind (.read .openParen (t := ['(']) h.text_eq (.first rfl)) ?_
  rintro w tokens' ⟨rfl, rfl⟩
  have hrest := View.text_back_cons h.text_eq
  rw [hrest, ofSlice_ok_bind]
  cases hclose : Literal.closing? s with
  | none => exact .fail ⟨_, by rw [List.getLast?_concat]; rfl, h.unmatched hclose⟩
  | some close =>
      obtain ⟨inner, r, rfl, rfl, hinner⟩ := Literal.exists_balanced_of_closing? hclose
      obtain ⟨after, hencloses⟩ := h.encloses hinner
      have hgroup := h.enterGroup hinner
      have hshows : Rule.expression.Shows input
          (tokens ++ [Token.placed v.start .openParen ['(']])
          ((v.back (inner ++ ')' :: r)).splitAt (byteLength inner)).1 := by
        refine .inr ⟨_, ?_, inner, after, hencloses, hgroup.text_eq⟩
        rw [List.getLast?_concat]
        rfl
      refine .bind (tells_expression hf hgroup hshows) ?_
      intro _ tokens' hopened
      have hleft := View.splitAt_snd hrest
      have hstart := View.start_back hrest
      have hclosing := View.text_back hrest
      rw [View.back_back] at hleft hstart hclosing
      rw [View.start_back_cons h.text_eq] at hstart
      change (read .closeParen 1 ((v.back (inner ++ ')' :: r)).splitAt (byteLength inner)).2).Tells
        _ _ _ _ _
      rw [hleft]
      refine (Tells.read .closeParen (t := [')']) hclosing (.more rfl)).mono ?_
      rintro w tokens'' ⟨rfl, rfl⟩
      rw [hstart]
      exact ⟨r, h.leaveGroup hinner hopened⟩

theorem tells_sign (hf : TellsFactor input f) : TellsOperand input '-' (sign f) := by
  intro opened tokens s v h
  refine .bind (tells_char .minus h rfl (by decide) (by decide) (.first rfl)) ?_
  rintro v tokens' ⟨-, hv⟩
  rw [trim_eq_pure hv.text_eq, pure_bind]
  exact hf hv.trimmed

theorem tells_factor (limit room : Nat) : TellsFactor input (factor limit room) := by
  induction room with
  | zero =>
      refine tells_operand ?_ ?_
      · exact fun opened tokens s v _ => .fail trivial
      · exact fun opened tokens s v _ => .fail trivial
  | succ room ih => exact tells_operand (tells_group ih) (tells_sign ih)

end Reading

/-- The trace of a recognition begins with an expression and tells of all that is read. -/
theorem tells_recognize (limit : NestingLimit) (input : Text) :
    (recognize limit input).Tells input [] (.entry .expression) .further
      fun _ tokens => Token.openers tokens = [] := by
  have hwhole := (View.Faces.whole input).trimmed
  have hshows : Rule.expression.Shows input [] (View.whole input).trimmed :=
    .inl ⟨rfl, hwhole.text_eq⟩
  rw [recognize, trim_eq_pure (View.text_whole input), pure_bind]
  exact tells_expression (tells_factor limit.levels limit.levels) hwhole hshows

/-- An expression is due in the end only behind an opening parenthesis that is not closed. -/
theorem unmatched_iff_due {input : Text} {es : List Event} {d : Due}
    (hrun : Due.Run (.entry .expression) es d) (htruthful : Event.Truthful input [] es)
    (hstops : d.Stops input (Event.tokens es)) :
    (∃ t ∈ (Event.tokens es).getLast?, t.Unmatched input) ↔ d = .entry .expression := by
  constructor
  · rintro ⟨t, hlast, hunmatched⟩
    obtain ⟨front, hfront⟩ := List.getLast?_eq_some_iff.mp hlast
    obtain ⟨es₁, es₂, rfl, -, hnone⟩ := Event.exists_of_tokens_eq hfront
    obtain ⟨d₁, -, hrest⟩ := hrun.of_append
    cases hrest with
    | cons hstep hes₂ =>
        cases es₂ with
        | nil =>
            cases hes₂
            rcases hstep.of_openParen hunmatched.1 with rfl | rfl
            · rfl
            · exact hstops.elim
        | cons e es₂ =>
            cases e with
            | read u => cases hnone
            | entered rule v =>
                have hentered : rule = .expression := by
                  cases hes₂ with
                  | cons henter _ =>
                      rcases hstep.of_openParen hunmatched.1 with rfl | rfl
                      · cases henter
                        rfl
                      · cases henter
                subst hentered
                have hbehind := (Event.truthful_append.mp htruthful).2
                exact absurd hunmatched hbehind.not_unmatched
  · rintro rfl
    exact hstops

end ArithGrammar
