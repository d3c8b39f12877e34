import ArithGrammar.Account
import ArithGrammar.Proofs.Grouping
import ArithGrammar.Proofs.TruthfulTrace

/-!
# The account of a recognition is true

The account at the level `trace` has a record for each event of the trace, and the first word of a
record says which: `expression`, `term`, `factor` or `token`. So what the trace tells is told by the
account as well. Its entries of the rules are counted by the tokens of the verdict
(`entries_of_account`), and each record agrees with the verdict and with the records in front of it
(`account_tells_run`).
-/
namespace ArithGrammar
open Text (byteLength)

def Record.word (r : Record) : Text := r.message.takeWhile (· ≠ ' ')

theorem Record.word_of_message {r : Record} {word rest : Text}
    (h : r.message = word ++ ' ' :: rest) (hword : ' ' ∉ word) : r.word = word := by
  have hall : ∀ c ∈ word, decide (c ≠ ' ') = true := by
    intro c hc
    rw [decide_eq_true_iff]
    rintro rfl
    exact hword hc
  rw [Record.word, h, List.takeWhile_append_of_pos hall, List.takeWhile_cons_of_neg (by decide),
    List.append_nil]

theorem Rule.label_injective {rule rule' : Rule} (h : rule.label = rule'.label) : rule = rule' := by
  revert h
  cases rule <;> cases rule' <;> decide +kernel

/-- A record about a rule is neither about a token nor about the end. -/
theorem Rule.label_ne (rule : Rule) : rule.label ≠ "token".toList ∧
    rule.label ≠ "accepted".toList ∧ rule.label ≠ "rejected".toList := by
  cases rule <;> decide +kernel

namespace Event

def record (e : Event) : Record := ⟨.trace, recognitionTarget, e.message⟩

theorem message_entered (rule : Rule) (v : View) :
    (entered rule v).message = rule.label ++ [' '] ++ Quoted.encode v.chars := rfl

theorem message_read (t : Token) :
    (read t).message = "token ".toList ++ t.kind.label ++ [' '] ++ Quoted.encode t.text ++
      " at ".toList ++ Text.ofNat t.span.start ++ "..".toList ++ Text.ofNat t.span.stop := rfl

theorem word_entered (rule : Rule) (v : View) : (entered rule v).record.word = rule.label := by
  have hmessage : (entered rule v).record.message =
      rule.label ++ ' ' :: Quoted.encode v.chars := by
    rw [record, message_entered, List.append_assoc, List.singleton_append]
  exact Record.word_of_message hmessage (by cases rule <;> decide +kernel)

theorem word_read (t : Token) : (read t).record.word = "token".toList := by
  have hword : "token ".toList = "token".toList ++ [' '] := by decide +kernel
  obtain ⟨rest, hrest⟩ : ∃ rest, (read t).message = "token".toList ++ ' ' :: rest := by
    rw [message_read, hword]
    simp only [List.append_assoc, List.singleton_append]
    exact ⟨_, rfl⟩
  exact Record.word_of_message hrest (by decide +kernel)

theorem message_record {rule : Rule} {v : View} {s : Text} (h : v.text = .ok s) :
    (entered rule v).record.message = (entered rule v).record.word ++ ' ' :: Quoted.encode s := by
  rw [word_entered, record, message_entered, View.chars_eq h, List.append_assoc,
    List.singleton_append]

theorem filter_token_record (es : List Event) :
    (es.map record).filter (fun r => r.word = "token".toList) =
      (tokens es).map fun t => (read t).record := by
  induction es with
  | nil => rfl
  | cons e es ih =>
      cases e with
      | entered rule v =>
          rw [List.map_cons, List.filter_cons, word_entered, ih, decide_eq_false rule.label_ne.1]
          rfl
      | read t =>
          rw [List.map_cons, List.filter_cons, word_read, ih, decide_eq_true rfl]
          rfl

theorem countP_record (rule : Rule) (es : List Event) :
    (es.map record).countP (fun r => r.word = rule.label) = (rules es).count rule := by
  induction es with
  | nil => rfl
  | cons e es ih =>
      cases e with
      | entered rule' v =>
          have hiff : rule'.label = rule.label ↔ rule' = rule :=
            ⟨Rule.label_injective, congrArg Rule.label⟩
          rw [List.map_cons, List.countP_cons, word_entered, ih, rules_entered, List.count_cons]
          simp only [hiff, decide_eq_true_iff, beq_iff_eq]
      | read t =>
          rw [List.map_cons, List.countP_cons, word_read, ih, rules_read,
            decide_eq_false rule.label_ne.1.symm]
          rfl

end Event

namespace Attempt

def lastRecord (x : Attempt Unit) (input : Text) : Record :=
  ⟨.debug, recognitionTarget, x.summary input⟩

theorem summary_of_ok {x : Attempt Unit} (h : x.outcome = .ok ()) (input : Text) :
    x.summary input = "accepted ".toList ++ Quoted.encode input ++ " (".toList ++
      Text.ofNat x.tokens.length ++ " tokens)".toList := by
  obtain ⟨tokens, trace, outcome⟩ := x
  obtain rfl : outcome = .ok () := h
  rfl

theorem summary_of_error {x : Attempt Unit} {failure : Failure} (h : x.outcome = .error failure)
    (input : Text) :
    x.summary input = "rejected ".toList ++ Quoted.encode input ++ ": ".toList ++
      failure.message := by
  obtain ⟨tokens, trace, outcome⟩ := x
  obtain rfl : outcome = .error failure := h
  rfl

theorem word_lastRecord (x : Attempt Unit) (input : Text) :
    (x.lastRecord input).word = "accepted".toList ∨
      (x.lastRecord input).word = "rejected".toList := by
  have haccepted : "accepted ".toList = "accepted".toList ++ [' '] := by decide +kernel
  have hrejected : "rejected ".toList = "rejected".toList ++ [' '] := by decide +kernel
  cases h : x.outcome with
  | ok u =>
      have hsummary := x.summary_of_ok h input
      rw [haccepted] at hsummary
      simp only [List.append_assoc, List.singleton_append] at hsummary
      exact .inl (Record.word_of_message hsummary (by decide +kernel))
  | error failure =>
      have hsummary := x.summary_of_error h input
      rw [hrejected] at hsummary
      simp only [List.append_assoc, List.singleton_append] at hsummary
      exact .inr (Record.word_of_message hsummary (by decide +kernel))

theorem word_lastRecord_ne (x : Attempt Unit) (input : Text) {word : Text}
    (haccepted : word ≠ "accepted".toList) (hrejected : word ≠ "rejected".toList) :
    (x.lastRecord input).word ≠ word := by
  rcases x.word_lastRecord input with hword | hword
  · rw [hword]
    exact haccepted.symm
  · rw [hword]
    exact hrejected.symm

end Attempt

/-- The account at the level `trace` has the records of all events and a last one. -/
theorem account_trace (limit : NestingLimit) (input : Text) :
    account (·.within (some .trace)) limit input =
      (recognize limit input).trace.map Event.record ++
        [(recognize limit input).lastRecord input] := rfl

instance Token.decidableUnmatched (input : Text) (t : Token) : Decidable (t.Unmatched input) :=
  match h : Text.slice input (t.span.start + 1) (byteLength input) with
  | .ok rest =>
      decidable_of_iff (t.kind = .openParen ∧ Literal.closing? rest = none)
        (by simp [Token.Unmatched, h])
  | .error e => isFalse (by simp [Token.Unmatched, h])

theorem Token.endsInEmptyGroup_iff_suffix {tokens : List Token} :
    EndsInEmptyGroup tokens ↔ [TokenKind.openParen, .closeParen] <:+ tokens.map kind := by
  constructor
  · rintro ⟨kept, x, y, rfl, hx, hy⟩
    refine ⟨kept.map kind, ?_⟩
    rw [List.map_append, List.map_cons, List.map_singleton, hx, hy]
  · rintro ⟨kinds, hkinds⟩
    obtain ⟨kept, us, rfl, -, hus⟩ := List.map_eq_append_iff.mp hkinds.symm
    obtain ⟨x, ys, rfl, hx, hys⟩ := List.map_eq_cons_iff.mp hus
    obtain ⟨y, zs, rfl, hy, hzs⟩ := List.map_eq_cons_iff.mp hys
    obtain rfl := List.map_eq_nil_iff.mp hzs
    exact ⟨kept, x, y, rfl, hx, hy⟩

theorem Laid.length_le {start : Nat} {ts : List Token} {s : Text} (h : Laid start ts s) :
    ts.length ≤ byteLength s := by
  induction ts generalizing start s with
  | nil => exact Nat.zero_le _
  | cons t ts ih =>
      obtain ⟨gap, rest, rfl, -, -, hsolid, -, hrest⟩ := h
      have hpos : byteLength t.text ≠ 0 := hsolid.1 ∘ Text.byteLength_eq_zero.mp
      have hle := ih hrest
      simp only [List.length_cons, Text.byteLength_append]
      omega

/-- The rules that are entered are counted by the tokens that are read, and what is still due at
the end makes the difference. -/
theorem count_rules_of_run {es : List Event} {d : Due} (h : Due.Run (.entry .expression) es d) :
    let number (kind : TokenKind) := (Event.tokens es).countP (·.kind = kind)
    (Event.rules es).count .factor + d.owes .factor =
        (Event.rules es).count .term + number .mulOp + number .minus ∧
      (Event.rules es).count .term + d.owes .term =
        (Event.rules es).count .expression + number .addOp ∧
      (Event.rules es).count .expression + d.owes .expression = 1 + number .openParen := by
  intro number
  have hexpression := h.count_rules .expression
  have hterm := h.count_rules .term
  have hfactor := h.count_rules .factor
  rw [Due.countP_entry_expression, Due.countP_token_expression] at hexpression
  rw [Due.countP_entry_term, Due.countP_token_term] at hterm
  rw [Due.countP_entry_factor, Due.countP_token_factor] at hfactor
  refine ⟨?_, hterm, ?_⟩
  · rw [Nat.add_assoc]
    exact hfactor
  · rw [hexpression, Nat.zero_add, Nat.add_comm]
    rfl

/-- Where a recognition stops, what is due shows the two ways in which an expression or a term is
left out. -/
theorem exists_due_recognize (limit : NestingLimit) (input : Text) :
    let x := recognize limit input
    ∃ d, Due.Run (.entry .expression) x.trace d ∧ d.Stops input x.tokens ∧
      (Token.EndsInEmptyGroup x.tokens ↔ d = .nothing) ∧
      ((∃ t ∈ x.tokens.getLast?, t.Unmatched input) ↔ d = .entry .expression) := by
  intro x
  have htells := tells_recognize limit input
  have hrun : ∃ d, Due.Run (.entry .expression) x.trace d ∧ d.Stops input x.tokens := by
    cases hout : x.outcome with
    | ok u => exact ⟨.further, (htells.ok u hout).1, trivial⟩
    | error failure => exact htells.error failure hout
  obtain ⟨d, hrun, hstops⟩ := hrun
  have hrefusal : d ≠ .refusal := by
    rintro rfl
    exact hstops
  have htokens : x.tokens = Event.tokens x.trace := htells.tokens_eq
  rw [htokens] at hstops ⊢
  exact ⟨d, hrun, hstops, hrun.endsInEmptyGroup_iff hrefusal,
    unmatched_iff_due hrun htells.truthful hstops⟩

theorem countP_record_account (rule : Rule) (limit : NestingLimit) (input : Text) :
    (account (·.within (some .trace)) limit input).countP (fun r => r.word = rule.label) =
      (Event.rules (recognize limit input).trace).count rule := by
  obtain ⟨-, haccepted, hrejected⟩ := rule.label_ne
  have hlast := (recognize limit input).word_lastRecord_ne input haccepted hrejected
  rw [account_trace, List.countP_append, Event.countP_record, List.countP_singleton,
    decide_eq_false hlast]
  rfl

theorem Token.countP_kinds_le (ts : List Token) :
    ts.countP (·.kind = .addOp) + ts.countP (·.kind = .mulOp) + ts.countP (·.kind = .minus) +
      ts.countP (·.kind = .openParen) ≤ ts.length := by
  induction ts with
  | nil => exact Nat.le_refl 0
  | cons t ts ih =>
      simp only [List.countP_cons, List.length_cons]
      cases t.kind <;> simp <;> omega

/-- What is still owed at the end of a recognition, by the two ways to leave an entry out. -/
theorem Due.Stops.owes_eq {input : Text} {tokens : List Token} {d : Due}
    (h : d.Stops input tokens) :
    d.owes .factor = 0 ∧ d.owes .term = (if d = nothing then 1 else 0) ∧
      d.owes .expression =
        (if d = nothing then 1 else 0) + (if d = entry .expression then 1 else 0) := by
  cases d with
  | entry rule =>
      cases rule with
      | expression => decide
      | term => exact h.elim
      | factor => exact h.elim
  | operand => decide
  | further => decide
  | refusal => exact h.elim
  | nothing => decide

/-- Every entry of a rule is accounted for by a token, and of the two ways to leave one out at most
one occurs. The number of entries is linear in the number of tokens, which the text bounds. -/
theorem entries_of_account (n : Nat) (input : Text) :
    let log := account (·.within (some .trace)) (.ofNat n) input
    let tokens := (Verdict.evaluate (.ofNat n) input).tokens
    let entries (rule : Rule) := log.countP (·.word = rule.label)
    let number (kind : TokenKind) := tokens.countP (·.kind = kind)
    let refused := if [TokenKind.openParen, .closeParen] <:+ tokens.map Token.kind then 1 else 0
    let unmatched := if ∃ t ∈ tokens.getLast?, t.Unmatched input then 1 else 0
    entries .factor = entries .term + number .mulOp + number .minus ∧
      entries .term + refused = entries .expression + number .addOp ∧
      entries .expression + refused + unmatched = 1 + number .openParen ∧
      entries .expression + entries .term + entries .factor ≤ 3 * (tokens.length + 1) ∧
      tokens.length ≤ byteLength input := by
  intro log tokens entries number refused unmatched
  have hentries (rule : Rule) :
      entries rule = (Event.rules (recognize (.ofNat n) input).trace).count rule :=
    countP_record_account rule (.ofNat n) input
  have htokens : tokens = Event.tokens (recognize (.ofNat n) input).trace :=
    (tells_recognize (.ofNat n) input).tokens_eq
  obtain ⟨d, hrun, hstops, hrefused, hunmatched⟩ := exists_due_recognize (.ofNat n) input
  rw [Token.endsInEmptyGroup_iff_suffix] at hrefused
  have hrefused : refused = if d = .nothing then 1 else 0 := if_congr hrefused rfl rfl
  have hunmatched : unmatched = if d = .entry .expression then 1 else 0 :=
    if_congr hunmatched rfl rfl
  obtain ⟨howes, howes', howes''⟩ := hstops.owes_eq
  rw [← hrefused] at howes' howes''
  rw [← hunmatched] at howes''
  obtain ⟨hfactor, hterm, hexpression⟩ := count_rules_of_run hrun
  rw [← htokens, ← hentries, ← hentries, howes, Nat.add_zero] at hfactor
  rw [← htokens, ← hentries, ← hentries, howes'] at hterm
  rw [← htokens, ← hentries, howes'', ← Nat.add_assoc] at hexpression
  change entries .factor = entries .term + number .mulOp + number .minus at hfactor
  change entries .term + refused = entries .expression + number .addOp at hterm
  change entries .expression + refused + unmatched = 1 + number .openParen at hexpression
  refine ⟨hfactor, hterm, hexpression, ?_, ?_⟩
  · have hkinds : number .addOp + number .mulOp + number .minus + number .openParen ≤
        tokens.length := Token.countP_kinds_le tokens
    omega
  · obtain ⟨read, rest, hinput, hlaid, -⟩ := laid_evaluate (.ofNat n) input
    have hlength : tokens.length ≤ byteLength read := hlaid.length_le
    rw [hinput, Text.byteLength_append]
    exact hlength.trans (Nat.le_add_right _ _)

/-- No term is entered behind the operator, and no expression in the group. -/
example : (account (·.within (some .trace)) (.ofNat 8) "1+()".toList).map Record.word =
    ["expression", "term", "factor", "token", "token", "token", "token", "rejected"].map
      String.toList := by decide +kernel

/-- The tokens of a recognition that have a record among those in front. -/
def Attempt.logged (x : Attempt Unit) (front : List Record) : List Token :=
  x.tokens.take (front.countP (·.word = "token".toList))

section
variable {limit : NestingLimit} {input : Text} {front behind : List Record} {r : Record}
  {rule : Rule}

/-- A record about a rule is that of an entry, behind the tokens logged so far. -/
theorem exists_entry_of_account
    (h : account (·.within (some .trace)) limit input = front ++ r :: behind)
    (hword : r.word = rule.label) :
    ∃ es v es', (recognize limit input).trace = es ++ .entered rule v :: es' ∧
      front = es.map Event.record ∧ r = (Event.entered rule v).record := by
  obtain ⟨htoken, haccepted, hrejected⟩ := rule.label_ne
  have hlast := (recognize limit input).word_lastRecord_ne input haccepted hrejected
  have hne : r ≠ (recognize limit input).lastRecord input := by
    rintro rfl
    exact hlast hword
  rw [account_trace] at h
  obtain ⟨more, hmap⟩ :
      ∃ more, (recognize limit input).trace.map Event.record = front ++ r :: more := by
    rcases List.eq_nil_or_concat behind with rfl | ⟨more, r', rfl⟩
    · obtain ⟨-, hr⟩ := List.append_inj' h rfl
      exact absurd (List.cons.inj hr).1.symm hne
    · rw [List.concat_eq_append, ← List.cons_append, ← List.append_assoc] at h
      exact ⟨more, (List.append_inj' h rfl).1⟩
  obtain ⟨es, fs, htrace, rfl, hfs⟩ := List.map_eq_append_iff.mp hmap
  obtain ⟨e, es', rfl, rfl, -⟩ := List.map_eq_cons_iff.mp hfs
  cases e with
  | entered rule' v =>
      rw [Event.word_entered] at hword
      obtain rfl := Rule.label_injective hword
      exact ⟨es, v, es', htrace, rfl, rfl⟩
  | read t =>
      rw [Event.word_read] at hword
      exact absurd hword.symm htoken

/-- The tokens logged in front of an event are those that the trace reads in front of it. -/
theorem logged_record {es es' : List Event} (h : (recognize limit input).trace = es ++ es') :
    (recognize limit input).logged (es.map Event.record) = Event.tokens es := by
  have hcount : (es.map Event.record).countP (·.word = "token".toList) =
      (Event.tokens es).length := by
    rw [List.countP_eq_length_filter, Event.filter_token_record, List.length_map]
  rw [Attempt.logged, hcount, (tells_recognize limit input).tokens_eq, h, Event.tokens_append,
    List.take_left]

/-- Each entry of an expression but the first is due to an opening parenthesis. -/
theorem count_expression_of_entered {es es' : List Event} {v : View}
    (h : (recognize limit input).trace = es ++ .entered .expression v :: es') :
    (Event.rules es).count .expression = (Event.tokens es).countP (·.kind = .openParen) := by
  obtain ⟨d, hrun, -⟩ := exists_due_recognize limit input
  rw [h] at hrun
  obtain ⟨d₁, hfront, hbehind⟩ := hrun.of_append
  cases hbehind with
  | cons hstep _ =>
      cases hstep
      obtain ⟨-, -, hcount⟩ := count_rules_of_run hfront
      rw [Due.owes_entry, if_pos rfl, Nat.add_comm] at hcount
      exact Nat.add_left_cancel hcount

/-- A term or a factor is entered on what is unread without the blanks around it. -/
theorem shows_part {es es' : List Event} {v : View} (hrule : rule ≠ .expression)
    (h : (recognize limit input).trace = es ++ .entered rule v :: es') :
    ∃ unread, Token.Unread input (Event.tokens es) unread ∧ v.text = .ok unread.trimmed := by
  have htruthful := (tells_recognize limit input).truthful
  rw [h] at htruthful
  have hshows := htruthful.shows
  rw [List.nil_append] at hshows
  cases rule with
  | expression => exact absurd rfl hrule
  | term => exact hshows
  | factor => exact hshows

/-- The first expression is entered on the whole text, each later one in the group just opened. -/
theorem shows_expression {es es' : List Event} {v : View}
    (h : (recognize limit input).trace = es ++ .entered .expression v :: es') :
    ((Event.rules es).count .expression = 0 → v.text = .ok input.trimmed) ∧
      ((Event.rules es).count .expression ≠ 0 → ∃ t ∈ (Event.tokens es).getLast?,
        ∃ inner after, t.Encloses input inner after ∧ v.text = .ok inner) := by
  have htruthful := (tells_recognize limit input).truthful
  rw [h] at htruthful
  rw [count_expression_of_entered h]
  obtain ⟨hnil, htext⟩ | ⟨t, hlast, inner, after, hencloses, htext⟩ := htruthful.shows
  · rw [List.nil_append] at hnil
    rw [hnil]
    exact ⟨fun _ => htext, fun hne => absurd rfl hne⟩
  · rw [List.nil_append] at hlast
    refine ⟨fun hzero => ?_, fun _ => ⟨t, hlast, inner, after, hencloses, htext⟩⟩
    have hnone := List.countP_eq_zero.mp hzero t (List.mem_of_getLast? hlast)
    exact absurd (decide_eq_true hencloses.kind_eq) hnone

/-- A term or a factor is recorded with what is unread behind the tokens logged so far. -/
theorem part_of_account (hrule : rule ≠ .expression)
    (h : account (·.within (some .trace)) limit input = front ++ r :: behind)
    (hword : r.word = rule.label) :
    ∃ unread, Token.Unread input ((recognize limit input).logged front) unread ∧
      r.message = r.word ++ ' ' :: Quoted.encode unread.trimmed := by
  obtain ⟨es, v, es', htrace, rfl, rfl⟩ := exists_entry_of_account h hword
  obtain ⟨unread, hunread, htext⟩ := shows_part hrule htrace
  rw [← logged_record htrace] at hunread
  exact ⟨unread, hunread, Event.message_record htext⟩

/-- The first expression is recorded with the whole text, each later one with that of the group just
opened. -/
theorem expression_of_account
    (h : account (·.within (some .trace)) limit input = front ++ r :: behind)
    (hword : r.word = Rule.expression.label) :
    ((∀ r' ∈ front, r'.word ≠ Rule.expression.label) →
        r.message = r.word ++ ' ' :: Quoted.encode input.trimmed) ∧
      ((∃ r' ∈ front, r'.word = Rule.expression.label) →
        ∃ t ∈ ((recognize limit input).logged front).getLast?, ∃ inner after,
          t.Encloses input inner after ∧ r.message = r.word ++ ' ' :: Quoted.encode inner) := by
  obtain ⟨es, v, es', htrace, rfl, rfl⟩ := exists_entry_of_account h hword
  obtain ⟨hfirst, hlater⟩ := shows_expression htrace
  rw [← Event.countP_record] at hfirst hlater
  rw [← logged_record htrace] at hlater
  constructor
  · intro hnone
    refine Event.message_record (hfirst (List.countP_eq_zero.mpr fun r' hr' => ?_))
    exact fun hlabel => hnone r' hr' (of_decide_eq_true hlabel)
  · rintro ⟨r', hr', hlabel⟩
    have hpos : 0 < (es.map Event.record).countP (·.word = Rule.expression.label) :=
      List.countP_pos_iff.mpr ⟨r', hr', decide_eq_true hlabel⟩
    obtain ⟨t, hlast, inner, after, hencloses, htext⟩ := hlater hpos.ne'
    exact ⟨t, hlast, inner, after, hencloses, Event.message_record htext⟩

theorem filter_token_account (limit : NestingLimit) (input : Text) :
    (account (·.within (some .trace)) limit input).filter (fun r => r.word = "token".toList) =
      (recognize limit input).tokens.map fun t => (Event.read t).record := by
  have hlast : ((recognize limit input).lastRecord input).word ≠ "token".toList :=
    Attempt.word_lastRecord_ne _ input (by decide +kernel) (by decide +kernel)
  rw [account_trace, List.filter_append, Event.filter_token_record,
    (tells_recognize limit input).tokens_eq, List.filter_singleton, decide_eq_false hlast]
  exact List.append_nil _

end

/-- How a recognition ends is said by its last record. -/
theorem summary_recognize (n : Nat) (input : Text) :
    let attempt := recognize (.ofNat n) input
    let verdict := Verdict.evaluate (.ofNat n) input
    (verdict.valid = true → attempt.summary input = "accepted ".toList ++ Quoted.encode input ++
      " (".toList ++ Text.ofNat verdict.tokens.length ++ " tokens)".toList) ∧
    (verdict.valid = false → ∃ cause,
      attempt.summary input = "rejected ".toList ++ Quoted.encode input ++ ": ".toList ++ cause ∧
      (attempt.outcome = .error .mismatch ∧ cause = "syntax mismatch".toList ∨
        attempt.TooDeep ∧ cause = "nesting deeper than ".toList ++
          Text.ofNat (min n maxNesting) ++ " levels".toList)) := by
  intro attempt verdict
  cases hout : attempt.outcome with
  | ok u =>
      have hvalid : verdict.valid = true := Verdict.valid_of_ok hout
      refine ⟨fun _ => attempt.summary_of_ok hout input, fun hinvalid => ?_⟩
      rw [hvalid] at hinvalid
      cases hinvalid
  | error failure =>
      have hinvalid : verdict.valid = false := Verdict.not_valid_of_error hout
      refine ⟨fun hvalid => ?_, fun _ => ?_⟩
      · rw [hinvalid] at hvalid
        cases hvalid
      · refine ⟨failure.message, attempt.summary_of_error hout input, ?_⟩
        obtain rfl | rfl := failure_recognize hout
        · exact .inl ⟨rfl, rfl⟩
        · exact .inr ⟨⟨_, hout⟩, rfl⟩

/-- The account is true. Its records of tokens are those of the verdict's tokens, in their order,
and the last record, the only one at the level `debug`, says how the recognition ended. A term and a
factor are entered on what is unread behind the tokens logged so far, an expression on the whole
text or on that of the group just opened. The account at another level is a part of this one. -/
theorem account_tells_run (n : Nat) (input : Text) :
    let attempt := recognize (.ofNat n) input
    let verdict := Verdict.evaluate (.ofNat n) input
    let log := account (·.within (some .trace)) (.ofNat n) input
    log.filter (·.word = "token".toList) = verdict.tokens.map (fun t =>
      ⟨.trace, recognitionTarget, "token ".toList ++ t.kind.label ++ [' '] ++
        Quoted.encode t.text ++ " at ".toList ++ Text.ofNat t.span.start ++ "..".toList ++
        Text.ofNat t.span.stop⟩) ∧
    (∃ front message, log = front ++ [⟨.debug, recognitionTarget, message⟩] ∧
      (∀ r ∈ front, r.level = .trace) ∧
      (verdict.valid = true → message = "accepted ".toList ++ Quoted.encode input ++
        " (".toList ++ Text.ofNat verdict.tokens.length ++ " tokens)".toList) ∧
      (verdict.valid = false → ∃ cause,
        message = "rejected ".toList ++ Quoted.encode input ++ ": ".toList ++ cause ∧
        (attempt.outcome = .error .mismatch ∧ cause = "syntax mismatch".toList ∨
          attempt.TooDeep ∧ cause = "nesting deeper than ".toList ++
            Text.ofNat (min n maxNesting) ++ " levels".toList))) ∧
    (∀ front r behind, log = front ++ r :: behind →
      r.word = Rule.term.label ∨ r.word = Rule.factor.label →
      ∃ unread, Token.Unread input (attempt.logged front) unread ∧
        r.message = r.word ++ ' ' :: Quoted.encode unread.trimmed ∧
        CharSet.blank.NotAhead unread.trimmed ∧ unread.trimmed.EndsSolid) ∧
    (∀ front r behind, log = front ++ r :: behind → r.word = Rule.expression.label →
      ((∀ r' ∈ front, r'.word ≠ Rule.expression.label) →
        r.message = r.word ++ ' ' :: Quoted.encode input.trimmed) ∧
      ((∃ r' ∈ front, r'.word = Rule.expression.label) →
        ∃ t ∈ (attempt.logged front).getLast?, ∃ inner after, t.Encloses input inner after ∧
          r.message = r.word ++ ' ' :: Quoted.encode inner)) ∧
    ∀ most, account (·.within most) (.ofNat n) input = log.filter (·.level.within most) := by
  intro attempt verdict log
  refine ⟨filter_token_account (.ofNat n) input, ?_, ?_, ?_, ?_⟩
  · refine ⟨attempt.trace.map Event.record, attempt.summary input, account_trace _ _, ?_,
      summary_recognize n input⟩
    intro r hr
    obtain ⟨e, -, rfl⟩ := List.mem_map.mp hr
    rfl
  · intro front r behind hlog hword
    obtain ⟨rule, hlabel, hrule⟩ : ∃ rule : Rule, r.word = rule.label ∧ rule ≠ .expression := by
      rcases hword with hterm | hfactor
      · exact ⟨.term, hterm, nofun⟩
      · exact ⟨.factor, hfactor, nofun⟩
    obtain ⟨unread, hunread, hmessage⟩ := part_of_account hrule hlog hlabel
    exact ⟨unread, hunread, hmessage, Text.notAhead_trimmed unread, Text.endsSolid_trimmed unread⟩
  · exact fun front r behind hlog hword => expression_of_account hlog hword
  · exact fun most => account_eq_filter (·.within most) (.ofNat n) input

end ArithGrammar
