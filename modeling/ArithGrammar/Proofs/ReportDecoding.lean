import ArithGrammar.Proofs.Completion
import ArithGrammar.Proofs.SessionOutput

/-!
# Reports are read back

The report on an expression holds it as it is, so nothing in the text of a report tells where the
expression ends. But it stands on a line of its own between a quote and one of two endings, and the
tokens stand on a line of their own with a separator that no token has in it. So what is printed for
expressions without a line feed is read back line by line (`Reported.ofOutput?`), whatever else they
have in them, and each expression has its report (`output_oneShot_decodes`).
-/
namespace ArithGrammar

namespace Token

/-- The texts between the separators of a list. -/
def pieces : Text → List Text
  | [] => [[]]
  | ',' :: ' ' :: cs => [] :: pieces cs
  | c :: cs => InputLines.consFirst c (pieces cs)

/-- The texts that are displayed, none if nothing is. -/
def displayed (s : Text) : List Text := if s = [] then [] else pieces s

theorem pieces_append {s : Text} (h : ',' ∉ s) (t : Text) :
    pieces (s ++ ',' :: ' ' :: t) = s :: pieces t := by
  induction s with
  | nil => rfl
  | cons c s ih =>
      obtain ⟨hc, hs⟩ := not_or.mp (mt List.mem_cons.mpr h)
      rw [List.cons_append, pieces, ih hs]
      · rfl
      · rintro cs rfl
        exact absurd rfl hc

theorem pieces_eq {s : Text} (h : ',' ∉ s) : pieces s = [s] := by
  induction s with
  | nil => rfl
  | cons c s ih =>
      obtain ⟨hc, hs⟩ := not_or.mp (mt List.mem_cons.mpr h)
      rw [pieces, ih hs]
      · rfl
      · rintro cs rfl
        exact absurd rfl hc

theorem pieces_intercalate {texts : List Text} (hne : texts ≠ []) (h : ∀ s ∈ texts, ',' ∉ s) :
    pieces (", ".toList.intercalate texts) = texts := by
  induction texts with
  | nil => exact absurd rfl hne
  | cons s texts ih =>
      obtain ⟨hs, htexts⟩ := List.forall_mem_cons.mp h
      cases texts with
      | nil => rw [List.intercalate_singleton, pieces_eq hs]
      | cons t texts =>
          rw [List.intercalate_cons_cons, List.append_assoc]
          change pieces (s ++ ',' :: ' ' :: ", ".toList.intercalate (t :: texts)) = _
          rw [pieces_append hs, ih (List.cons_ne_nil t texts) htexts]

theorem mem_intercalate {sep : Text} {texts : List Text} {c : Char}
    (h : c ∈ sep.intercalate texts) : c ∈ sep ∨ ∃ s ∈ texts, c ∈ s := by
  induction texts with
  | nil => cases h
  | cons s texts ih =>
      cases texts with
      | nil =>
          rw [List.intercalate_singleton] at h
          exact .inr ⟨s, List.mem_cons_self, h⟩
      | cons t texts =>
          rw [List.intercalate_cons_cons, List.mem_append, List.mem_append] at h
          rcases h with (hs | hsep) | hrest
          · exact .inr ⟨s, List.mem_cons_self, hs⟩
          · exact .inl hsep
          · rcases ih hrest with hsep | ⟨u, hu, hc⟩
            · exact .inl hsep
            · exact .inr ⟨u, List.mem_cons_of_mem s hu, hc⟩

/-- The tokens of a verdict have texts, and no comma or end of a line is in them. -/
theorem text_of_mem_evaluate {limit : NestingLimit} {input : Text} {t : Token}
    (h : t ∈ (Verdict.evaluate limit input).tokens) :
    t.text ≠ [] ∧ ',' ∉ t.text ∧ '\n' ∉ t.text ∧ '\r' ∉ t.text := by
  have hformed := Reading.Found.formed (covers_recognize limit input) t h
  have hnot (c : Char) (hc : ∀ kind : TokenKind, kind.charSet.contains c = false) : c ∉ t.text := by
    intro hmem
    have hcontains := hformed.all c hmem
    rw [hc] at hcontains
    cases hcontains
  refine ⟨hformed.ne_nil, hnot ',' ?_, hnot '\n' ?_, hnot '\r' ?_⟩
  · intro kind
    cases kind <;> rfl
  · intro kind
    cases kind <;> rfl
  · intro kind
    cases kind <;> rfl

/-- The texts of a verdict's tokens are read back where they are displayed. -/
theorem displayed_display (limit : NestingLimit) (input : Text) :
    displayed (display (Verdict.evaluate limit input).tokens) =
      texts (Verdict.evaluate limit input).tokens := by
  have htext : ∀ s ∈ texts (Verdict.evaluate limit input).tokens, s ≠ [] ∧ ',' ∉ s := by
    intro s hs
    obtain ⟨t, ht, rfl⟩ := List.mem_map.mp hs
    obtain ⟨hne, hcomma, -⟩ := text_of_mem_evaluate ht
    exact ⟨hne, hcomma⟩
  rw [display]
  generalize texts (Verdict.evaluate limit input).tokens = ts at htext ⊢
  by_cases hnil : ts = []
  · rw [hnil]
    rfl
  · have hpieces := pieces_intercalate hnil fun s hs => (htext s hs).2
    rw [displayed, if_neg, hpieces]
    intro hempty
    rw [hempty] at hpieces
    have hmem : [] ∈ ts := by
      rw [← hpieces]
      exact List.mem_singleton_self []
    exact (htext [] hmem).1 rfl

theorem not_mem_display (limit : NestingLimit) (input : Text) :
    '\n' ∉ display (Verdict.evaluate limit input).tokens ∧
      '\r' ∉ display (Verdict.evaluate limit input).tokens := by
  have hnot (c : Char) (hsep : c ∉ ", ".toList)
      (htext : ∀ t ∈ (Verdict.evaluate limit input).tokens, c ∉ t.text) :
      c ∉ display (Verdict.evaluate limit input).tokens := by
    intro h
    rcases mem_intercalate h with h | ⟨s, hs, h⟩
    · exact hsep h
    · obtain ⟨t, ht, rfl⟩ := List.mem_map.mp hs
      exact htext t ht h
  constructor
  · exact hnot '\n' (by decide +kernel) fun t ht => (text_of_mem_evaluate ht).2.2.1
  · exact hnot '\r' (by decide +kernel) fun t ht => (text_of_mem_evaluate ht).2.2.2

end Token

/-- What a report tells of an expression, with the texts of its tokens if they are listed. -/
structure Reported where
  expression : Text
  valid : Bool
  texts : Option (List Text)
  deriving DecidableEq, Repr

namespace Reported

def acceptedEnd : Text := "\" is a valid expression".toList

def refusedEnd : Text := "\" is not a valid expression.".toList

def tokensStart : Text := "Tokens: ".toList

/-- The expression and the verdict on a line. -/
def ofLine? : Text → Option (Text × Bool)
  | [] => none
  | quote :: line =>
      if quote = '\x22' then
        (line.dropSuffix? acceptedEnd).map (·, true) <|>
          (line.dropSuffix? refusedEnd).map (·, false)
      else none

/-- The reports on lines without tokens. -/
def ofLines? : List Text → Option (List Reported)
  | [] => some []
  | line :: rest => do
      let found ← ofLine? line
      let more ← ofLines? rest
      return ⟨found.1, found.2, none⟩ :: more

/-- The reports on lines with a line of tokens behind each. -/
def ofListings? : List Text → Option (List Reported)
  | [] => some []
  | [_] => none
  | line :: listing :: rest => do
      let found ← ofLine? line
      let tokens ← listing.dropPrefix? tokensStart
      let more ← ofListings? rest
      return ⟨found.1, found.2, some (Token.displayed tokens)⟩ :: more

/-- The reports that an output is made of, with or without tokens. -/
def ofOutput? (tokens : Bool) (output : Text) : Option (List Reported) :=
  if tokens then ofListings? (InputLines.lines output) else ofLines? (InputLines.lines output)

/-- What is to be told of an expression. -/
def of (tokens : Bool) (limit : NestingLimit) (expression : Text) : Reported :=
  let v := Verdict.evaluate limit expression
  ⟨expression, v.valid, if tokens then some (Token.texts v.tokens) else none⟩

def lines (tokens : Bool) (limit : NestingLimit) (expression : Text) : List Text :=
  let v := Verdict.evaluate limit expression
  ('\x22' :: (expression ++ if v.valid then acceptedEnd else refusedEnd)) ::
    if tokens then [tokensStart ++ Token.display v.tokens] else []

section
variable (tokens : Bool) (limit : NestingLimit) (expression : Text) (expressions : List Text)

theorem report_eq : Command.report tokens limit expression =
    (lines tokens limit expression).flatMap (· ++ ['\n']) := by
  have haccepted : "\" is a valid expression\n".toList = acceptedEnd ++ ['\n'] := by decide +kernel
  have hrefused : "\" is not a valid expression.\n".toList = refusedEnd ++ ['\n'] := by
    decide +kernel
  have hending (valid : Bool) :
      (if valid then acceptedEnd ++ ['\n'] else refusedEnd ++ ['\n']) =
        (if valid then acceptedEnd else refusedEnd) ++ ['\n'] := by
    cases valid <;> rfl
  rw [Command.report, lines, haccepted, hrefused, hending, List.flatMap_cons, ← List.append_assoc,
    List.append_assoc ['\x22'], List.singleton_append]
  cases tokens with
  | false => rfl
  | true => exact congrArg _ (List.append_nil _).symm

theorem ofLine?_accepted : ofLine? ('\x22' :: (expression ++ acceptedEnd)) =
    some (expression, true) := by
  have hdrop : (expression ++ acceptedEnd).dropSuffix? acceptedEnd = some expression :=
    List.dropSuffix?_eq_some_iff.mpr ⟨acceptedEnd, rfl, beq_self_eq_true _⟩
  rw [ofLine?, if_pos rfl, hdrop]
  rfl

theorem ofLine?_refused : ofLine? ('\x22' :: (expression ++ refusedEnd)) =
    some (expression, false) := by
  have hdrop : (expression ++ refusedEnd).dropSuffix? refusedEnd = some expression :=
    List.dropSuffix?_eq_some_iff.mpr ⟨refusedEnd, rfl, beq_self_eq_true _⟩
  have hnone : (expression ++ refusedEnd).dropSuffix? acceptedEnd = none := by
    refine Option.eq_none_iff_forall_not_mem.mpr fun front hfront => ?_
    obtain ⟨ending, heq, hending⟩ := List.dropSuffix?_eq_some_iff.mp hfront
    obtain rfl : ending = acceptedEnd := eq_of_beq hending
    have hlast := congrArg List.getLast? heq
    rw [List.getLast?_append_of_ne_nil _ (by decide +kernel),
      List.getLast?_append_of_ne_nil _ (by decide +kernel)] at hlast
    revert hlast
    decide +kernel
  rw [ofLine?, if_pos rfl, hdrop, hnone]
  rfl

theorem ofLine?_head (valid : Bool) :
    ofLine? ('\x22' :: (expression ++ if valid then acceptedEnd else refusedEnd)) =
      some (expression, valid) := by
  cases valid with
  | true => exact ofLine?_accepted expression
  | false => exact ofLine?_refused expression

theorem ofLines?_flatMap :
    ofLines? (expressions.flatMap (lines false limit)) =
      some (expressions.map (of false limit)) := by
  induction expressions with
  | nil => rfl
  | cons x expressions ih =>
      rw [List.flatMap_cons, lines, List.cons_append, ofLines?, ofLine?_head]
      change (ofLines? (expressions.flatMap (lines false limit))).bind _ = _
      rw [ih]
      rfl

theorem ofListings?_flatMap :
    ofListings? (expressions.flatMap (lines true limit)) =
      some (expressions.map (of true limit)) := by
  induction expressions with
  | nil => rfl
  | cons x expressions ih =>
      have hlisting (s : Text) : (tokensStart ++ s).dropPrefix? tokensStart = some s :=
        List.dropPrefix?_append_of_beq s (beq_self_eq_true _)
      rw [List.flatMap_cons, lines, if_pos rfl, List.cons_append, List.singleton_append,
        ofListings?, ofLine?_head, hlisting]
      change (ofListings? (expressions.flatMap (lines true limit))).bind _ = _
      rw [ih, Option.bind_some, Token.displayed_display]
      rfl

end

theorem unbroken_lines {tokens : Bool} {limit : NestingLimit} {expression : Text}
    (h : '\n' ∉ expression) :
    ∀ line ∈ lines tokens limit expression, '\n' ∉ line ∧ line.getLast? ≠ some '\r' := by
  intro line hline
  rw [lines] at hline
  rcases List.mem_cons.mp hline with rfl | hlisting
  · have hending (valid : Bool) : '\n' ∉ (if valid then acceptedEnd else refusedEnd) ∧
        (if valid then acceptedEnd else refusedEnd) ≠ [] ∧
        (if valid then acceptedEnd else refusedEnd).getLast? ≠ some '\r' := by
      revert valid
      decide +kernel
    obtain ⟨hfeed, hne, hlast⟩ := hending (Verdict.evaluate limit expression).valid
    rw [← List.cons_append]
    constructor
    · rw [List.mem_append, List.mem_cons, not_or, not_or]
      exact ⟨⟨by decide, h⟩, hfeed⟩
    · rwa [List.getLast?_append_of_ne_nil _ hne]
  · cases tokens with
    | false => cases hlisting
    | true =>
        obtain rfl := List.mem_singleton.mp hlisting
        obtain ⟨hfeed, hreturn⟩ := Token.not_mem_display limit expression
        have hstart : '\n' ∉ tokensStart ∧ '\r' ∉ tokensStart := by decide +kernel
        constructor
        · exact List.not_mem_append hstart.1 hfeed
        · intro hlast
          exact List.not_mem_append hstart.2 hreturn (List.mem_of_getLast? hlast)

/-- The lines of an output are those of its reports. -/
theorem lines_output {tokens : Bool} {limit : NestingLimit} {expressions : List Text}
    (h : ∀ x ∈ expressions, '\n' ∉ x) :
    InputLines.lines (expressions.flatMap (Command.report tokens limit)) =
      expressions.flatMap (lines tokens limit) := by
  have hreports : expressions.flatMap (Command.report tokens limit) =
      (expressions.flatMap (lines tokens limit)).flatMap (· ++ ['\n']) := by
    rw [List.flatMap_assoc]
    exact List.flatMap_congr fun x _ => report_eq tokens limit x
  rw [hreports, InputLines.lines_flatMap]
  intro line hline
  obtain ⟨x, hx, hline⟩ := List.mem_flatMap.mp hline
  exact unbroken_lines (h x hx) line hline

theorem ofOutput?_flatMap {limit : NestingLimit} {expressions : List Text} (tokens : Bool)
    (h : ∀ x ∈ expressions, '\n' ∉ x) :
    ofOutput? tokens (expressions.flatMap (Command.report tokens limit)) =
      some (expressions.map (of tokens limit)) := by
  rw [ofOutput?, lines_output h]
  cases tokens with
  | false => exact ofLines?_flatMap limit expressions
  | true => exact ofListings?_flatMap limit expressions

theorem length_flatMap_lines (tokens : Bool) (limit : NestingLimit) (expressions : List Text) :
    (expressions.flatMap (lines tokens limit)).length =
      (if tokens then 2 else 1) * expressions.length := by
  induction expressions with
  | nil => rfl
  | cons x expressions ih =>
      have hlines : (lines tokens limit x).length = if tokens then 2 else 1 := by
        cases tokens <;> rfl
      rw [List.flatMap_cons, List.length_append, ih, hlines, List.length_cons, Nat.mul_succ,
        Nat.add_comm]

end Reported

namespace Command

/-- The exit status tells whether all expressions are valid, and each is reported in its turn,
whatever became of those in front of it. Where none of them has a line feed, the reports are lines
from which they are read back. -/
theorem output_oneShot_decodes (e : Environment) (options : Options)
    (hrequest : Request.ofArguments e.arguments = .ok (.check options))
    (hsome : options.expressions ≠ []) :
    let verdict (x : Text) := Verdict.evaluate (.ofNat options.maxDepth) x
    ((run e).status = 0 ↔ ∀ x ∈ options.expressions, (verdict x).valid = true) ∧
    ((run e).status = 0 ∨ (run e).status = 1) ∧
    (run e).output =
      options.expressions.flatMap (report options.tokens (.ofNat options.maxDepth)) ∧
    ((∀ x ∈ options.expressions, '\n' ∉ x) →
      (InputLines.lines (run e).output).length =
        (if options.tokens then 2 else 1) * options.expressions.length ∧
      Reported.ofOutput? options.tokens (run e).output =
        some (options.expressions.map fun x => ⟨x, (verdict x).valid,
          if options.tokens then some (Token.texts (verdict x).tokens) else none⟩)) := by
  intro verdict
  have hempty : options.expressions.isEmpty = false := by simpa using hsome
  have hrun : run e = oneShot options e := by
    rw [run_of_request hrequest, hempty]
    rfl
  have hstatus : (run e).status =
      if options.expressions.all fun x => (verdict x).valid then 0 else 1 := by
    rw [hrun]
    rfl
  have houtput : (run e).output =
      options.expressions.flatMap (report options.tokens (.ofNat options.maxDepth)) := by
    rw [hrun]
    rfl
  refine ⟨?_, ?_, houtput, fun hfeed => ?_⟩
  · rw [hstatus, ← List.all_eq_true]
    cases options.expressions.all fun x => (verdict x).valid <;> simp
  · rw [hstatus]
    cases options.expressions.all fun x => (verdict x).valid <;> simp
  · rw [houtput, Reported.ofOutput?_flatMap options.tokens hfeed, Reported.lines_output hfeed]
    exact ⟨Reported.length_flatMap_lines _ _ _, rfl⟩

/-- Expressions that look like reports themselves. -/
theorem output_oneShot_decodes_of_report_like :
    let e : Environment := ⟨["-t".toList, "1\" is a valid expression".toList, "(2) * -x".toList,
      "Tokens: 1, 2".toList, "".toList], [], "xterm".toList, [], none, none⟩
    let options : Options := ⟨true, 256, false, ["1\" is a valid expression".toList,
      "(2) * -x".toList, "Tokens: 1, 2".toList, "".toList]⟩
    let verdict (x : Text) := Verdict.evaluate (.ofNat options.maxDepth) x
    Request.ofArguments e.arguments = .ok (.check options) ∧ options.expressions ≠ [] ∧
    (∀ x ∈ options.expressions, '\n' ∉ x) ∧
    options.expressions.map (fun x => (verdict x).valid) = [false, true, false, false] ∧
    ((run e).status = 0 ↔ ∀ x ∈ options.expressions, (verdict x).valid = true) ∧
    ((run e).status = 0 ∨ (run e).status = 1) ∧
    (run e).output =
      options.expressions.flatMap (report options.tokens (.ofNat options.maxDepth)) ∧
    ((∀ x ∈ options.expressions, '\n' ∉ x) →
      (InputLines.lines (run e).output).length =
        (if options.tokens then 2 else 1) * options.expressions.length ∧
      Reported.ofOutput? options.tokens (run e).output =
        some (options.expressions.map fun x => ⟨x, (verdict x).valid,
          if options.tokens then some (Token.texts (verdict x).tokens) else none⟩)) := by
  intro e options verdict
  have hrequest : Request.ofArguments e.arguments = .ok (.check options) := by decide +kernel
  have hsome : options.expressions ≠ [] := List.cons_ne_nil _ _
  exact ⟨hrequest, hsome, by decide +kernel, by decide +kernel,
    output_oneShot_decodes e options hrequest hsome⟩

end Command

end ArithGrammar
