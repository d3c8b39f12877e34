import ArithGrammar.Proofs.Language
import ArithGrammar.Proofs.Tiling

/-!
# Completing what was read

The tokens that were read before a failure always begin some valid text. What has to follow is told
by the tokens alone: an operand if the last of them does not end one, then a parenthesis for each
group that is still open (`Token.completion`). The one exception are the two parentheses of an
empty group behind an additive operator, which are read before they are refused; without them it
holds of the tokens that are left (`tokens_evaluate_viable`).
-/
namespace ArithGrammar
open Text (byteLength slice)

namespace Terminal
variable {xs : List Terminal} {operand : Bool} {groups : Nat}

/-- Whether the terminals, if any, do not end in that of a factor. -/
def lacksOperand (xs : List Terminal) : Bool := !xs.getLast?.any (·.kind.endsOperand)

/-- How many more groups are opened than closed. -/
def openGroups (xs : List Terminal) : Nat :=
  xs.countP (·.kind = .openParen) - xs.countP (·.kind = .closeParen)

theorem countP_completion (operand : Bool) (groups : Nat) :
    (completion operand groups).countP (·.kind = .openParen) = 0 ∧
      (completion operand groups).countP (·.kind = .closeParen) = groups := by
  cases operand <;> simp [completion, one, closing, List.countP_replicate]

theorem groups_eq (T : Tree .expression) (h : T.terminals = xs ++ completion operand groups) :
    groups = openGroups xs := by
  have hcount := T.countP_openParen_eq_closeParen
  obtain ⟨hopen, hclose⟩ := countP_completion operand groups
  rw [h, List.countP_append, List.countP_append, hopen, hclose] at hcount
  unfold openGroups
  omega

theorem operand_eq (T : Tree .expression) (h : T.terminals = xs ++ completion operand groups) :
    operand = lacksOperand xs := by
  have hordered := T.ordered
  have hne := T.terminals_expression_ne_nil
  rw [h] at hordered hne
  obtain ⟨hhead, hlast, hchain⟩ := hordered
  have hbeside := (List.isChain_append.mp hchain).2.2
  unfold lacksOperand
  cases hxs : xs.getLast? with
  | none =>
      obtain rfl := List.getLast?_eq_none_iff.mp hxs
      cases operand with
      | true => rfl
      | false =>
          cases groups with
          | zero => exact absurd rfl hne
          | succ groups => exact absurd (hhead closing rfl) (by decide)
  | some x =>
      cases operand with
      | true =>
          have hpair : x.kind.precedes .integer = true := hbeside x hxs one rfl
          cases hx : x.kind.endsOperand with
          | false => simp [hx]
          | true =>
              rw [TokenKind.not_precedes_of_endsOperand hx rfl] at hpair
              cases hpair
      | false =>
          have hx : x.kind.endsOperand = true := by
            cases groups with
            | zero => exact hlast x (by simpa [completion] using hxs)
            | succ groups =>
                exact TokenKind.endsOperand_of_precedes rfl (hbeside x hxs closing rfl)
          simp [hx]

theorem not_emptyGroup (T : Tree .expression) {kept : List Terminal} {x y : Terminal}
    (h : T.terminals = kept ++ [x, y] ++ completion operand groups) (hx : x.kind = .openParen)
    (hy : y.kind = .closeParen) : False := by
  have hchain := T.ordered.chain
  rw [h, List.append_assoc, List.cons_append, List.cons_append] at hchain
  have hpair : x.kind.precedes y.kind = true := (List.isChain_append_cons_cons.mp hchain).2.1
  rw [hx, hy] at hpair
  cases hpair

end Terminal

theorem Part.Viable.formed {p : Part} {room : Nat} {xs : List Terminal} (h : p.Viable room xs) :
    ∀ x ∈ xs, x.Formed := by
  obtain ⟨operand, groups, T, -, hT⟩ := h
  intro x hx
  apply T.formed_of_mem_terminals
  rw [hT]
  exact List.mem_append_left _ hx

theorem Part.Cut.formed {p : Part} {room : Nat} {xs : List Terminal} (h : p.Cut room xs) :
    ∀ x ∈ xs, x.Formed := by
  rcases h with h | ⟨kept, op, rfl, -, h⟩
  · exact h.formed
  · have hpair : ∀ x ∈ [Terminal.opening, Terminal.closing], x.Formed :=
      List.forall_mem_cons.mpr ⟨.char rfl, List.forall_mem_singleton.mpr (.char rfl)⟩
    have hall := List.forall_mem_append.mpr ⟨h.formed, hpair⟩
    rwa [List.append_assoc] at hall

theorem Reading.Found.formed {α : Type} {leaves : α → Nat → Text → Prop} {p : Part}
    {room start : Nat} {s : Text} {x : Attempt α} (h : Found leaves p room start s x) :
    ∀ t ∈ x.tokens, t.terminal.Formed := by
  obtain ⟨read, rest, -, -, -, hout⟩ := h
  have hcut : p.Cut room (x.tokens.map Token.terminal) := by
    cases houtcome : x.outcome with
    | error failure =>
        rw [houtcome] at hout
        exact hout.1
    | ok a =>
        rw [houtcome] at hout
        exact .inl (.of_derives hout.1)
  exact List.forall_mem_map.mp hcut.formed

namespace Token

/-- What completes the tokens to those of an expression: an operand if the last token does not end
one, then a parenthesis for each group that is open. -/
def completion (tokens : List Token) : Text :=
  (if Terminal.lacksOperand (tokens.map terminal) then ['1'] else []) ++
    List.replicate (Terminal.openGroups (tokens.map terminal)) ')'

/-- The last two tokens are the parentheses of an empty group. -/
def EndsInEmptyGroup (tokens : List Token) : Prop :=
  ∃ kept x y, tokens = kept ++ [x, y] ∧ x.kind = .openParen ∧ y.kind = .closeParen

end Token

/-- Behind the text read as the tokens, their completion makes it valid, and its tokens begin with
these. -/
def Completes (limit : NestingLimit) (input : Text) (tokens : List Token) : Prop :=
  ∃ read, slice input 0 (Token.readUntil tokens) = .ok read ∧
    (Verdict.evaluate limit (read ++ Token.completion tokens)).valid = true ∧
    tokens <+: (Verdict.evaluate limit (read ++ Token.completion tokens)).tokens

theorem Spelled.exists_of_solid {xs : List Terminal} (hxs : ∀ x ∈ xs, x.text.Solid) (start : Nat) :
    ∃ ts, Spelled xs start ts (xs.flatMap Terminal.text) := by
  induction xs generalizing start with
  | nil => exact ⟨[], rfl, rfl⟩
  | cons x xs ih =>
      obtain ⟨hx, hxs⟩ := List.forall_mem_cons.mp hxs
      obtain ⟨ts, hts⟩ := ih hxs (start + byteLength x.text)
      have hx : Spelled [x] start [Token.placed start x.kind x.text] x.text := ⟨rfl, .placed hx⟩
      exact ⟨_, hx.append hts⟩

theorem Terminal.flatMap_completion (operand : Bool) (groups : Nat) :
    (completion operand groups).flatMap Terminal.text =
      (if operand then ['1'] else []) ++ List.replicate groups ')' := by
  have hclosing : (List.replicate groups closing).flatMap Terminal.text =
      List.replicate groups ')' := by
    induction groups with
    | zero => rfl
    | succ groups ih => rw [List.replicate_succ, List.flatMap_cons, ih]; rfl
  rw [completion, List.flatMap_append, hclosing]
  cases operand <;> rfl

theorem completes_of_viable {limit : NestingLimit} {tokens : List Token} {read rest : Text}
    (hlaid : Laid 0 tokens read)
    (h : Part.expression.Viable limit.levels (tokens.map Token.terminal)) :
    Completes limit (read ++ rest) tokens := by
  obtain ⟨operand, groups, T, hT, hterminals⟩ := h
  obtain rfl := Terminal.operand_eq T hterminals
  obtain rfl := Terminal.groups_eq T hterminals
  have hsolid : ∀ x ∈ T.terminals, x.text.Solid := fun x hx =>
    (T.formed_of_mem_terminals x hx).solid
  rw [hterminals, List.forall_mem_append] at hsolid
  obtain ⟨ts, hts⟩ := Spelled.exists_of_solid hsolid.2 (0 + byteLength read)
  rw [Terminal.flatMap_completion] at hts
  have hspelled := Spelled.append ⟨rfl, hlaid⟩ hts
  rw [← hterminals] at hspelled
  have hspells : T.Spells (tokens ++ ts) (read ++ Token.completion tokens) :=
    ⟨_, [], (List.append_nil _).symm, CharSet.all_nil, hspelled⟩
  refine ⟨read, ?_, ?_⟩
  · rw [hlaid.readUntil_eq]
    exact Text.slice_front read rest
  · rw [hspells.evaluate hT]
    exact ⟨rfl, List.prefix_append tokens ts⟩

/-- Either the tokens of a verdict are viable, or it is not valid and they end in an empty group
behind viable ones that end in an additive operator. -/
theorem viable_or_emptyGroup (limit : NestingLimit) (input : Text) :
    let verdict := Verdict.evaluate limit input
    Part.expression.Viable limit.levels (verdict.tokens.map Token.terminal) ∨
      verdict.valid = false ∧ ∃ kept op x y, verdict.tokens = kept ++ [op] ++ [x, y] ∧
        op.kind = .addOp ∧ x.kind = .openParen ∧ y.kind = .closeParen ∧
        Part.expression.Viable limit.levels ((kept ++ [op]).map Token.terminal) := by
  intro verdict
  obtain ⟨-, -, -, -, ⟨-, -, hderives⟩ | ⟨hinvalid, hcut⟩⟩ := laid_evaluate limit input
  · exact .inl (.of_derives hderives)
  obtain hviable | ⟨kept, op, hterminals, hop, hviable⟩ := hcut
  · exact .inl hviable
  · refine .inr ⟨hinvalid, ?_⟩
    obtain ⟨kept, us, htokens, rfl, hus⟩ := List.map_eq_append_iff.mp hterminals
    obtain ⟨t, pair, rfl, rfl, hpair⟩ := List.map_eq_cons_iff.mp hus
    obtain ⟨x, last, rfl, hx, hlast⟩ := List.map_eq_cons_iff.mp hpair
    obtain ⟨y, behind, rfl, hy, hbehind⟩ := List.map_eq_cons_iff.mp hlast
    obtain rfl := List.map_eq_nil_iff.mp hbehind
    refine ⟨kept, t, x, y, by rw [htokens, List.append_assoc]; rfl, hop,
      congrArg Terminal.kind hx, congrArg Terminal.kind hy, ?_⟩
    rwa [List.map_append]

theorem tokens_evaluate_viable (n : Nat) (input : Text) :
    let verdict := Verdict.evaluate (.ofNat n) input
    (¬ Token.EndsInEmptyGroup verdict.tokens → Completes (.ofNat n) input verdict.tokens) ∧
    ∀ kept x y, verdict.tokens = kept ++ [x, y] → x.kind = .openParen → y.kind = .closeParen →
      verdict.valid = false ∧ (∃ op ∈ kept.getLast?, op.kind = .addOp) ∧
        Completes (.ofNat n) input kept := by
  intro verdict
  obtain ⟨read, rest, rfl, hlaid, -⟩ := laid_evaluate (.ofNat n) input
  obtain hviable | ⟨hinvalid, kept', op, x', y', htokens', hop, hx', hy', hviable⟩ :=
    viable_or_emptyGroup (.ofNat n) (read ++ rest)
  · refine ⟨fun _ => completes_of_viable hlaid hviable, fun kept x y htokens hx hy => ?_⟩
    obtain ⟨operand, groups, T, -, hterminals⟩ := hviable
    change T.terminals = verdict.tokens.map Token.terminal ++ _ at hterminals
    rw [htokens, List.map_append] at hterminals
    exact (Terminal.not_emptyGroup T hterminals hx hy).elim
  · refine ⟨fun h => (h ⟨kept' ++ [op], x', y', htokens', hx', hy'⟩).elim,
      fun kept x y htokens _ _ => ?_⟩
    obtain ⟨rfl, -⟩ := List.append_inj' (htokens.symm.trans htokens') rfl
    refine ⟨hinvalid, ⟨op, by simp, hop⟩, ?_⟩
    change Laid 0 verdict.tokens read at hlaid
    rw [htokens] at hlaid
    obtain ⟨front, pair, rfl, hfront, -⟩ := hlaid.of_append
    rw [List.append_assoc]
    exact completes_of_viable hfront hviable

example :
    Token.completion (Verdict.evaluate (.ofNat 3) "2 * (a + -".toList).tokens = "1)".toList := by
  decide +kernel

end ArithGrammar
