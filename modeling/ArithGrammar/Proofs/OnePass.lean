import ArithGrammar.Proofs.Soundness
import ArithGrammar.Proofs.Spelling

/-!
# Recognition in one pass

A text can also be read without looking for the ends of its groups first. Behind an opening
parenthesis the terms of an expression are read, up to wherever they end, and then a closing
parenthesis has to come next. Views are never split, and only the whole text has to be used up.
The rules apart from that of groups are the same, and so are the limit and the refusal of an empty
pair of parentheses.

What is read in this way is derived from the grammar as well (`OnePass.finds_factor`).
-/
namespace ArithGrammar.OnePass
open Attempt Reading
open Text (byteLength)

/-- The terms of an expression. -/
def terms (factor : View → Attempt View) (v : View) : Attempt View := do
  enter .expression v
  let v ← term factor (← trim v)
  sums factor v.length v

def closing (v : View) : Attempt View := do
  if ← ofSlice (v.headIn .closeParen) then read .closeParen 1 v
  else fail .mismatch

def group (factor : View → Attempt View) (v : View) : Attempt View := do
  let v ← terms factor (← read .openParen 1 v)
  closing (← trim v)

def factor (limit : Nat) : Nat → View → Attempt View
  | 0 => operand (fun _ => fail (.tooDeep limit)) (fun _ => fail (.tooDeep limit))
  | room + 1 => operand (group (factor limit room)) (sign (factor limit room))

def recognize (limit : NestingLimit) (input : Text) : Attempt Unit := do
  let v ← terms (factor limit.levels limit.levels) (← trim (View.whole input))
  if v.isEmpty then pure () else fail .mismatch

section
variable {f : View → Attempt View} {v : View} {s : Text} {c : Char} {room start : Nat}

theorem reads_terms (h : v.text = .ok s) :
    (terms f v).Reads [] (term f v.trimmed >>= fun w => sums f w.length w) := by
  rw [terms]
  refine (reads_enter .expression v).bind_eq ?_
  rw [trim_eq_pure h, pure_bind]

theorem expression_eq_terms (f : View → Attempt View) (v : View) :
    expression f v = terms f v >>= fun w => if w.isEmpty then pure () else fail .mismatch := by
  rw [expression, terms]
  simp only [bind_assoc]

theorem closing_of_notAhead (h : v.text = .ok s) (hs : CharSet.closeParen.NotAhead s) :
    closing v = fail .mismatch := by
  rw [closing, View.headIn_eq h, ofSlice_ok_bind, CharSet.notAhead_iff_any.mp hs]
  rfl

theorem reads_closing (h : v.text = .ok (')' :: s)) :
    (closing v).Reads [Token.placed v.start .closeParen [')']] (pure (v.back s)) := by
  rw [closing, View.headIn_eq h, ofSlice_ok_bind]
  exact reads_char h rfl .closeParen

theorem reads_group (h : v.text = .ok ('(' :: s)) :
    (group f v).Reads [Token.placed v.start .openParen ['(']]
      (terms f (v.back s) >>= fun w => trim w >>= closing) :=
  (reads_char h rfl .openParen).bind_pure

theorem finds_terms (hf : Finds View.Stands .factor room f) :
    Finds View.Stands .expression room (terms f) := by
  intro v start s h
  have hsums : Finds View.Stands .sums room (fun w => sums f w.length w) :=
    fun w start s hw => finds_sums hf w.length hw
  have hterms := ((finds_term hf).trimmed h).bind (o := .expression) [] hsums
    (fun _ hxs => hxs.expression) (fun _ _ hxs hys => hxs.expression hys)
  exact .of_reads_nil (reads_terms h.text_eq) hterms

theorem covers_closing (h : v.Stands start s) :
    (closing v).Covers View.Stands (· = [.closing]) (· = []) start s := by
  by_cases hs : CharSet.closeParen.NotAhead s
  · rw [closing_of_notAhead h.text_eq hs]
    exact .fail rfl (by simp)
  · obtain ⟨c, s, rfl, hc⟩ := CharSet.exists_of_not_notAhead hs
    obtain rfl : c = ')' := of_decide_eq_true hc
    have hreads := reads_closing h.text_eq
    rw [h.start_eq] at hreads
    exact .of_reads_pure (t := [')']) hreads (.placed (.char .closeParen (by decide) rfl))
      (by simp [TokenKind.joined]) h.back_cons rfl

theorem found_group (hf : Finds View.Stands .factor room f) (h : v.Stands start ('(' :: s)) :
    Found View.Stands .factor (room + 1) start ('(' :: s) (group f v) := by
  have hopen := reads_group (f := f) h.text_eq
  rw [h.start_eq] at hopen
  have hclosing : ∀ w start left, View.Stands w start left →
      (trim w >>= closing).Covers View.Stands (· = [.closing]) (· = []) start left := by
    intro w start left hw
    obtain ⟨front, behind, hs, hfront, hbehind, hstands⟩ := hw.trimmed
    rw [trim_eq_pure hw.text_eq, pure_bind, hs]
    exact .widen hfront hbehind (covers_closing hstands)
  have hbody : (terms f (v.back s) >>= fun w => trim w >>= closing).Covers View.Stands
      (fun xs => Part.factor.Derives (room + 1) (.opening :: xs))
      (fun xs => Part.factor.Cut (room + 1) (.opening :: xs)) (start + byteLength ['(']) s := by
    refine Covers.bind (finds_terms hf h.back_cons) hclosing ?_ ?_ ?_
    · rintro xs ys hxs rfl
      exact hxs.group
    · exact fun xs hxs => hxs.map [.opening] fun _ => Part.Viable.group
    · rintro xs ys hxs rfl
      rw [List.append_nil]
      exact .inl (Part.Viable.of_derives hxs).group
  exact .of_char hopen (.char .openParen (by decide) rfl) rfl hbody (fun _ hys => hys)
    (fun _ hys => hys)

theorem finds_factor (limit room : Nat) :
    Finds View.Stands .factor room (factor limit room) := by
  induction room with
  | zero =>
      exact finds_operand (fun v start s _ => .fail (.inl Part.Viable.factor_nil) (by simp))
        (fun v start s _ => .fail (.inl Part.Viable.factor_nil) (by simp))
  | succ room ih =>
      exact finds_operand (fun v start s h => found_group ih h)
        (fun v start s h => found_sign ih h)

/-- A group that is not closed in the text is not read. -/
theorem outcome_group_of_closing?_eq_none (hf : Finds View.Stands .factor room f)
    (h : v.text = .ok ('(' :: s)) (hnone : Literal.closing? s = none) :
    ∃ failure, (group f v).outcome = .error failure := by
  obtain ⟨read, rest, hs, hlaid, -, hout⟩ := found_group hf ⟨rfl, h⟩
  cases houtcome : (group f v).outcome with
  | error failure => exact ⟨failure, rfl⟩
  | ok w =>
      rw [houtcome] at hout
      obtain ⟨⟨T, -, hT⟩, -⟩ := hout
      have hbalanced : Balanced read := T.balanced ⟨hT.symm, hlaid⟩
      cases read with
      | nil =>
          rw [hlaid.eq_nil] at hT
          exact absurd hT T.terminals_factor_ne_nil
      | cons c read =>
          obtain ⟨rfl, rfl⟩ := List.cons.inj hs
          obtain ⟨n, hn⟩ := hbalanced.exists_closing?
          have hsome := Literal.closing?_append_right hn rest
          cases hsome.symm.trans hnone

end

end ArithGrammar.OnePass
