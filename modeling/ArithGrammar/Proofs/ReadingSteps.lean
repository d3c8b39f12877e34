import ArithGrammar.Reading
import ArithGrammar.Proofs.Literals
import ArithGrammar.Proofs.Steps

/-!
# The rules step by step

Each rule is followed here up to the next rule that it calls, on a view whose text is known: what
it reads until then, and as what it goes on. There is one statement for each of the ways that a
rule can take, so what is proved about the rules elsewhere need not open them again.
-/
namespace ArithGrammar.Reading
open Attempt
open Text (byteLength)
variable {f g : View → Attempt View} {v : View} {s t r whole fraction : Text} {c : Char} {n : Nat}

theorem read_char_eq (h : v.text = .ok (c :: s)) (hc : c.utf8Size = 1) (kind : TokenKind) :
    Attempt.read kind 1 v = ⟨[Token.placed v.start kind [c]],
      [.read (Token.placed v.start kind [c])], .ok (v.back s)⟩ := by
  have hone : byteLength [c] = 1 := by simp [hc]
  rw [← hone]
  exact read_eq h kind

theorem reads_char (h : v.text = .ok (c :: s)) (hc : c.utf8Size = 1) (kind : TokenKind) :
    (read kind 1 v).Reads [Token.placed v.start kind [c]] (pure (v.back s)) := by
  rw [read_char_eq h hc]
  exact ⟨rfl, rfl⟩

theorem reads_integer (h : v.text = .ok (t ++ r)) (hne : t ≠ []) (ht : CharSet.digit.All t)
    (hr : CharSet.digit.NotAhead r) (hnone : Literal.decimal? (t ++ r) = none) :
    (number v).Reads [Token.placed v.start .integer t] (pure (v.back r)) := by
  rw [number, h, ofSlice_ok_bind, hnone, Literal.integer?_append hne ht hr]
  exact reads_read h .integer

theorem reads_decimal (h : v.text = .ok (whole ++ '.' :: fraction ++ r))
    (hw : CharSet.digit.All whole) (hne : fraction ≠ []) (hf : CharSet.digit.All fraction)
    (hr : CharSet.digit.NotAhead r) :
    (number v).Reads [Token.placed v.start .integer whole,
      Token.placed (v.start + byteLength whole) .dot ['.'],
      Token.placed (v.start + byteLength whole + 1) .fraction fraction] (pure (v.back r)) := by
  have hsplit : v.text = .ok (whole ++ '.' :: (fraction ++ r)) := by simpa using h
  have hdot := View.text_back hsplit
  have hfraction := View.text_back_cons hdot
  have hstart := View.start_back_cons hdot
  rw [View.start_back hsplit] at hstart
  have hlast := reads_read hfraction .fraction
  have hmiddle := (reads_char hdot rfl .dot).andThen hlast
  rw [hstart, View.start_back hsplit] at hmiddle
  have hlen : byteLength whole + 1 + byteLength fraction - byteLength whole - 1 =
      byteLength fraction := by omega
  rw [number, h, ofSlice_ok_bind, Literal.decimal?_append hw hne hf hr]
  dsimp only
  rw [hlen]
  exact (reads_read hsplit .integer).andThen hmiddle

theorem reads_name (h : v.text = .ok (c :: t ++ r)) (hc : CharSet.nameStart.contains c = true)
    (ht : CharSet.namePart.All t) (hr : CharSet.namePart.NotAhead r) :
    (name v).Reads [Token.placed v.start .identifier (c :: t)] (pure (v.back r)) := by
  rw [name, h, ofSlice_ok_bind, Literal.name?_cons hc ht hr]
  exact reads_read h .identifier

theorem reads_group (h : v.text = .ok ('(' :: (t ++ ')' :: r)))
    (hclose : Literal.closing? (t ++ ')' :: r) = some (byteLength t)) :
    (group f v).Reads [Token.placed v.start .openParen ['(']] (do
      expression f ((v.back (t ++ ')' :: r)).splitAt (byteLength t)).1
      read .closeParen 1 (v.back (')' :: r))) := by
  have hrest := View.text_back_cons h
  have hopen := reads_char h rfl .openParen
  rw [group]
  refine hopen.bind_eq ?_
  have hsplit := View.splitAt_snd hrest
  rw [View.back_back] at hsplit
  rw [hrest, ofSlice_ok_bind, hclose, ← hsplit]

theorem reads_group_unmatched (h : v.text = .ok ('(' :: s)) (hnone : Literal.closing? s = none) :
    (group f v).Reads [Token.placed v.start .openParen ['(']] (fail .mismatch) := by
  have hopen := reads_char h rfl .openParen
  rw [group]
  refine hopen.bind_eq ?_
  rw [View.text_back_cons h, ofSlice_ok_bind, hnone]

theorem reads_sign (h : v.text = .ok ('-' :: s)) :
    (sign f v).Reads [Token.placed v.start .minus ['-']] (f (v.back s).trimmed) := by
  have hminus := reads_char h rfl .minus
  rw [sign]
  refine hminus.bind_eq ?_
  rw [trim_eq_pure (View.text_back_cons h), pure_bind]

theorem reads_operand_nil (h : v.text = .ok []) : (operand f g v).Reads [] (fail .mismatch) := by
  rw [operand, View.head?_eq h, ofSlice_ok_bind]
  exact (reads_enter .factor v).bind_pure

theorem reads_operand (h : v.text = .ok (c :: s)) :
    (operand f g v).Reads []
      (if CharSet.digit.contains c then number v
      else if CharSet.nameStart.contains c then name v
      else if CharSet.openParen.contains c then f v
      else if CharSet.minus.contains c then g v
      else fail .mismatch) := by
  rw [operand, View.head?_eq h, ofSlice_ok_bind]
  exact (reads_enter .factor v).bind_pure

theorem reads_operand_open (h : v.text = .ok ('(' :: s)) : (operand f g v).Reads [] (f v) :=
  reads_operand h

theorem reads_operand_minus (h : v.text = .ok ('-' :: s)) : (operand f g v).Reads [] (g v) :=
  reads_operand h

theorem reads_operand_nameStart (h : v.text = .ok (c :: s))
    (hc : CharSet.nameStart.contains c = true) : (operand f g v).Reads [] (name v) := by
  have hoperand := reads_operand (f := f) (g := g) h
  rwa [CharSet.not_digit_of_nameStart hc, if_neg Bool.false_ne_true, if_pos hc] at hoperand

theorem reads_operand_digits (h : v.text = .ok (t ++ r)) (hne : t ≠ [])
    (ht : CharSet.digit.All t) : (operand f g v).Reads [] (number v) := by
  obtain ⟨c, cs, rfl⟩ := List.exists_cons_of_ne_nil hne
  have hoperand := reads_operand (f := f) (g := g) h
  rwa [if_pos (ht c (by simp))] at hoperand

theorem products_of_notAhead (h : v.text = .ok s) (hs : CharSet.mulOp.NotAhead s) :
    products f n v = pure v := by
  cases n with
  | zero => rfl
  | succ n =>
      rw [products, View.headIn_eq h, ofSlice_ok_bind, CharSet.notAhead_iff_any.mp hs]
      rfl

theorem reads_products (h : v.text = .ok (c :: s)) (hc : CharSet.mulOp.contains c = true) :
    (products f (n + 1) v).Reads [Token.placed v.start .mulOp [c]]
      (f (v.back s).trimmed >>= fun w => trim w >>= products f n) := by
  have hop := reads_char h (CharSet.utf8Size_eq_one hc) .mulOp
  rw [products, View.headIn_eq h, ofSlice_ok_bind, List.head?_cons, Option.any_some, if_pos hc]
  refine hop.bind_eq ?_
  rw [trim_eq_pure (View.text_back_cons h), pure_bind]

theorem reads_term (f : View → Attempt View) (v : View) :
    (term f v).Reads [] (f v >>= fun w => trim w >>= fun w => products f w.length w) := by
  rw [term]
  exact (reads_enter .term v).bind_pure

theorem sums_of_notAhead (h : v.text = .ok s) (hs : CharSet.addOp.NotAhead s) :
    sums f n v = pure v := by
  cases n with
  | zero => rfl
  | succ n =>
      rw [sums, View.headIn_eq h, ofSlice_ok_bind, CharSet.notAhead_iff_any.mp hs]
      rfl

/-- Behind an additive operator a term is next, if no empty pair of parentheses is. -/
theorem reads_sums (h : v.text = .ok (c :: s)) (hc : CharSet.addOp.contains c = true)
    (hguard : ¬ ['(', ')'] <+: s.trimmed) :
    (sums f (n + 1) v).Reads [Token.placed v.start .addOp [c]]
      (term f (v.back s).trimmed >>= sums f n) := by
  have hop := reads_char h (CharSet.utf8Size_eq_one hc) .addOp
  have hrest := View.text_back_cons h
  rw [sums, View.headIn_eq h, ofSlice_ok_bind, List.head?_cons, Option.any_some, if_pos hc]
  refine hop.bind_eq ?_
  rw [trim_eq_pure hrest, pure_bind, View.beginsWith_eq (View.text_trimmed hrest),
    ofSlice_ok_bind, if_neg (by simpa using hguard)]

theorem reads_emptyGroup (h : v.text = .ok ('(' :: ')' :: r)) :
    (do let v ← read .openParen 1 v
        let _ ← read .closeParen 1 v
        fail .mismatch : Attempt View).Reads [Token.placed v.start .openParen ['('],
      Token.placed (v.start + 1) .closeParen [')']] (fail .mismatch) := by
  have hopen := reads_char h rfl .openParen
  have hclose := reads_char (View.text_back_cons h) rfl .closeParen
  rw [View.start_back_cons h] at hclose
  exact hopen.andThen hclose.bind_pure

/-- An empty pair of parentheses behind an additive operator is read and refused. -/
theorem reads_sums_empty (h : v.text = .ok (c :: s)) (hc : CharSet.addOp.contains c = true)
    (hguard : s.trimmed = '(' :: ')' :: r) :
    (sums f (n + 1) v).Reads [Token.placed v.start .addOp [c],
      Token.placed (v.back s).trimmed.start .openParen ['('],
      Token.placed ((v.back s).trimmed.start + 1) .closeParen [')']] (fail .mismatch) := by
  have hop := reads_char h (CharSet.utf8Size_eq_one hc) .addOp
  have hrest := View.text_back_cons h
  have htrimmed := View.text_trimmed hrest
  rw [sums, View.headIn_eq h, ofSlice_ok_bind, List.head?_cons, Option.any_some, if_pos hc]
  refine hop.andThen ?_
  rw [trim_eq_pure hrest, pure_bind, View.beginsWith_eq htrimmed, ofSlice_ok_bind, hguard]
  rw [hguard] at htrimmed
  exact reads_emptyGroup htrimmed

theorem reads_expression (h : v.text = .ok s) :
    (expression f v).Reads [] (do
      let w ← term f v.trimmed
      let w ← sums f w.length w
      if w.isEmpty then pure () else fail .mismatch) := by
  rw [expression]
  refine (reads_enter .expression v).bind_eq ?_
  rw [trim_eq_pure h, pure_bind]

end ArithGrammar.Reading
