import ArithGrammar.Proofs.Grammar

/-!
# Viable beginnings

Terminals are a viable beginning of a part if a tree of the part has them in front of a
completion: perhaps an operand, then a parenthesis for each group that is open. Every part has a
viable beginning without terminals, and viable beginnings are put together like trees: behind
the trees that come first stands a viable beginning of the next one.

Terminals are cut if they are viable or if an empty pair of parentheses stands behind an additive
operator and what is in front of the pair is viable.
-/
namespace ArithGrammar

namespace Terminal

def one : Terminal := ⟨.integer, ['1']⟩

/-- What completes an expression: an operand if one is missing, then the parentheses that close
the groups that are open. -/
def completion (operand : Bool) (groups : Nat) : List Terminal :=
  (if operand then [one] else []) ++ List.replicate groups closing

theorem completion_append_closing (operand : Bool) (groups : Nat) :
    completion operand groups ++ [closing] = completion operand (groups + 1) := by
  rw [completion, List.append_assoc, ← List.replicate_succ']
  rfl

end Terminal

namespace Part
variable {p q : Part} {room : Nat} {xs ys : List Terminal}

/-- The terminals are those of a tree of the part in which groups and signs nest at most `room`
deep. -/
def Derives (p : Part) (room : Nat) (xs : List Terminal) : Prop :=
  ∃ T : Tree p, T.nesting ≤ room ∧ T.terminals = xs

namespace Derives

theorem integer (digits : Digits) : factor.Derives room [⟨.integer, digits.text⟩] :=
  ⟨.integer digits, Nat.zero_le _, rfl⟩

theorem decimal (whole fraction : Digits) : factor.Derives room
    [⟨.integer, whole.text⟩, .dot, ⟨.fraction, fraction.text⟩] :=
  ⟨.decimal whole fraction, Nat.zero_le _, rfl⟩

theorem name (x : Name) : factor.Derives room [⟨.identifier, x.text⟩] :=
  ⟨.name x, Nat.zero_le _, rfl⟩

theorem group (h : expression.Derives room xs) :
    factor.Derives (room + 1) (.opening :: xs ++ [.closing]) := by
  obtain ⟨T, hT, rfl⟩ := h
  exact ⟨.group T, Nat.succ_le_succ hT, rfl⟩

theorem sign (h : factor.Derives room xs) : factor.Derives (room + 1) (.minus :: xs) := by
  obtain ⟨T, hT, rfl⟩ := h
  exact ⟨.sign T, Nat.succ_le_succ hT, rfl⟩

theorem noProducts : products.Derives room [] := ⟨.noProducts, Nat.zero_le _, rfl⟩

theorem product (op : Operator .mulOp) (h : factor.Derives room xs)
    (k : products.Derives room ys) : products.Derives room (⟨.mulOp, [op.symbol]⟩ :: xs ++ ys) := by
  obtain ⟨T, hT, rfl⟩ := h
  obtain ⟨U, hU, rfl⟩ := k
  exact ⟨.product op T U, Nat.max_le.mpr ⟨hT, hU⟩, rfl⟩

theorem term (h : factor.Derives room xs) (k : products.Derives room ys) :
    term.Derives room (xs ++ ys) := by
  obtain ⟨T, hT, rfl⟩ := h
  obtain ⟨U, hU, rfl⟩ := k
  exact ⟨.term T U, Nat.max_le.mpr ⟨hT, hU⟩, rfl⟩

theorem noSums : sums.Derives room [] := ⟨.noSums, Nat.zero_le _, rfl⟩

theorem sum (op : Operator .addOp) (h : Part.term.Derives room xs)
    (k : sums.Derives room ys) : sums.Derives room (⟨.addOp, [op.symbol]⟩ :: xs ++ ys) := by
  obtain ⟨T, hT, rfl⟩ := h
  obtain ⟨U, hU, rfl⟩ := k
  exact ⟨.sum op T U, Nat.max_le.mpr ⟨hT, hU⟩, rfl⟩

theorem expression (h : Part.term.Derives room xs) (k : sums.Derives room ys) :
    expression.Derives room (xs ++ ys) := by
  obtain ⟨T, hT, rfl⟩ := h
  obtain ⟨U, hU, rfl⟩ := k
  exact ⟨.expression T U, Nat.max_le.mpr ⟨hT, hU⟩, rfl⟩

end Derives

/-- The terminals are derived together with a completion. -/
def Viable (p : Part) (room : Nat) (xs : List Terminal) : Prop :=
  ∃ operand groups, p.Derives room (xs ++ Terminal.completion operand groups)

namespace Viable

theorem of_derives (h : p.Derives room xs) : p.Viable room xs :=
  ⟨false, 0, by simpa [Terminal.completion] using h⟩

theorem map (pre : List Terminal) (hpre : ∀ ys, q.Derives room ys → p.Derives room (pre ++ ys))
    (h : q.Viable room ys) : p.Viable room (pre ++ ys) := by
  obtain ⟨operand, groups, h⟩ := h
  exact ⟨operand, groups, by rw [List.append_assoc]; exact hpre _ h⟩

theorem factor_nil : factor.Viable room [] :=
  ⟨true, 0, .integer ⟨['1'], by simp, by simp [CharSet.contains]⟩⟩

theorem sign (h : factor.Viable room xs) : factor.Viable (room + 1) (.minus :: xs) := by
  obtain ⟨operand, groups, h⟩ := h
  exact ⟨operand, groups, h.sign⟩

theorem group (h : expression.Viable room xs) : factor.Viable (room + 1) (.opening :: xs) := by
  obtain ⟨operand, groups, h⟩ := h
  refine ⟨operand, groups + 1, ?_⟩
  rw [← Terminal.completion_append_closing, ← List.append_assoc]
  exact h.group

theorem term (h : factor.Viable room xs) : term.Viable room xs :=
  h.map [] fun ys hys => by simpa using hys.term .noProducts

theorem product (op : Operator .mulOp) (h : factor.Viable room xs) :
    products.Viable room (⟨.mulOp, [op.symbol]⟩ :: xs) :=
  h.map [_] fun ys hys => by simpa using hys.product op .noProducts

theorem sum (op : Operator .addOp) (h : Part.term.Viable room xs) :
    sums.Viable room (⟨.addOp, [op.symbol]⟩ :: xs) :=
  h.map [_] fun ys hys => by simpa using hys.sum op .noSums

theorem expression (h : Part.term.Viable room xs) : expression.Viable room xs :=
  h.map [] fun ys hys => by simpa using hys.expression .noSums

end Viable

/-- The terminals are viable, but for an empty pair of parentheses at their end that an additive
operator stands in front of. -/
def Cut (p : Part) (room : Nat) (xs : List Terminal) : Prop :=
  p.Viable room xs ∨ ∃ kept op, xs = kept ++ [op, .opening, .closing] ∧ op.kind = .addOp ∧
    p.Viable room (kept ++ [op])

namespace Cut
variable {room' : Nat}

theorem map (pre : List Terminal) (hpre : ∀ ys, q.Viable room ys → p.Viable room' (pre ++ ys))
    (h : q.Cut room xs) : p.Cut room' (pre ++ xs) := by
  obtain h | ⟨kept, op, rfl, hop, h⟩ := h
  · exact .inl (hpre _ h)
  · refine .inr ⟨pre ++ kept, op, by rw [List.append_assoc], hop, ?_⟩
    rw [List.append_assoc]
    exact hpre _ h

end Cut

end Part

end ArithGrammar
