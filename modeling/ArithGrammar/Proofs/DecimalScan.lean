import ArithGrammar.Proofs.Literals
import ArithGrammar.Proofs.ViewSteps

/-!
# Decimal numbers from left to right

A decimal number is looked for at the first dot of the text, wherever that is, and only then is it
checked what stands before the dot. Reading the text from left to right finds the same: digits, a
dot, digits (`decimal?_eq_decimalFrom`). So the dot stands where the digits in front end, and the
number ends where the digits behind the dot do (`decimal?_eq_some_iff_digitsAhead`). Nothing is
looked at behind the first character that is not one of these (`decimal?_of_reach`).
-/
namespace ArithGrammar.Literal
open Text (byteLength dropBytes? isBoundary)
variable {s t u r front : Text} {c : Char} {d : Decimal}

/-- The decimal number at the front of a text, read character by character behind digits that take
`place` bytes. -/
def decimalFrom (place : Nat) : Text → Option Decimal
  | [] => none
  | c :: s =>
      if CharSet.digit.contains c then decimalFrom (place + c.utf8Size) s
      else if CharSet.dot.contains c then
        (integer? s).map fun n => ⟨place, place + c.utf8Size + n⟩
      else none

/-- Bytes of the digits in front of a text, which may have none there. -/
def digitsAhead (s : Text) : Nat := byteLength (CharSet.digit.run s)

/-- Bytes of the digits in front of a text, and of a dot right behind them and the digits behind
that. -/
def decimalReach (s : Text) : Nat :=
  match CharSet.digit.afterRun s with
  | '.' :: rest => digitsAhead s + 1 + digitsAhead rest
  | _ => digitsAhead s

theorem digitsAhead_append (ht : CharSet.digit.All t) (hr : CharSet.digit.NotAhead r) :
    digitsAhead (t ++ r) = byteLength t := by
  unfold digitsAhead
  rw [CharSet.run_append ht hr]

theorem digitsAhead_dot (ht : CharSet.digit.All t) (r : Text) :
    digitsAhead (t ++ '.' :: r) = byteLength t :=
  digitsAhead_append ht (CharSet.notAhead_cons.mpr not_digit_dot)

theorem dropBytes?_digitsAhead (s : Text) :
    dropBytes? s (digitsAhead s) = some (CharSet.digit.afterRun s) := by
  apply Text.dropBytes?_eq_some_iff.mpr
  exact ⟨CharSet.digit.run s, (CharSet.run_append_afterRun .digit s).symm, rfl⟩

theorem integer?_eq_digitsAhead (s : Text) :
    integer? s = if digitsAhead s = 0 then none else some (digitsAhead s) := by
  unfold integer? digitsAhead
  cases CharSet.digit.run s with
  | nil => rfl
  | cons c t =>
    have hc := c.utf8Size_pos
    rw [if_neg (by simp only [Text.byteLength_cons]; omega)]

theorem decimalFrom_append (ht : CharSet.digit.All t) (place : Nat) (s : Text) :
    decimalFrom place (t ++ s) = decimalFrom (place + byteLength t) s := by
  induction t generalizing place with
  | nil => rfl
  | cons c t ih =>
    obtain ⟨hc, ht⟩ := CharSet.all_cons.mp ht
    rw [List.cons_append, decimalFrom, if_pos hc, ih ht, Text.byteLength_cons, Nat.add_assoc]

theorem decimalFrom_dot (place : Nat) (s : Text) :
    decimalFrom place ('.' :: s) = (integer? s).map fun n => ⟨place, place + 1 + n⟩ := rfl

theorem decimalFrom_other (place : Nat) (hc : CharSet.digit.contains c = false) (hdot : c ≠ '.') :
    decimalFrom place (c :: s) = none := by
  have hother : CharSet.dot.contains c = false := decide_eq_false hdot
  simp [decimalFrom, hc, hother]

theorem decimal?_other (ht : CharSet.digit.All t) (hc : CharSet.digit.contains c = false)
    (hdot : c ≠ '.') : decimal? (t ++ c :: s) = none := by
  apply decimal?_eq_none ht (CharSet.notAhead_cons.mpr hc)
  exact CharSet.notAhead_cons.mpr (decide_eq_false hdot)

/-- The search for the first dot finds what reading from left to right does. -/
theorem decimal?_eq_decimalFrom (s : Text) : decimal? s = decimalFrom 0 s := by
  obtain ⟨t, r, rfl, ht, hr⟩ := CharSet.exists_run .digit s
  rw [decimalFrom_append ht, Nat.zero_add]
  cases r with
  | nil => exact decimal?_eq_none ht hr CharSet.notAhead_nil
  | cons c r =>
    by_cases hdot : c = '.'
    · subst hdot
      rw [decimal?_dot ht, decimalFrom_dot]
    · have hc := CharSet.notAhead_cons.mp hr
      rw [decimal?_other ht hc hdot, decimalFrom_other _ hc hdot]

theorem decimal?_eq_some_iff_digitsAhead :
    decimal? s = some d ↔ ∃ rest, dropBytes? s (digitsAhead s) = some ('.' :: rest) ∧
      1 ≤ digitsAhead rest ∧ d = ⟨digitsAhead s, digitsAhead s + 1 + digitsAhead rest⟩ := by
  constructor
  · intro h
    obtain ⟨t, u, r, rfl, ht, hne, hu, hr, rfl⟩ := decimal?_eq_some_iff.mp h
    rw [List.append_assoc, List.cons_append]
    have hpos : byteLength u ≠ 0 := by simpa [Text.byteLength_eq_zero] using hne
    refine ⟨u ++ r, ?_, ?_, ?_⟩
    · apply Text.dropBytes?_eq_some_iff.mpr
      exact ⟨t, rfl, (digitsAhead_dot ht _).symm⟩
    · rw [digitsAhead_append hu hr]
      omega
    · rw [digitsAhead_dot ht, digitsAhead_append hu hr]
  · rintro ⟨rest, hrest, hone, rfl⟩
    obtain ⟨t, r, rfl, ht, hr⟩ := CharSet.exists_run .digit s
    rw [dropBytes?_digitsAhead, CharSet.afterRun_append ht, CharSet.afterRun_eq_self hr] at hrest
    obtain rfl := Option.some.inj hrest
    rw [decimal?_dot ht, digitsAhead_dot ht, integer?_eq_digitsAhead, if_neg (by omega),
      Option.map_some]

theorem decimal?_eq_none_iff_digitsAhead :
    decimal? s = none ↔ ∀ rest, dropBytes? s (digitsAhead s) = some ('.' :: rest) →
      digitsAhead rest = 0 := by
  constructor
  · intro h rest hrest
    by_contra hne
    have hsome := decimal?_eq_some_iff_digitsAhead.mpr ⟨rest, hrest, by omega, rfl⟩
    rw [h] at hsome
    cases hsome
  · intro h
    apply Option.eq_none_iff_forall_ne_some.mpr
    intro d hd
    obtain ⟨rest, hrest, hone, -⟩ := decimal?_eq_some_iff_digitsAhead.mp hd
    have hzero := h rest hrest
    omega

theorem bounds_of_decimal? (h : decimal? s = some d) :
    d.stop ≤ byteLength s ∧ isBoundary s d.dot = true ∧ isBoundary s d.stop = true := by
  obtain ⟨t, u, r, rfl, -, -, -, -, rfl⟩ := decimal?_eq_some_iff.mp h
  have hdot : byteLength (t ++ '.' :: u) = byteLength t + 1 + byteLength u := by
    rw [Text.byteLength_append, Nat.add_assoc]
    rfl
  refine ⟨?_, ?_, ?_⟩
  · rw [Text.byteLength_append, hdot]
    exact Nat.le_add_right _ _
  · exact Text.isBoundary_iff.mpr ⟨t, '.' :: u ++ r, by simp, rfl⟩
  · exact Text.isBoundary_iff.mpr ⟨t ++ '.' :: u, r, rfl, hdot⟩

theorem stop_eq_decimalReach (h : decimal? s = some d) : d.stop = decimalReach s := by
  obtain ⟨rest, hrest, -, rfl⟩ := decimal?_eq_some_iff_digitsAhead.mp h
  rw [dropBytes?_digitsAhead] at hrest
  simp only [decimalReach, Option.some.inj hrest]

/-- Up to its reach the text is digits, or digits with a dot among them. What comes behind the next
character makes no difference. -/
theorem decimal?_of_reach (hs : s = front ++ c :: r) (hreach : byteLength front = decimalReach s)
    (u : Text) : decimal? (front ++ c :: u) = decimal? s := by
  obtain ⟨t, x, rfl, ht, hx⟩ := CharSet.exists_run .digit s
  unfold decimalReach at hreach
  rw [CharSet.afterRun_append ht, CharSet.afterRun_eq_self hx, digitsAhead_append ht hx] at hreach
  split at hreach
  · rename_i rest
    obtain ⟨f, z, rfl, hf, hz⟩ := CharSet.exists_run .digit rest
    rw [digitsAhead_append hf hz] at hreach
    have hlen : byteLength (t ++ '.' :: f) = byteLength front := by
      rw [hreach, Text.byteLength_append, Nat.add_assoc]
      rfl
    obtain ⟨rfl, rfl⟩ := Text.append_inj_of_byteLength (by simpa using hs) hlen
    have hahead : CharSet.digit.NotAhead (c :: u) :=
      CharSet.notAhead_cons.mpr (CharSet.notAhead_cons.mp hz)
    simp only [List.append_assoc, List.cons_append, decimal?_dot ht, integer?_eq_digitsAhead,
      digitsAhead_append hf hahead, digitsAhead_append hf hz]
  · rename_i hnot
    obtain ⟨rfl, rfl⟩ := Text.append_inj_of_byteLength hs hreach.symm
    have hc := CharSet.notAhead_cons.mp hx
    have hdot : c ≠ '.' := by
      rintro rfl
      exact hnot r rfl
    rw [decimal?_other ht hc hdot, decimal?_other ht hc hdot]

/-- Looking for the first dot of the text finds the decimal number that reading from left to right
finds: its dot stands right behind the digits in front, and it ends behind the digits that follow
the dot, of which there has to be one. Both are boundaries of the text. Of what is behind the number
the next character is all that counts. -/
theorem decimal_read_in_order (s : Text) :
    decimal? s = decimalFrom 0 s ∧
    (∀ d, decimal? s = some d ↔ ∃ rest, dropBytes? s (digitsAhead s) = some ('.' :: rest) ∧
      1 ≤ digitsAhead rest ∧ d = ⟨digitsAhead s, digitsAhead s + 1 + digitsAhead rest⟩) ∧
    (decimal? s = none ↔ ∀ rest, dropBytes? s (digitsAhead s) = some ('.' :: rest) →
      digitsAhead rest = 0) ∧
    (∀ d, decimal? s = some d → d.stop = decimalReach s ∧ d.stop ≤ byteLength s ∧
      isBoundary s d.dot = true ∧ isBoundary s d.stop = true) ∧
    ∀ front c r, s = front ++ c :: r → byteLength front = decimalReach s →
      ∀ u, decimal? (front ++ c :: u) = decimal? s := by
  refine ⟨decimal?_eq_decimalFrom s, fun d => decimal?_eq_some_iff_digitsAhead,
    decimal?_eq_none_iff_digitsAhead, ?_, ?_⟩
  · intro d hd
    exact ⟨stop_eq_decimalReach hd, bounds_of_decimal? hd⟩
  · intro front c r hs hreach u
    exact decimal?_of_reach hs hreach u

example : decimal? "12.50.é)".toList = some ⟨2, 5⟩ := by decide +kernel

end ArithGrammar.Literal
