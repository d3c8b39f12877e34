import ArithGrammar.Proofs.Soundness
import Mathlib.Data.List.Chain

/-!
# Tokens and blanks make up the text

Whatever the verdict, its tokens are pieces of the text, each the piece that its span says, they
stand in their order, and only blanks are left out between them and in front of the first. So the
text up to the last token is the tokens' texts one behind the other, blanks apart, and if the
verdict is valid, that is the whole text (`tokens_evaluate_tile`).
-/
namespace ArithGrammar
open Text (byteLength slice)

/-- Where the last of the tokens ends, or the beginning of the text if there are none. -/
def Token.readUntil (tokens : List Token) : Nat := (tokens.getLast?.map (·.span.stop)).getD 0

/-- The second token stands behind the first one in the text, with nothing but blanks between. -/
def Token.NextIn (input : Text) (a b : Token) : Prop :=
  a.span.stop ≤ b.span.start ∧ ∃ gap, slice input a.span.stop b.span.start = .ok gap ∧ gap.Blank

/-- The second token does not go on with a number, or begins where the first one ends. -/
def Token.JoinsTo (a b : Token) : Prop := b.kind.joined = true → b.span.start = a.span.stop

/-- The text without its blanks. -/
def Text.solidPart (s : Text) : Text := s.filter fun c => !CharSet.blank.contains c

namespace Text
variable {s : Text}

@[simp] theorem solidPart_append (s t : Text) :
    solidPart (s ++ t) = solidPart s ++ solidPart t := List.filter_append s t

theorem solidPart_of_blank (h : Blank s) : solidPart s = [] := by
  refine List.filter_eq_nil_iff.mpr fun c hc => ?_
  rw [h c hc]
  decide

theorem Solid.solidPart (h : s.Solid) : solidPart s = s := by
  refine List.filter_eq_self.mpr fun c hc => ?_
  rw [h.2 c hc]
  rfl

theorem slice_front (s t : Text) : slice (s ++ t) 0 (byteLength s) = .ok s :=
  slice_eq_ok_iff.mpr ⟨[], t, rfl, rfl, Nat.zero_add _⟩

theorem slice_behind (s t : Text) :
    slice (s ++ t) (byteLength s) (byteLength (s ++ t)) = .ok t :=
  slice_eq_ok_iff.mpr ⟨s, [], (List.append_nil _).symm, rfl, (byteLength_append s t).symm⟩

end Text

namespace Laid
variable {start : Nat} {ts : List Token} {s : Text}

theorem readUntil_eq (h : Laid 0 ts s) : Token.readUntil ts = byteLength s := by
  cases ts with
  | nil =>
      obtain rfl := nil_iff.mp h
      rfl
  | cons t ts =>
      have hlast := h.stop_getLast (List.cons_ne_nil t ts)
      rw [Token.readUntil, List.getLast?_eq_some_getLast (List.cons_ne_nil t ts), Option.map_some,
        Option.getD_some, hlast, Nat.zero_add]

theorem slice_of_mem (before after : Text) (hbefore : byteLength before = start)
    (h : Laid start ts s) : ∀ t ∈ ts,
      slice (before ++ (s ++ after)) t.span.start t.span.stop = .ok t.text ∧ t.text ≠ [] := by
  induction ts generalizing start s before with
  | nil => simp
  | cons t ts ih =>
      obtain ⟨gap, rest, rfl, -, -, hsolid, hspan, hrest⟩ := h
      refine List.forall_mem_cons.mpr ⟨⟨?_, hsolid.1⟩, ?_⟩
      · exact Text.slice_eq_ok_iff.mpr ⟨before ++ gap, rest ++ after, by simp,
          by simp [hspan, hbefore], by simp [hspan]⟩
      · have hnext := ih (before ++ (gap ++ t.text)) (by simp [hbefore, Nat.add_assoc]) hrest
        simpa using hnext

theorem gap_of_head? (before after : Text) (hbefore : byteLength before = start)
    (h : Laid start ts s) : ∀ t ∈ ts.head?, start ≤ t.span.start ∧
      ∃ gap, slice (before ++ (s ++ after)) start t.span.start = .ok gap ∧ gap.Blank := by
  cases ts with
  | nil => simp
  | cons t ts =>
      obtain ⟨gap, rest, rfl, hgap, -, -, hspan, -⟩ := h
      intro u hu
      obtain rfl : t = u := by simpa using hu
      refine ⟨by simp [hspan], gap, Text.slice_eq_ok_iff.mpr ?_, hgap⟩
      exact ⟨before, t.text ++ (rest ++ after), by simp, hbefore, by simp [hspan]⟩

theorem isChain_nextIn (before after : Text) (hbefore : byteLength before = start)
    (h : Laid start ts s) : ts.IsChain (Token.NextIn (before ++ (s ++ after))) := by
  induction ts generalizing start s before with
  | nil => exact .nil
  | cons t ts ih =>
      obtain ⟨gap, rest, rfl, -, -, -, hspan, hrest⟩ := h
      have hstop : byteLength (before ++ (gap ++ t.text)) =
          start + byteLength gap + byteLength t.text := by simp [hbefore, Nat.add_assoc]
      have hhead := hrest.gap_of_head? _ after hstop
      have htail := ih _ hstop hrest
      refine List.isChain_cons.mpr ⟨fun u hu => ?_, by simpa using htail⟩
      have hstart : t.span.stop = start + byteLength gap + byteLength t.text := by rw [hspan]
      obtain ⟨hle, gap', hslice, hblank⟩ := hhead u hu
      rw [← hstart] at hle hslice
      exact ⟨hle, gap', by simpa using hslice, hblank⟩

/-- A token that goes on with a number begins where the token in front of it ends. -/
theorem isChain_joinsTo (h : Laid start ts s) : ts.IsChain Token.JoinsTo := by
  induction ts generalizing start s with
  | nil => exact .nil
  | cons t ts ih =>
      obtain ⟨gap, rest, -, -, -, -, hspan, hrest⟩ := h
      apply List.isChain_cons.mpr
      constructor
      · intro u hu hjoined
        cases ts with
        | nil => cases hu
        | cons v ts =>
            obtain rfl : v = u := Option.some.inj hu
            obtain ⟨front, rest, -, -, hnone, -, hspan', -⟩ := hrest
            rw [hspan', hspan, hnone hjoined]
            rfl
      · exact ih hrest

theorem flatten_texts (h : Laid start ts s) : (Token.texts ts).flatten = s.solidPart := by
  induction ts generalizing start s with
  | nil =>
      obtain rfl := nil_iff.mp h
      rfl
  | cons t ts ih =>
      obtain ⟨gap, rest, rfl, hgap, -, hsolid, -, hrest⟩ := h
      rw [Text.solidPart_append, Text.solidPart_append, Text.solidPart_of_blank hgap,
        hsolid.solidPart, ← ih hrest]
      rfl

end Laid

theorem tokens_evaluate_tile (n : Nat) (input : Text) :
    let verdict := Verdict.evaluate (.ofNat n) input
    (∀ t ∈ verdict.tokens, slice input t.span.start t.span.stop = .ok t.text ∧ t.text ≠ []) ∧
    verdict.tokens.IsChain (Token.NextIn input) ∧
    (∀ t ∈ verdict.tokens.head?, ∃ gap, slice input 0 t.span.start = .ok gap ∧ gap.Blank) ∧
    (∃ read, slice input 0 (Token.readUntil verdict.tokens) = .ok read ∧
      (Token.texts verdict.tokens).flatten = read.solidPart) ∧
    (verdict.valid = true →
      (∃ rest, slice input (Token.readUntil verdict.tokens) (byteLength input) = .ok rest ∧
        rest.Blank) ∧
      (Token.texts verdict.tokens).flatten = input.solidPart) := by
  intro verdict
  obtain ⟨read, rest, rfl, hlaid, hcases⟩ := laid_evaluate (.ofNat n) input
  have huntil := hlaid.readUntil_eq
  refine ⟨?_, ?_, ?_, ⟨read, ?_, hlaid.flatten_texts⟩, fun hvalid => ?_⟩
  · exact hlaid.slice_of_mem [] rest rfl
  · exact hlaid.isChain_nextIn [] rest rfl
  · exact fun t ht => (hlaid.gap_of_head? [] rest rfl t ht).2
  · rw [huntil]
    exact Text.slice_front read rest
  · obtain ⟨-, hrest, -⟩ | ⟨hinvalid, -⟩ := hcases
    · refine ⟨⟨rest, ?_, hrest⟩, ?_⟩
      · rw [huntil]
        exact Text.slice_behind read rest
      · rw [hlaid.flatten_texts, Text.solidPart_append, Text.solidPart_of_blank hrest,
          List.append_nil]
    · rw [hvalid] at hinvalid
      cases hinvalid

end ArithGrammar
