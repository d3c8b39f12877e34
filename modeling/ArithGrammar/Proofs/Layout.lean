import ArithGrammar.Proofs.CharRuns
import ArithGrammar.Token

/-!
# Tokens laid out in a text

Tokens are laid out in a text from some offset on if the text is made of theirs, with nothing but
blanks between them and in front of the first, and each span is where its token stands. The dot
and the fraction of a decimal number follow at once. The text ends with the last token, so
layouts can be put behind one another and taken apart again (`Laid.append`, `Laid.of_append`).
-/
namespace ArithGrammar
open Text (byteLength)

def Token.placed (start : Nat) (kind : TokenKind) (text : Text) : Token :=
  ⟨kind, text, ⟨start, start + byteLength text⟩⟩

namespace Token
variable (start : Nat) (kind : TokenKind) (text : Text)

@[simp] theorem kind_placed : (placed start kind text).kind = kind := rfl

@[simp] theorem text_placed : (placed start kind text).text = text := rfl

end Token

/-- Whether tokens of the kind go on with the number that the token in front of them began. -/
def TokenKind.joined : TokenKind → Bool
  | dot | fraction => true
  | _ => false

/-- Some characters, none of them blank. -/
def Text.Solid (s : Text) : Prop := s ≠ [] ∧ ∀ c ∈ s, CharSet.blank.contains c = false

namespace Text.Solid
variable {s : Text}

theorem of_all {set : CharSet} (hset : set ≠ .blank) (hne : s ≠ []) (hs : set.All s) : s.Solid :=
  ⟨hne, fun c hc => CharSet.not_blank hset (hs c hc)⟩

theorem char (set : CharSet) {c : Char} (hset : set ≠ .blank) (hc : set.contains c = true) :
    Text.Solid [c] := of_all hset (by simp) (by simpa using hc)

theorem notAhead (h : s.Solid) (r : Text) : CharSet.blank.NotAhead (s ++ r) := by
  obtain ⟨hne, hs⟩ := h
  cases s with
  | nil => exact absurd rfl hne
  | cons c cs => exact CharSet.notAhead_cons.mpr (hs c (by simp))

theorem endsSolid (h : s.Solid) : s.EndsSolid :=
  fun c hc => h.2 c (List.mem_of_getLast? hc)

end Text.Solid

/-- The text from `start` on is that of the tokens, with blanks in front of each. -/
def Laid : Nat → List Token → Text → Prop
  | _, [], s => s = []
  | start, t :: ts, s => ∃ gap rest, s = gap ++ (t.text ++ rest) ∧ gap.Blank ∧
      (t.kind.joined = true → gap = []) ∧ t.text.Solid ∧
      t.span = ⟨start + byteLength gap, start + byteLength gap + byteLength t.text⟩ ∧
      Laid (start + byteLength gap + byteLength t.text) ts rest

namespace Laid
variable {start : Nat} {t : Token} {ts us : List Token} {s r gap : Text}

@[simp] theorem nil_iff : Laid start [] s ↔ s = [] := Iff.rfl

theorem eq_nil (h : Laid start ts []) : ts = [] := by
  cases ts with
  | nil => rfl
  | cons t ts =>
      obtain ⟨gap, rest, hs, -, -, hsolid, -⟩ := h
      obtain ⟨-, htext⟩ := List.append_eq_nil_iff.mp hs.symm
      exact absurd (List.append_eq_nil_iff.mp htext).1 hsolid.1

theorem placed {kind : TokenKind} (hs : s.Solid) : Laid start [Token.placed start kind s] s :=
  ⟨[], [], by simp, CharSet.all_nil, fun _ => rfl, hs, rfl, rfl⟩

theorem append (h : Laid start ts s) (k : Laid (start + byteLength s) us r) :
    Laid start (ts ++ us) (s ++ r) := by
  induction ts generalizing start s with
  | nil =>
      obtain rfl := nil_iff.mp h
      simpa using k
  | cons t ts ih =>
      obtain ⟨gap, rest, rfl, hgap, hjoined, hsolid, hspan, hrest⟩ := h
      refine ⟨gap, rest ++ r, by simp only [List.append_assoc], hgap, hjoined, hsolid, hspan, ?_⟩
      refine ih hrest ?_
      simpa only [Text.byteLength_append, Nat.add_assoc] using k

theorem of_append (h : Laid start (ts ++ us) s) :
    ∃ s₁ s₂, s = s₁ ++ s₂ ∧ Laid start ts s₁ ∧ Laid (start + byteLength s₁) us s₂ := by
  induction ts generalizing start s with
  | nil => exact ⟨[], s, rfl, rfl, h⟩
  | cons t ts ih =>
      obtain ⟨gap, rest, rfl, hgap, hjoined, hsolid, hspan, hrest⟩ := h
      obtain ⟨s₁, s₂, rfl, h₁, h₂⟩ := ih hrest
      refine ⟨gap ++ (t.text ++ s₁), s₂, by simp only [List.append_assoc],
        ⟨gap, s₁, rfl, hgap, hjoined, hsolid, hspan, h₁⟩, ?_⟩
      simpa only [Text.byteLength_append, Nat.add_assoc] using h₂

/-- Blanks may be put in front, unless the first token goes on with one before it. -/
theorem behind (hgap : gap.Blank) (hne : ts ≠ [])
    (hts : ∀ t ∈ ts.head?, t.kind.joined = false) (h : Laid (start + byteLength gap) ts s) :
    Laid start ts (gap ++ s) := by
  cases ts with
  | nil => exact absurd rfl hne
  | cons t ts =>
      obtain ⟨inner, rest, rfl, hinner, -, hsolid, hspan, hrest⟩ := h
      have ht : t.kind.joined = false := hts t rfl
      refine ⟨gap ++ inner, rest, by simp only [List.append_assoc],
        CharSet.all_append.mpr ⟨hgap, hinner⟩, ?_, hsolid, ?_, ?_⟩
      · simp [ht]
      · simpa only [Text.byteLength_append, Nat.add_assoc] using hspan
      · simpa only [Text.byteLength_append, Nat.add_assoc] using hrest

/-- Blanks that are all there are in front may be left out. -/
theorem drop_gap (hgap : gap.Blank) (hs : CharSet.blank.NotAhead s)
    (h : Laid start ts (gap ++ s)) : Laid (start + byteLength gap) ts s := by
  cases ts with
  | nil => exact nil_iff.mpr (List.append_eq_nil_iff.mp (nil_iff.mp h)).2
  | cons t ts =>
      obtain ⟨front, rest, heq, hfront, -, hsolid, hspan, hrest⟩ := h
      have hruns := congrArg CharSet.blank.run heq
      rw [CharSet.run_append hgap hs, CharSet.run_append hfront (hsolid.notAhead rest)] at hruns
      subst hruns
      exact ⟨[], rest, List.append_cancel_left heq, CharSet.all_nil, fun _ => rfl, hsolid, hspan,
        hrest⟩

theorem endsSolid (h : Laid start ts s) : s.EndsSolid := by
  induction ts generalizing start s with
  | nil =>
      obtain rfl := nil_iff.mp h
      exact Text.endsSolid_nil
  | cons t ts ih =>
      obtain ⟨gap, rest, rfl, -, -, hsolid, -, hrest⟩ := h
      by_cases hne : rest = []
      · subst hne
        rw [List.append_nil]
        exact Text.EndsSolid.append hsolid.endsSolid hsolid.1
      · rw [← List.append_assoc]
        exact Text.EndsSolid.append (ih hrest) hne

theorem stop_getLast (h : Laid start ts s) (hne : ts ≠ []) :
    (ts.getLast hne).span.stop = start + byteLength s := by
  induction ts generalizing start s with
  | nil => exact absurd rfl hne
  | cons t ts ih =>
      obtain ⟨gap, rest, rfl, -, -, -, hspan, hrest⟩ := h
      cases ts with
      | nil =>
          obtain rfl := nil_iff.mp hrest
          simp [hspan, Nat.add_assoc]
      | cons u us =>
          rw [List.getLast_cons (List.cons_ne_nil u us), ih hrest]
          simp only [Text.byteLength_append, Nat.add_assoc]

end Laid

end ArithGrammar
