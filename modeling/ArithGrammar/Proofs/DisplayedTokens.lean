import ArithGrammar.Proofs.NestingLimits
import ArithGrammar.Proofs.ReportDecoding
import ArithGrammar.Proofs.Separators
import ArithGrammar.WhiteSpace

/-!
# Tokens that are displayed

The texts of the tokens are displayed with a comma and a space between two of them, and the kinds are
not displayed at all. Nothing is lost by this. No token of any verdict has a comma or a space of any
sort in it, so the texts are read back (`Token.displayed_display`). Those of a valid text make up
another one if they are put together without separators, and it is read as the same tokens, so the
kinds are settled by the texts (`terminals_eq_of_texts_eq`).
-/
namespace ArithGrammar

theorem whiteSpace_of_bounds {c : Char} (h : ' ' < c ∧ c ≤ 'z') : whiteSpace.contains c = false := by
  have hlow : 0x20 < c.toNat := UInt32.lt_iff_toNat_lt.mp h.1
  have hhigh : c.toNat ≤ 0x7a := UInt32.le_iff_toNat_le.mp h.2
  have hordered : whiteSpace.Pairwise fun r s => r.1 ≤ s.1 := by decide
  have houtside : ∀ r ∈ whiteSpace, r.2 ≤ 0x20 ∨ 0x7a < r.1 := by decide
  rw [CodePoints.contains, Bool.eq_false_iff, ne_eq, CodePoints.has_iff hordered]
  rintro ⟨r, hr, hfirst, hlast⟩
  have hrange := houtside r hr
  omega

namespace Token
variable {limit : NestingLimit} {input : Text} {t : Token}

theorem bounds_of_mem_evaluate (h : t ∈ (Verdict.evaluate limit input).tokens) {c : Char}
    (hc : c ∈ t.text) : ' ' < c ∧ c ≤ 'z' := by
  have hformed := Reading.Found.formed (covers_recognize limit input) t h
  exact CharSet.bounds_of_contains t.kind.charSet_ne_blank (hformed.all c hc)

theorem display_eq_nil_iff (limit : NestingLimit) (input : Text) :
    display (Verdict.evaluate limit input).tokens = [] ↔
      (Verdict.evaluate limit input).tokens = [] := by
  constructor
  · intro h
    have hread := displayed_display limit input
    rw [h] at hread
    exact List.map_eq_nil_iff.mp hread.symm
  · intro h
    rw [h, display_nil]

/-- The separators divide what is displayed into the texts. -/
theorem pieces_display (h : (Verdict.evaluate limit input).tokens ≠ []) :
    pieces (display (Verdict.evaluate limit input).tokens) =
      texts (Verdict.evaluate limit input).tokens := by
  have hread := displayed_display limit input
  rwa [displayed, if_neg (h ∘ (display_eq_nil_iff limit input).mp)] at hread

theorem texts_eq_of_terminals_eq {ts us : List Token} (h : ts.map terminal = us.map terminal) :
    texts ts = texts us := by
  have htexts := congrArg (List.map Terminal.text) h
  rwa [List.map_map, List.map_map] at htexts

theorem kinds_eq_of_terminals_eq {ts us : List Token} (h : ts.map terminal = us.map terminal) :
    ts.map kind = us.map kind := by
  have hkinds := congrArg (List.map Terminal.kind) h
  rwa [List.map_map, List.map_map] at hkinds

end Token

section
variable {limit limit' : NestingLimit} {s t : Text}

/-- The texts of a valid verdict are the text without its blanks. -/
theorem flatten_texts_of_valid (h : (Verdict.evaluate limit s).valid = true) :
    (Token.texts (Verdict.evaluate limit s).tokens).flatten = s.solidPart := by
  obtain ⟨T, -, read, behind, hs, hbehind, hspelled⟩ := exists_spells_of_valid h
  rw [hspelled.laid.flatten_texts, hs, Text.solidPart_append, Text.solidPart_of_blank hbehind,
    List.append_nil]

theorem evaluate_flatten_texts (h : (Verdict.evaluate limit s).valid = true) :
    let joined := Verdict.evaluate limit (Token.texts (Verdict.evaluate limit s).tokens).flatten
    joined.valid = true ∧
      joined.tokens.map Token.terminal = (Verdict.evaluate limit s).tokens.map Token.terminal := by
  intro joined
  have hsolid := evaluate_solidPart h
  rwa [← flatten_texts_of_valid h] at hsolid

theorem tokens_greatest_of_valid (h : (Verdict.evaluate limit s).valid = true) :
    (Verdict.evaluate .greatest s).tokens = (Verdict.evaluate limit s).tokens := by
  have hle : limit.levels ≤ NestingLimit.greatest.levels := limit.levels_le
  exact (recognize_eq_of_not_tooDeep hle (not_tooDeep_of_valid h)).1

theorem valid_greatest_of_valid (h : (Verdict.evaluate limit s).valid = true) :
    (Verdict.evaluate .greatest s).valid = true := by
  have hle : limit.levels ≤ NestingLimit.greatest.levels := limit.levels_le
  exact valid_of_le hle h

/-- Valid texts whose tokens have the same texts have the same tokens, up to their places. -/
theorem terminals_eq_of_texts_eq (hs : (Verdict.evaluate limit s).valid = true)
    (ht : (Verdict.evaluate limit' t).valid = true)
    (h : Token.texts (Verdict.evaluate limit s).tokens =
      Token.texts (Verdict.evaluate limit' t).tokens) :
    (Verdict.evaluate limit s).tokens.map Token.terminal =
      (Verdict.evaluate limit' t).tokens.map Token.terminal := by
  have hs' := (evaluate_flatten_texts (valid_greatest_of_valid hs)).2
  have ht' := (evaluate_flatten_texts (valid_greatest_of_valid ht)).2
  rw [tokens_greatest_of_valid hs] at hs'
  rw [tokens_greatest_of_valid ht, ← h] at ht'
  exact hs'.symm.trans ht'

end

/-- What is displayed of the tokens tells their texts, and that of a valid text also their kinds. -/
theorem display_tells_tokens (n : Nat) (input : Text) :
    let verdict := Verdict.evaluate (.ofNat n) input
    (∀ t ∈ verdict.tokens, t.text ≠ [] ∧
      ∀ c ∈ t.text, c ≠ ',' ∧ CharSet.blank.contains c = false ∧ whiteSpace.contains c = false) ∧
    (verdict.tokens ≠ [] →
      Token.pieces (Token.display verdict.tokens) = Token.texts verdict.tokens) ∧
    (Token.display verdict.tokens = [] ↔ verdict.tokens = []) ∧
    (verdict.valid = true →
      let joined := Verdict.evaluate (.ofNat n) (Token.texts verdict.tokens).flatten
      joined.valid = true ∧ Token.texts joined.tokens = Token.texts verdict.tokens ∧
        joined.tokens.map Token.kind = verdict.tokens.map Token.kind) ∧
    (verdict.valid = true → ∀ (m : Nat) (other : Text),
      let verdict' := Verdict.evaluate (.ofNat m) other
      verdict'.valid = true → Token.display verdict'.tokens = Token.display verdict.tokens →
        verdict'.tokens.map Token.kind = verdict.tokens.map Token.kind) := by
  intro verdict
  refine ⟨fun t ht => ?_, Token.pieces_display, Token.display_eq_nil_iff _ _, fun hvalid => ?_,
    fun hvalid m other => ?_⟩
  · obtain ⟨hne, hcomma, -⟩ := Token.text_of_mem_evaluate ht
    refine ⟨hne, fun c hc => ?_⟩
    have hbounds := Token.bounds_of_mem_evaluate ht hc
    refine ⟨?_, decide_eq_false (Char.not_le.mpr hbounds.1), whiteSpace_of_bounds hbounds⟩
    rintro rfl
    exact hcomma hc
  · obtain ⟨hjoined, hterminals⟩ := evaluate_flatten_texts hvalid
    exact ⟨hjoined, Token.texts_eq_of_terminals_eq hterminals,
      Token.kinds_eq_of_terminals_eq hterminals⟩
  · intro verdict' hvalid' hdisplay
    have htexts := congrArg Token.displayed hdisplay
    rw [Token.displayed_display, Token.displayed_display] at htexts
    exact Token.kinds_eq_of_terminals_eq (terminals_eq_of_texts_eq hvalid' hvalid htexts)

/-- The two roles of a minus sign are not displayed. -/
example : Token.display (Verdict.evaluate (.ofNat 1) " 1.5- -x".toList).tokens =
    "1, ., 5, -, -, x".toList := by
  decide +kernel

end ArithGrammar
