import ArithGrammar.Account
import ArithGrammar.ControlSequence
import Mathlib.Algebra.Group.Nat.Defs
import Mathlib.Tactic.SplitIfs

/-!
# Quoted texts are read back

A quoted text tells where it ends and what it quotes, whatever comes behind it
(`Quoted.decode?_encode`). All its characters are plain ones, so a record in which every text is
quoted is shown as it is and stays on one line (`Record.plain_of_mem_account`).
-/
namespace ArithGrammar

namespace Quoted

/-- Where between the quotes a reading has got to. -/
inductive Place where
  /-- In front of a character that stands for itself, an escape, or the end. -/
  | between
  /-- Behind a backslash. -/
  | escaped
  /-- Behind a backslash and the letter that announces a code point. -/
  | announced
  /-- In the digits of a code point that have this value so far. -/
  | digits (value : Nat)
  deriving DecidableEq, Repr

def hexValue (c : Char) : Nat := if c.toNat < 58 then c.toNat - 48 else c.toNat - 87

/-- What a letter behind a backslash stands for. -/
def unescaped (c : Char) : Char :=
  if c = 't' then '\t'
  else if c = 'r' then '\r'
  else if c = 'n' then '\n'
  else if c = '0' then '\x00'
  else c

/-- The rest of what is quoted, up to the closing quote. -/
def decodeFrom : Place → Text → Option Text
  | _, [] => none
  | .between, c :: cs =>
      if c = '\x22' then some []
      else if c = '\\' then decodeFrom .escaped cs
      else (decodeFrom .between cs).map (c :: ·)
  | .escaped, c :: cs =>
      if c = 'u' then decodeFrom .announced cs
      else (decodeFrom .between cs).map (unescaped c :: ·)
  | .announced, c :: cs => if c = '\x7b' then decodeFrom (.digits 0) cs else none
  | .digits value, c :: cs =>
      if c = '\x7d' then (decodeFrom .between cs).map (Char.ofNat value :: ·)
      else decodeFrom (.digits (value * 16 + hexValue c)) cs

/-- The text that is quoted at the beginning. -/
def decode? : Text → Option Text
  | [] => none
  | c :: cs => if c = '\x22' then decodeFrom .between cs else none

theorem toNat_lt (c : Char) : c.toNat < 16 ^ 6 := by
  have hvalid := c.valid
  simp only [UInt32.isValidChar, Nat.isValidChar] at hvalid
  simp only [Char.toNat]
  omega

theorem hexValue_hexDigit : ∀ d < 16, hexValue (hexDigit d) = d := by decide

theorem hexDigit_ne : ∀ d < 16, hexDigit d ≠ '\x7d' := by decide

theorem decodeFrom_hexDigit {d : Nat} (hd : d < 16) (value : Nat) (rest : Text) :
    decodeFrom (.digits value) (hexDigit d :: rest) =
      decodeFrom (.digits (value * 16 + d)) rest := by
  rw [decodeFrom, if_neg (hexDigit_ne d hd), hexValue_hexDigit d hd]

theorem decodeFrom_hex {count n : Nat} (hn : n < 16 ^ count) (rest : Text) :
    decodeFrom (.digits 0) (hex count n ++ rest) = decodeFrom (.digits n) rest := by
  induction count generalizing n rest with
  | zero =>
      obtain rfl : n = 0 := by omega
      rfl
  | succ count ih =>
      have hmod : n % 16 < 16 := Nat.mod_lt n (by decide)
      rw [hex, List.append_assoc, List.singleton_append]
      split_ifs with hsmall
      · rw [List.nil_append, decodeFrom_hexDigit hmod, Nat.zero_mul, Nat.zero_add,
          Nat.mod_eq_of_lt hsmall]
      · have hdiv : n / 16 < 16 ^ count := Nat.div_lt_of_lt_mul (by rwa [← Nat.pow_succ'])
        rw [ih hdiv, decodeFrom_hexDigit hmod, Nat.div_add_mod']

theorem decodeFrom_escape (c : Char) (rest : Text) :
    decodeFrom .between (escape c ++ rest) = (decodeFrom .between rest).map (c :: ·) := by
  rw [escape]
  split_ifs with hquote htab hreturn hfeed hnull hhidden
  · obtain rfl | rfl := hquote <;> rfl
  · rw [htab]
    rfl
  · rw [hreturn]
    rfl
  · rw [hfeed]
    rfl
  · rw [hnull]
    rfl
  · rw [List.append_assoc, List.append_assoc]
    change decodeFrom (.digits 0) (hex 6 c.toNat ++ ('\x7d' :: rest)) = _
    rw [decodeFrom_hex (toNat_lt c), decodeFrom, if_pos rfl, Char.ofNat_toNat]
  · obtain ⟨hquote, hslash⟩ := not_or.mp hquote
    rw [List.singleton_append, decodeFrom, if_neg hquote, if_neg hslash]

theorem decodeFrom_flatMap (s rest : Text) :
    decodeFrom .between (s.flatMap escape ++ '\x22' :: rest) = some s := by
  induction s with
  | nil => rfl
  | cons c s ih =>
      rw [List.flatMap_cons, List.append_assoc, decodeFrom_escape, ih]
      rfl

/-- A quoted text is read back, whatever comes behind it. -/
theorem decode?_encode (s rest : Text) : decode? (encode s ++ rest) = some s := by
  rw [encode, List.append_assoc, List.append_assoc, List.singleton_append, List.singleton_append,
    decode?, if_pos rfl, decodeFrom_flatMap]

theorem mem_hex {count n : Nat} {c : Char} (h : c ∈ hex count n) : ∃ d < 16, c = hexDigit d := by
  induction count generalizing n with
  | zero => cases h
  | succ count ih =>
      rw [hex] at h
      rcases List.mem_append.mp h with h | h
      · split_ifs at h
        · cases h
        · exact ih h
      · exact ⟨n % 16, Nat.mod_lt n (by decide), List.mem_singleton.mp h⟩

end Quoted

/-- No control character is in the text. -/
def Text.Plain (s : Text) : Prop := ∀ c ∈ s, ' ' ≤ c ∧ c ≠ '\x7f'

instance Text.decidablePlain (s : Text) : Decidable s.Plain :=
  List.decidableBAll (fun c => ' ' ≤ c ∧ c ≠ '\x7f') s

namespace Text.Plain
variable {s t : Text}

theorem append (hs : s.Plain) (ht : t.Plain) : Plain (s ++ t) :=
  List.forall_mem_append.mpr ⟨hs, ht⟩

theorem visible_eq (h : s.Plain) : ControlSequence.visible s = s := by
  refine ControlSequence.visible_of_forall fun c hc => ?_
  rw [ControlSequence.isShown, Bool.or_eq_true, Bool.and_eq_true]
  exact .inr ⟨decide_eq_true (h c hc).1, decide_eq_true (h c hc).2⟩

theorem lineFeed_not_mem (h : s.Plain) : '\n' ∉ s := fun hmem => absurd (h _ hmem).1 (by decide)

theorem carriageReturn_not_mem (h : s.Plain) : '\r' ∉ s := fun hmem =>
  absurd (h _ hmem).1 (by decide)

theorem ofNat (n : Nat) : (Text.ofNat n).Plain := by
  intro c hc
  have hdigit := Nat.isDigit_of_mem_toDigits (by decide) (by decide) hc
  rw [Char.isDigit, Bool.and_eq_true, decide_eq_true_iff, decide_eq_true_iff] at hdigit
  refine ⟨Char.le_trans (by decide) hdigit.1, ?_⟩
  rintro rfl
  exact absurd hdigit.2 (by decide)

theorem of_not_isHidden {c : Char} (h : Quoted.isHidden c = false) : ' ' ≤ c ∧ c ≠ '\x7f' := by
  have hunseen : unseen.has c.toNat = false := by
    rw [Quoted.isHidden, Bool.or_eq_false_iff, Bool.or_eq_false_iff] at h
    exact h.1.1
  constructor
  · refine Char.not_lt.mp fun hlt => ?_
    have hall : ∀ n < 32, unseen.has n = true := by decide +kernel
    rw [hall c.toNat hlt] at hunseen
    cases hunseen
  · rintro rfl
    revert hunseen
    decide +kernel

theorem encode (s : Text) : (Quoted.encode s).Plain := by
  have hescape (c : Char) : Plain (Quoted.escape c) := by
    rw [Quoted.escape]
    split_ifs with hquote _ _ _ _ hhidden
    · obtain rfl | rfl := hquote <;> decide
    · decide
    · decide
    · decide
    · decide
    · have hdigit : ∀ d < 16, ' ' ≤ Quoted.hexDigit d ∧ Quoted.hexDigit d ≠ '\x7f' := by decide
      refine .append (.append (by decide) fun d hd => ?_) (by decide)
      obtain ⟨digit, hsmall, rfl⟩ := Quoted.mem_hex hd
      exact hdigit digit hsmall
    · intro d hd
      rw [List.mem_singleton.mp hd]
      exact of_not_isHidden (eq_false_of_ne_true hhidden)
  refine .append (.append (by decide) fun c hc => ?_) (by decide)
  obtain ⟨d, -, hc⟩ := List.mem_flatMap.mp hc
  exact hescape d c hc

end Text.Plain

namespace Record
open Text

theorem plain_message_event (e : Event) : Plain e.message := by
  cases e with
  | entered rule v =>
      have hlabel : Plain rule.label := by
        cases rule <;> decide +kernel
      exact (hlabel.append (by decide)).append (.encode v.chars)
  | read t =>
      have hlabel : Plain t.kind.label := by
        cases t.kind <;> decide +kernel
      have htoken : Plain ("token ".toList ++ t.kind.label ++ [' ']) :=
        (Plain.append (by decide +kernel) hlabel).append (by decide)
      exact ((((htoken.append (.encode t.text)).append (by decide +kernel)).append
        (.ofNat _)).append (by decide +kernel)).append (.ofNat _)

theorem plain_message_failure (failure : Failure) : Plain failure.message := by
  cases failure with
  | mismatch =>
      have hplain : Plain "syntax mismatch".toList := by decide +kernel
      exact hplain
  | tooDeep limit =>
      exact (Plain.append (by decide +kernel) (.ofNat limit)).append (by decide +kernel)
  | badSlice error =>
      cases error with
      | reversed start stop =>
          exact ((Plain.append (by decide +kernel) (.ofNat start)).append
            (by decide +kernel)).append (.ofNat stop)
      | offBoundary offset => exact Plain.append (by decide +kernel) (.ofNat offset)

theorem plain_summary (x : Attempt Unit) (input : Text) : Plain (x.summary input) := by
  rw [Attempt.summary]
  split
  · exact (((Plain.append (by decide +kernel) (.encode input)).append (by decide +kernel)).append
      (.ofNat _)).append (by decide +kernel)
  · exact ((Plain.append (by decide +kernel) (.encode input)).append (by decide +kernel)).append
      (plain_message_failure _)

/-- No control character is in a record on a recognition, whatever was recognized. -/
theorem plain_of_mem_account {wanted : Level → Bool} {limit : NestingLimit} {input : Text}
    {r : Record} (h : r ∈ account wanted limit input) :
    r.target = recognitionTarget ∧ Plain r.message := by
  rw [account] at h
  rcases List.mem_append.mp h with h | h
  · split_ifs at h
    · obtain ⟨e, -, rfl⟩ := List.mem_map.mp h
      exact ⟨rfl, plain_message_event e⟩
    · cases h
  · split_ifs at h
    · rw [List.mem_singleton.mp h]
      exact ⟨rfl, plain_summary _ input⟩
    · cases h

theorem plain_column {r : Record} (htarget : Plain r.target) (hmessage : Plain r.message) :
    Plain r.column := by
  have hlabel : Plain r.level.label := by
    cases r.level <;> decide +kernel
  have hspaces (n : Nat) : Plain (List.replicate n ' ') := by
    intro c hc
    rw [(List.mem_replicate.mp hc).2]
    decide
  exact ((((hlabel.append (hspaces _)).append (by decide)).append htarget).append
    (by decide)).append hmessage

end Record

end ArithGrammar
