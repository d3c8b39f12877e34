import ArithGrammar.View
import Mathlib.Data.Char
import Mathlib.Data.List.DropRight
import Mathlib.Data.List.TakeWhile

/-!
# Runs of characters

A text splits at the end of its longest beginning within a set. That beginning is all of a piece
`t` as soon as `t` stays in the set and what follows `t` does not go on in it
(`CharSet.run_append`). Trimming is the case of the blanks, taken from both ends: what it keeps
of a text that does not end in a blank is the text behind its blanks in front.
-/
namespace ArithGrammar

namespace CharSet
variable {set : CharSet} {s t b : Text} {c : Char}

def All (set : CharSet) (s : Text) : Prop := ∀ c ∈ s, set.contains c = true

def NotAhead (set : CharSet) (s : Text) : Prop := ∀ c ∈ s.head?, set.contains c = false

@[simp] theorem all_nil : set.All [] := by simp [All]

@[simp] theorem all_cons : set.All (c :: s) ↔ set.contains c = true ∧ set.All s := by simp [All]

@[simp] theorem all_append : set.All (s ++ t) ↔ set.All s ∧ set.All t := by
  simp [All, or_imp, forall_and]

@[simp] theorem notAhead_nil : set.NotAhead [] := by simp [NotAhead]

@[simp] theorem notAhead_cons : set.NotAhead (c :: s) ↔ set.contains c = false := by
  simp [NotAhead]

theorem NotAhead.append (hs : set.NotAhead s) (ht : set.NotAhead t) : set.NotAhead (s ++ t) := by
  cases s with
  | nil => exact ht
  | cons c s => exact notAhead_cons.mpr (notAhead_cons.mp hs)

theorem notAhead_iff_any : set.NotAhead s ↔ s.head?.any set.contains = false := by
  cases s <;> simp

theorem exists_of_not_notAhead (h : ¬ set.NotAhead s) :
    ∃ c r, s = c :: r ∧ set.contains c = true := by
  cases s with
  | nil => exact absurd notAhead_nil h
  | cons c r => exact ⟨c, r, rfl, by simpa using h⟩

theorem all_run (set : CharSet) (s : Text) : set.All (set.run s) :=
  fun _ hc => List.mem_takeWhile_imp hc

theorem notAhead_afterRun (set : CharSet) (s : Text) : set.NotAhead (set.afterRun s) := by
  intro c hc
  have h := List.head?_dropWhile_not set.contains s
  rw [show (List.dropWhile set.contains s).head? = some c from hc] at h
  exact h

theorem exists_run (set : CharSet) (s : Text) :
    ∃ t r, s = t ++ r ∧ set.All t ∧ set.NotAhead r :=
  ⟨_, _, (run_append_afterRun set s).symm, all_run set s, notAhead_afterRun set s⟩

theorem run_append (hs : set.All s) (ht : set.NotAhead t) : set.run (s ++ t) = s := by
  rw [run, List.takeWhile_append_of_pos hs]
  cases t with
  | nil => simp
  | cons c cs => simp [notAhead_cons.mp ht]

theorem afterRun_append (hs : set.All s) : set.afterRun (s ++ t) = set.afterRun t :=
  List.dropWhile_append_of_pos hs

theorem afterRun_eq_self (hs : set.NotAhead s) : set.afterRun s = s := by
  cases s with
  | nil => rfl
  | cons c cs => simp [afterRun, notAhead_cons.mp hs]

/-- The sets apart from the blanks lie within the visible characters of ASCII. -/
theorem bounds_of_contains (hset : set ≠ .blank) (hc : set.contains c = true) :
    ' ' < c ∧ c ≤ 'z' := by
  have between : ∀ a b : Char, ' ' < a → b ≤ 'z' → a ≤ c ∧ c ≤ b → ' ' < c ∧ c ≤ 'z' :=
    fun a b ha hb h => ⟨lt_of_lt_of_le ha h.1, h.2.trans hb⟩
  cases set with
  | blank => exact absurd rfl hset
  | digit => exact between '0' '9' (by decide) (by decide) (of_decide_eq_true hc)
  | nameStart =>
      rcases of_decide_eq_true hc with h | h | rfl
      · exact between 'a' 'z' (by decide) (by decide) h
      · exact between 'A' 'Z' (by decide) (by decide) h
      · decide
  | namePart =>
      rcases of_decide_eq_true hc with h | h | rfl | h
      · exact between 'a' 'z' (by decide) (by decide) h
      · exact between 'A' 'Z' (by decide) (by decide) h
      · decide
      · exact between '0' '9' (by decide) (by decide) h
  | addOp => rcases of_decide_eq_true hc with rfl | rfl <;> decide
  | mulOp => rcases of_decide_eq_true hc with rfl | rfl | rfl <;> decide
  | openParen => obtain rfl := of_decide_eq_true hc; decide
  | closeParen => obtain rfl := of_decide_eq_true hc; decide
  | minus => obtain rfl := of_decide_eq_true hc; decide
  | dot => obtain rfl := of_decide_eq_true hc; decide

theorem not_blank (hset : set ≠ .blank) (hc : set.contains c = true) :
    CharSet.blank.contains c = false :=
  decide_eq_false (Char.not_le.mpr (bounds_of_contains hset hc).1)

theorem utf8Size_eq_one (hc : set.contains c = true) : c.utf8Size = 1 := by
  have hval : c.val ≤ 'z'.val := by
    by_cases hset : set = .blank
    · subst hset
      have hle : c ≤ ' ' := of_decide_eq_true hc
      exact hle.trans (by decide)
    · exact (bounds_of_contains hset hc).2
  have hascii : 'z'.val ≤ 127 := by decide
  exact Char.utf8Size_eq_one_iff.mpr (UInt32.le_trans hval hascii)

theorem not_of_blank (hset : set ≠ .blank) (hc : CharSet.blank.contains c = true) :
    set.contains c = false := by
  refine Bool.eq_false_iff.mpr fun h => ?_
  rw [not_blank hset h] at hc
  cases hc

theorem not_digit_of_nameStart (hc : nameStart.contains c = true) : digit.contains c = false := by
  have hlt : '9' < c := by
    rcases of_decide_eq_true hc with ⟨h, -⟩ | ⟨h, -⟩ | rfl
    · exact lt_of_lt_of_le (by decide) h
    · exact lt_of_lt_of_le (by decide) h
    · decide
  exact decide_eq_false fun h => Char.not_le.mpr hlt h.2

end CharSet

abbrev Text.Blank (s : Text) : Prop := CharSet.blank.All s

namespace Text
variable {s t b : Text} {c : Char}

def EndsSolid (s : Text) : Prop := ∀ c ∈ s.getLast?, CharSet.blank.contains c = false

@[simp] theorem endsSolid_nil : EndsSolid [] := by simp [EndsSolid]

theorem EndsSolid.of_append (h : EndsSolid (s ++ t)) : EndsSolid t := by
  cases t with
  | nil => exact endsSolid_nil
  | cons c cs =>
      intro d hd
      exact h d (List.mem_getLast?_append_of_mem_getLast? hd)

/-- The text without the blanks at its ends. -/
def trimmed (s : Text) : Text := (CharSet.blank.afterRun s).rdropWhile CharSet.blank.contains

theorem endsSolid_trimmed (s : Text) : EndsSolid (trimmed s) := by
  intro c hc
  have hne : trimmed s ≠ [] := List.ne_nil_of_mem (List.mem_of_getLast? hc)
  have h := List.rdropWhile_last_not CharSet.blank.contains (CharSet.blank.afterRun s) hne
  have hlast : (trimmed s).getLast hne = c :=
    Option.some.inj ((List.getLast?_eq_some_getLast hne).symm.trans hc)
  rw [← hlast]
  exact Bool.not_eq_true _ ▸ h

theorem trimmed_of_endsSolid (h : EndsSolid s) : trimmed s = CharSet.blank.afterRun s := by
  refine List.rdropWhile_eq_self_iff.mpr fun hne => ?_
  have hs : EndsSolid (CharSet.blank.afterRun s) :=
    EndsSolid.of_append (s := CharSet.blank.run s) (by rwa [CharSet.run_append_afterRun])
  simpa using hs _ (List.getLast?_eq_some_getLast hne)

theorem EndsSolid.eq_nil (h : EndsSolid s) (hs : Blank s) : s = [] := by
  cases hlast : s.getLast? with
  | none => exact List.getLast?_eq_none_iff.mp hlast
  | some c =>
      have hsolid := h c hlast
      rw [hs c (List.mem_of_getLast? hlast)] at hsolid
      cases hsolid

theorem EndsSolid.append (h : EndsSolid t) (ht : t ≠ []) : EndsSolid (s ++ t) := by
  intro c hc
  rw [List.getLast?_append_of_ne_nil s ht] at hc
  exact h c hc

theorem EndsSolid.cons (hc : CharSet.blank.contains c = false) (h : EndsSolid s) :
    EndsSolid (c :: s) := by
  cases s with
  | nil => simpa [EndsSolid] using hc
  | cons d ds => exact EndsSolid.append (s := [c]) h (List.cons_ne_nil d ds)

theorem trimmed_append {front behind : Text} (hfront : Blank front) (hbehind : Blank behind)
    (hs : CharSet.blank.NotAhead s) (hend : EndsSolid s) :
    trimmed (front ++ (s ++ behind)) = s := by
  unfold trimmed
  rw [CharSet.afterRun_append hfront]
  cases s with
  | nil => rw [List.nil_append, ← List.append_nil behind, CharSet.afterRun_append hbehind]; rfl
  | cons c cs =>
      have hrev : ∀ d ∈ behind.reverse, CharSet.blank.contains d = true :=
        fun d hd => hbehind d (List.mem_reverse.mp hd)
      rw [List.cons_append, CharSet.afterRun_eq_self (CharSet.notAhead_cons.mpr
        (CharSet.notAhead_cons.mp hs)), ← List.cons_append, List.rdropWhile,
        List.reverse_append, List.dropWhile_append_of_pos hrev]
      exact List.rdropWhile_eq_self_iff.mpr fun hne => by
        simpa using hend _ (List.getLast?_eq_some_getLast hne)

theorem notAhead_trimmed (s : Text) : CharSet.blank.NotAhead (trimmed s) := by
  obtain ⟨behind, hsplit⟩ : trimmed s <+: CharSet.blank.afterRun s := List.rdropWhile_prefix _ _
  have hahead := CharSet.notAhead_afterRun .blank s
  rw [← hsplit] at hahead
  cases h : trimmed s with
  | nil => exact CharSet.notAhead_nil
  | cons c cs =>
      rw [h] at hahead
      exact CharSet.notAhead_cons.mpr (CharSet.notAhead_cons.mp hahead)

theorem eq_run_append_trimmed (s : Text) :
    ∃ behind, Blank behind ∧ CharSet.blank.afterRun s = trimmed s ++ behind ∧
      View.blanksBehind (CharSet.blank.afterRun s) = byteLength behind := by
  refine ⟨(CharSet.blank.afterRun s).rtakeWhile CharSet.blank.contains,
    fun c hc => List.mem_rtakeWhile_imp hc, List.rdropWhile_append_rtakeWhile.symm, ?_⟩
  induction CharSet.blank.afterRun s using List.reverseRecOn with
  | nil => rfl
  | append_singleton t c ih =>
      rw [View.blanksBehind_concat, List.rtakeWhile_concat]
      split
      · rw [ih, byteLength_append]
        rfl
      · rfl

theorem byteLength_trimmed_le (s : Text) : byteLength (trimmed s) ≤ byteLength s := by
  obtain ⟨behind, -, hafter, -⟩ := eq_run_append_trimmed s
  have hbytes := congrArg byteLength (CharSet.run_append_afterRun .blank s)
  simp only [hafter, byteLength_append] at hbytes
  omega

/-- Blanks behind a text are left behind what it is trimmed to, or nothing is. -/
theorem exists_trimmed_gap {gap : Text} (hgap : Blank gap) (s : Text) :
    ∃ front behind, s ++ gap = front ++ (trimmed s ++ behind) ∧ Blank front ∧ Blank behind ∧
      (trimmed s = [] → behind = []) ∧ (trimmed s ≠ [] → front = CharSet.blank.run s) := by
  obtain ⟨behind, hbehind, hafter, -⟩ := eq_run_append_trimmed s
  have hs := CharSet.run_append_afterRun .blank s
  rw [hafter] at hs
  have hrun := CharSet.all_run .blank s
  by_cases hne : trimmed s = []
  · refine ⟨s ++ gap, [], by rw [hne, List.append_nil, List.append_nil], ?_, CharSet.all_nil,
      fun _ => rfl, fun h => absurd hne h⟩
    rw [← hs, hne]
    exact CharSet.all_append.mpr ⟨CharSet.all_append.mpr ⟨hrun, hbehind⟩, hgap⟩
  · refine ⟨CharSet.blank.run s, behind ++ gap, ?_, hrun,
      CharSet.all_append.mpr ⟨hbehind, hgap⟩, fun h => absurd h hne, fun _ => rfl⟩
    nth_rewrite 1 [← hs]
    simp only [List.append_assoc]

/-- The blanks at the end of a text may be left off. It is trimmed to the same without them, and has
the same blanks in front unless it has no other characters. -/
theorem exists_endsSolid (s : Text) :
    ∃ t behind, s = t ++ behind ∧ Blank behind ∧ EndsSolid t ∧ trimmed t = trimmed s ∧
      (trimmed s ≠ [] → CharSet.blank.run t = CharSet.blank.run s) := by
  obtain ⟨behind, hblank, hbehind, -⟩ := eq_run_append_trimmed s
  have hs := CharSet.run_append_afterRun .blank s
  rw [hbehind] at hs
  have hrun := CharSet.all_run .blank s
  by_cases hne : trimmed s = []
  · refine ⟨[], s, rfl, ?_, endsSolid_nil, hne.symm, fun h => absurd hne h⟩
    rw [← hs, hne]
    exact CharSet.all_append.mpr ⟨hrun, CharSet.all_append.mpr ⟨CharSet.all_nil, hblank⟩⟩
  · refine ⟨CharSet.blank.run s ++ trimmed s, behind, by rw [List.append_assoc, hs], hblank,
      EndsSolid.append (endsSolid_trimmed s) hne, ?_,
      fun _ => CharSet.run_append hrun (notAhead_trimmed s)⟩
    have htrimmed := trimmed_append hrun CharSet.all_nil (notAhead_trimmed s) (endsSolid_trimmed s)
    rwa [List.append_nil] at htrimmed

end Text

end ArithGrammar
