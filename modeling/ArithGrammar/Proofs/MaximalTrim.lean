import ArithGrammar.Proofs.Division
import ArithGrammar.Proofs.PassSafety
import ArithGrammar.Proofs.Separators
import Mathlib.Logic.Relation

/-!
# Trimming takes all blanks and nothing else

What trimming leaves of a view is told without the way it is computed: blanks are dropped at both
ends, and what is left neither begins nor ends in one (`View.MaximalTrim`). There is only one such
part of the view once it is settled which empty part is left where there is nothing but blanks
(`View.MaximalTrim.eq_trimmed`), so the two steps of trimming cannot come out in another way, and
blanks taken or split off before make no difference (`View.trimmed_of_resumed`).
-/
namespace ArithGrammar
open Text (byteLength isBoundary slice)

namespace Text
variable {s t u front kept behind : Text} {i j n : Nat}

theorem blank_iff : s.Blank ↔ ∀ c ∈ s, c ≤ ' ' := by simp [CharSet.All, CharSet.contains]

theorem notAhead_blank_iff : CharSet.blank.NotAhead s ↔ ∀ c ∈ s.head?, ' ' < c := by
  simp [CharSet.NotAhead, CharSet.contains]

theorem endsSolid_iff : s.EndsSolid ↔ ∀ c ∈ s.getLast?, ' ' < c := by
  simp [EndsSolid, CharSet.contains]

theorem run_of_blank (hs : s.Blank) : CharSet.blank.run s = s := by
  have hrun := CharSet.run_append hs CharSet.notAhead_nil
  rwa [List.append_nil] at hrun

theorem trimmed_of_blank (hs : s.Blank) : s.trimmed = [] := by
  have htrimmed := trimmed_append hs CharSet.all_nil CharSet.notAhead_nil endsSolid_nil
  rwa [List.nil_append, List.append_nil] at htrimmed

/-- Unless there is nothing but blanks, those in front end where a piece stands that does not begin
with one. -/
theorem run_of_parts (hfront : front.Blank) (hbehind : behind.Blank)
    (hkept : CharSet.blank.NotAhead kept) (hne : ¬ (front ++ (kept ++ behind)).Blank) :
    CharSet.blank.run (front ++ (kept ++ behind)) = front := by
  apply CharSet.run_append hfront
  cases kept with
  | nil => exact absurd (CharSet.all_append.mpr ⟨hfront, hbehind⟩) hne
  | cons c kept => exact CharSet.notAhead_cons.mpr (CharSet.notAhead_cons.mp hkept)

theorem slice_append (h : slice s i j = .ok t) (k : slice s j n = .ok u) :
    slice s i n = .ok (t ++ u) := by
  obtain ⟨before, after, hs, hi, hj⟩ := slice_eq_ok_iff.mp h
  obtain ⟨front, behind, hs', hj', hn⟩ := slice_eq_ok_iff.mp k
  have hlen : byteLength (before ++ t) = byteLength front := by
    rw [byteLength_append]
    omega
  rw [List.append_assoc front] at hs'
  obtain ⟨-, rfl⟩ := append_inj_of_byteLength (hs.symm.trans hs') hlen
  apply slice_eq_ok_iff.mpr
  refine ⟨before, behind, ?_, hi, ?_⟩
  · simpa only [List.append_assoc] using hs
  · rw [byteLength_append]
    omega

end Text

attribute [ext] View

namespace View
variable {v w u : View} {s t r : Text} {len : Nat}

/-- The part of the view that is left when the blanks at its ends are dropped, which are the
characters up to the space. If the view has no other characters, its very end is left. -/
structure MaximalTrim (v w : View) : Prop where
  partOf : w.PartOf v
  front : ∃ t, slice v.source v.start w.start = .ok t ∧ ∀ c ∈ t, c ≤ ' '
  kept : ∃ t, w.text = .ok t ∧ (∀ c ∈ t.head?, ' ' < c) ∧ ∀ c ∈ t.getLast?, ' ' < c
  behind : ∃ t, slice v.source w.stop v.stop = .ok t ∧ ∀ c ∈ t, c ≤ ' '
  nothing : ∀ s, v.text = .ok s → (∀ c ∈ s, c ≤ ' ') → w.start = v.stop ∧ w.stop = v.stop

/-- The view is what is left of another one when a token is taken or a piece split off. -/
inductive Resumes (v : View) : View → Prop
  | take {len : Nat} {kind : TokenKind} {token : Token} {w : View} :
      v.take len kind = .ok (token, w) → Resumes v w
  | splitAt (len : Nat) : Resumes v (v.splitAt len).2

theorem maximalTrim_trimmed (h : v.text = .ok s) : v.MaximalTrim v.trimmed := by
  obtain ⟨front, behind, hfront, hblank, hbehind, hblank'⟩ := exists_dropped h
  have htext := text_trimmed h
  constructor
  · exact trimmed_partOf h
  · exact ⟨front, hfront, Text.blank_iff.mp hblank⟩
  · refine ⟨s.trimmed, htext, ?_, ?_⟩
    · exact Text.notAhead_blank_iff.mp (Text.notAhead_trimmed s)
    · exact Text.endsSolid_iff.mp (Text.endsSolid_trimmed s)
  · exact ⟨behind, hbehind, Text.blank_iff.mp hblank'⟩
  · intro s' hs' hall
    obtain rfl : s = s' := Except.ok.inj (h.symm.trans hs')
    have hs := Text.blank_iff.mpr hall
    have hstart := start_trimmed h
    have hstop := stop_eq htext
    rw [Text.run_of_blank hs, ← stop_eq h] at hstart
    rw [Text.trimmed_of_blank hs, Text.byteLength_nil, hstart] at hstop
    exact ⟨hstart, hstop⟩

/-- The text of the view is what is dropped in front, what is left and what is dropped behind. -/
theorem MaximalTrim.exists_parts (hw : v.MaximalTrim w) (h : v.text = .ok s) :
    ∃ front kept behind, s = front ++ (kept ++ behind) ∧ front.Blank ∧ behind.Blank ∧
      w.start = v.start + byteLength front ∧ w.stop = w.start + byteLength kept ∧
      CharSet.blank.NotAhead kept ∧ kept.EndsSolid := by
  obtain ⟨front, hfront, hblank⟩ := hw.front
  obtain ⟨kept, hkept, hhead, hlast⟩ := hw.kept
  obtain ⟨behind, hbehind, hblank'⟩ := hw.behind
  have hstop := stop_eq hkept
  unfold text at h hkept
  rw [hw.partOf.source] at hkept
  have hs := Text.slice_append hfront (Text.slice_append hkept hbehind)
  obtain ⟨-, -, -, -, hstart⟩ := Text.slice_eq_ok_iff.mp hfront
  exact ⟨front, kept, behind, Except.ok.inj (h.symm.trans hs), Text.blank_iff.mpr hblank,
    Text.blank_iff.mpr hblank', hstart.symm, hstop, Text.notAhead_blank_iff.mpr hhead,
    Text.endsSolid_iff.mpr hlast⟩

/-- Where there is more than blanks, the first character that is none settles the start, and what is
left of the text then settles the stop. -/
theorem MaximalTrim.eq_trimmed (hw : v.MaximalTrim w) (h : v.text = .ok s) : w = v.trimmed := by
  have hends : w.start = v.trimmed.start ∧ w.stop = v.trimmed.stop := by
    by_cases hs : s.Blank
    · have hall := Text.blank_iff.mp hs
      obtain ⟨hstart, hstop⟩ := hw.nothing s h hall
      obtain ⟨hstart', hstop'⟩ := (maximalTrim_trimmed h).nothing s h hall
      exact ⟨hstart.trans hstart'.symm, hstop.trans hstop'.symm⟩
    · obtain ⟨front, kept, behind, rfl, hfront, hbehind, hstart, hstop, hahead, hend⟩ :=
        hw.exists_parts h
      have hstart' := start_trimmed h
      have hstop' := stop_eq (text_trimmed h)
      rw [Text.run_of_parts hfront hbehind hahead hs, ← hstart] at hstart'
      rw [Text.trimmed_append hfront hbehind hahead hend, hstart', ← hstop] at hstop'
      exact ⟨hstart'.symm, hstop'.symm⟩
  exact View.ext hw.partOf.source hends.1 hends.2

theorem Resumes.keeps (h : v.Resumes w) :
    w.source = v.source ∧ v.start ≤ w.start ∧ w.stop = v.stop := by
  cases h with
  | take htake =>
    obtain ⟨piece, -, heq⟩ := exists_ok_of_map htake
    obtain ⟨-, rfl⟩ := Prod.mk.inj heq
    exact ⟨rfl, start_le_cut v _, rfl⟩
  | splitAt len => exact ⟨rfl, start_le_cut v len, rfl⟩

theorem keeps_of_resumed (h : Relation.ReflTransGen Resumes v w) :
    w.source = v.source ∧ v.start ≤ w.start ∧ w.stop = v.stop := by
  induction h with
  | refl => exact ⟨rfl, le_refl _, rfl⟩
  | tail _ hstep ih =>
    obtain ⟨hsource, hle, hstop⟩ := ih
    obtain ⟨hsource', hle', hstop'⟩ := hstep.keeps
    exact ⟨hsource'.trans hsource, hle.trans hle', hstop'.trans hstop⟩

theorem trimmed_back (h : v.text = .ok (t ++ r)) (ht : t.Blank) :
    (v.back r).trimmed = v.trimmed := by
  have hrun : CharSet.blank.run (t ++ r) = t ++ CharSet.blank.run r :=
    List.takeWhile_append_of_pos ht
  unfold trimmed
  rw [chars_eq (text_back h), chars_eq h, start_back h, hrun, CharSet.afterRun_append ht,
    Text.byteLength_append, Nat.add_assoc]
  rfl

/-- As long as only blanks have been removed in front, the view is trimmed to the same. -/
theorem trimmed_of_resumed (h : v.text = .ok s) (hu : Relation.ReflTransGen Resumes v u)
    (hle : u.start ≤ v.trimmed.start) : ∃ r, u.text = .ok r ∧ u.trimmed = v.trimmed := by
  obtain ⟨hsource, hge, hstop⟩ := keeps_of_resumed hu
  rw [start_trimmed h] at hle
  have hs := CharSet.run_append_afterRun .blank s
  have hrun := CharSet.all_run .blank s
  have hoffset : u.start - v.start ≤ byteLength (CharSet.blank.run s) := by omega
  obtain ⟨a, b, hab, hlen⟩ := Text.exists_split_of_blank hrun hoffset
  rw [hab] at hrun hs
  rw [← hs, List.append_assoc] at h
  have hback : u = v.back (b ++ CharSet.blank.afterRun s) := by
    refine View.ext hsource ?_ hstop
    rw [start_back h]
    omega
  rw [hback]
  exact ⟨_, text_back h, trimmed_back h (CharSet.all_append.mp hrun).1⟩

/-- A piece of blanks in front is there for the taking. -/
theorem exists_take_of_resumed (h : v.text = .ok s) (hu : Relation.ReflTransGen Resumes v u)
    (hcut : u.cut len ≤ v.trimmed.start) (kind : TokenKind) :
    ∃ t, u.take len kind = .ok (t, (u.splitAt len).2) := by
  have hle : u.start ≤ v.trimmed.start := (start_le_cut u len).trans hcut
  obtain ⟨r, hr, -⟩ := trimmed_of_resumed h hu hle
  obtain ⟨r', hr', -⟩ := trimmed_of_resumed h (hu.tail (.splitAt len)) hcut
  have hpiece := (aligned_splitAt (Aligned.of_text hr) (Aligned.of_text hr').1).1
  obtain ⟨piece, htext⟩ := (exists_text_iff (start_le_cut u len)).mpr hpiece
  refine ⟨⟨kind, piece, ⟨u.start, u.cut len⟩⟩, ?_⟩
  rw [take, htext]
  rfl

/-- What trimming makes of a view. -/
structure TrimsTo (v w : View) : Prop where
  trim_eq : v.trim = .ok w
  maximal : v.MaximalTrim w
  unique : ∀ u, v.MaximalTrim u → u = w
  /-- The two steps, in which no number is taken from a smaller one. -/
  checked : Checked.trim v.source v = pure w
  aligned : w.Aligned
  again : w.trim = .ok w
  /-- Blanks in front may be taken or split off before, at once or bit by bit. -/
  resumed : ∀ u, Relation.ReflTransGen Resumes v u → u.start ≤ w.start → u.trim = .ok w ∧
    ∀ len, u.cut len ≤ w.start → ∀ kind, ∃ t, u.take len kind = .ok (t, (u.splitAt len).2)

/-- An aligned view is trimmed to the only part that is left of it when all blanks at its ends are
dropped and nothing else is, whatever has been removed of the blanks in front before. -/
theorem trims_to_maximal (v : View) (hle : v.start ≤ v.stop) (hv : v.Aligned) :
    ∃ w, v.TrimsTo w := by
  obtain ⟨s, hs⟩ := (exists_text_iff hle).mpr hv
  have htext := text_trimmed hs
  refine ⟨v.trimmed, trim_eq hs, maximalTrim_trimmed hs, ?_, Checked.trim_eq rfl hs,
    Aligned.of_text htext, ?_, ?_⟩
  · exact fun u hu => hu.eq_trimmed hs
  · rw [trim_eq htext, trimmed_trimmed hs]
  · intro u hu hstart
    obtain ⟨r, hr, htrimmed⟩ := trimmed_of_resumed hs hu hstart
    refine ⟨?_, fun len hcut kind => exists_take_of_resumed hs hu hcut kind⟩
    rw [trim_eq hr, htrimmed]

/-- Wide characters at both ends, among them two spaces that are no blanks. -/
theorem trims_to_maximal_of_wide_spaces :
    let v : View := ⟨"(é 	 b 
 )".toList, 3, 13⟩
    v.start ≤ v.stop ∧ v.Aligned ∧ v.trim = .ok ⟨v.source, 5, 11⟩ ∧ ∃ w, v.TrimsTo w := by
  intro v
  have hle : v.start ≤ v.stop := by decide
  have hv : v.Aligned := ⟨by decide +kernel, by decide +kernel⟩
  refine ⟨hle, hv, ?_, trims_to_maximal v hle hv⟩
  decide +kernel

end View

end ArithGrammar
