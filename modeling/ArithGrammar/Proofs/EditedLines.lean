import ArithGrammar.Proofs.LineSplitting
import Mathlib.Data.List.TakeWhile

/-!
# What is left of a line after editing

A backspace is a grapheme cluster of its own, since nothing joins a control character. So editing
takes every backspace out of a line and puts nothing in (`LineEditing.mem_of_mem_edited`). What a
session has read can therefore be read again: lines that are written one below the other are the
lines of the session that reads them (`LinesRead.ofInput_flatMap`).
-/
namespace ArithGrammar

namespace Grapheme
open GraphemeClass

theorem joins_of_control {before : List GraphemeClass} {next : GraphemeClass}
    (h : before.head? = some control ∨ next = control) : joins before next = false := by
  cases before with
  | nil => rfl
  | cons last before =>
      rw [List.head?_cons, Option.some.injEq] at h
      rcases h with rfl | rfl
      · rfl
      · cases last <;> rfl

theorem eq_singleton_of_mem_clustersFrom {start s g : Text} {before : List GraphemeClass} {c : Char}
    (hc : ofChar c = control) (hbefore : before.head? = start.head?.map ofChar)
    (hstart : c ∈ start → start = [c]) (hg : g ∈ clustersFrom start before s) (hmem : c ∈ g) :
    g = [c] := by
  induction s generalizing start before with
  | nil =>
      obtain rfl : g = start.reverse := List.mem_singleton.mp hg
      rw [hstart (List.mem_reverse.mp hmem)]
      rfl
  | cons d s ih =>
      have hsingle : c ∈ [d] → [d] = [c] := by
        intro h
        rw [List.mem_singleton.mp h]
      rw [clustersFrom] at hg
      cases hjoins : joins before (ofChar d) with
      | true =>
          refine ih rfl (fun h => ?_) (by simpa only [hjoins, if_true] using hg)
          have hcontrol : before.head? = some control ∨ ofChar d = control := by
            rcases List.mem_cons.mp h with rfl | h
            · exact .inr hc
            · rw [hbefore, hstart h]
              exact .inl (congrArg some hc)
          rw [joins_of_control hcontrol] at hjoins
          cases hjoins
      | false =>
          simp only [hjoins, Bool.false_eq_true, if_false] at hg
          rcases List.mem_cons.mp hg with rfl | hg
          · rw [hstart (List.mem_reverse.mp hmem)]
            rfl
          · exact ih rfl hsingle hg

theorem eq_singleton_of_mem_clusters {s g : Text} {c : Char} (hc : ofChar c = control)
    (hg : g ∈ clusters s) (hmem : c ∈ g) : g = [c] := by
  cases s with
  | nil => cases hg
  | cons d s =>
      refine eq_singleton_of_mem_clustersFrom hc rfl (fun h => ?_) hg hmem
      rw [List.mem_singleton.mp h]

end Grapheme

namespace LineEditing

theorem subset_of_dropBytes? {s t : Text} {n : Nat} (h : Text.dropBytes? s n = some t) : t ⊆ s := by
  obtain ⟨before, rfl, -⟩ := Text.dropBytes?_eq_some_iff.mp h
  exact List.subset_append_right before t

/-- A backspace takes characters back, and any other cluster adds its own. -/
theorem mem_of_mem_put? {d d' : Draft} {cluster : Text} {c : Char} (h : d.put? cluster = some d')
    (hmem : c ∈ d'.backwards) : c ∈ d.backwards ∨ cluster ≠ [backspace] ∧ c ∈ cluster := by
  rw [Draft.put?] at h
  split_ifs at h with hcluster
  · left
    rw [Draft.takeBack?] at h
    split at h
    · rwa [Option.some.inj h]
    · obtain ⟨rest, hrest, rfl⟩ := Option.map_eq_some_iff.mp h
      exact subset_of_dropBytes? hrest hmem
  · rw [← Option.some.inj h, Draft.add] at hmem
    rcases List.mem_append.mp hmem with hmem | hmem
    · exact .inr ⟨hcluster, List.mem_reverse.mp hmem⟩
    · exact .inl hmem

theorem mem_of_mem_foldlM_put? {clusters : List Text} {d d' : Draft} {c : Char}
    (h : clusters.foldlM Draft.put? d = some d') (hmem : c ∈ d'.backwards) :
    c ∈ d.backwards ∨ ∃ g ∈ clusters, g ≠ [backspace] ∧ c ∈ g := by
  induction clusters generalizing d with
  | nil =>
      obtain rfl : d = d' := Option.some.inj h
      exact .inl hmem
  | cons g clusters ih =>
      rw [List.foldlM_cons] at h
      obtain ⟨d₁, hput, hrest⟩ := Option.bind_eq_some_iff.mp h
      rcases ih hrest with hmem | ⟨g', hg', hne⟩
      · rcases mem_of_mem_put? hput hmem with hmem | hnew
        · exact .inl hmem
        · exact .inr ⟨g, List.mem_cons_self, hnew⟩
      · exact .inr ⟨g', List.mem_cons_of_mem g hg', hne⟩

/-- What is left of a line was in it, and no backspace is left. -/
theorem mem_of_mem_edited {line text : Text} {c : Char} (h : edited? line = some text)
    (hmem : c ∈ text) : c ∈ line ∧ c ≠ backspace := by
  obtain ⟨d, hd, rfl⟩ := Option.map_eq_some_iff.mp h
  rcases mem_of_mem_foldlM_put? hd (List.mem_reverse.mp hmem) with hmem | ⟨g, hg, hne, hmem⟩
  · cases hmem
  · constructor
    · rw [← Grapheme.flatten_clusters line]
      exact List.mem_flatten.mpr ⟨g, hg, hmem⟩
    · rintro rfl
      exact hne (Grapheme.eq_singleton_of_mem_clusters (by decide +kernel) hg hmem)

end LineEditing

namespace InputLines

theorem not_mem_consFirst {c d : Char} {ls : List Text} {line : Text} (hd : d ≠ c)
    (hls : ∀ l ∈ ls, d ∉ l) (h : line ∈ consFirst c ls) : d ∉ line := by
  intro hmem
  rcases mem_of_mem_consFirst h hmem with heq | ⟨l, hl, hmem⟩
  · exact hd heq
  · exact hls l hl hmem

theorem lineFeed_not_mem {s line : Text} (h : line ∈ lines s) : '\n' ∉ line := by
  induction s generalizing line with
  | nil => cases h
  | cons c s ih =>
      rw [lines] at h
      split_ifs at h with hfeed
      · rcases List.mem_cons.mp h with rfl | h
        · exact List.not_mem_nil
        · exact ih h
      · exact ih h
      · exact not_mem_consFirst (Ne.symm hfeed) (fun l hl => ih hl) h

end InputLines

namespace LinesRead
variable {ls : List Text} {line : Text}

theorem mem_ofLines (h : line ∈ (ofLines ls).lines) :
    line ≠ [] ∧ ∃ l ∈ ls, LineEditing.edited? l = some line := by
  obtain ⟨rest, hmap, hne, -⟩ := exists_map_edited ls
  have hmem : some line ∈ ls.map LineEditing.edited? := by
    rw [hmap]
    exact List.mem_append_left rest (List.mem_map_of_mem h)
  exact ⟨ne_of_mem_of_not_mem h hne, List.mem_map.mp hmem⟩

theorem mem_ofInput {input : Text} (h : line ∈ (ofInput input).lines) :
    line ≠ [] ∧ '\n' ∉ line ∧ LineEditing.backspace ∉ line := by
  obtain ⟨hne, l, hl, hedited⟩ := mem_ofLines h
  refine ⟨hne, fun hmem => ?_, fun hmem => ?_⟩
  · exact InputLines.lineFeed_not_mem hl (LineEditing.mem_of_mem_edited hedited hmem).1
  · exact (LineEditing.mem_of_mem_edited hedited hmem).2 rfl

/-- Lines that were read are read again where they are written one below the other, unless a
carriage return at the end of one would be taken for a part of its end. -/
theorem ofInput_flatMap
    (h : ∀ line ∈ ls, line ≠ [] ∧ '\n' ∉ line ∧ LineEditing.backspace ∉ line)
    (hreturn : ∀ line ∈ ls, line.getLast? ≠ some '\r') :
    ofInput (ls.flatMap (· ++ ['\n'])) = ⟨ls, false⟩ := by
  rw [ofInput, InputLines.lines_flatMap fun line hl => ⟨(h line hl).2.1, hreturn line hl⟩,
    ofLines_of_edited fun line hl => LineEditing.edited_of_not_mem
      (h line ((List.takeWhile_prefix _).subset hl)).2.2, List.takeWhile_eq_self_iff.mpr]
  intro line hl
  simpa using (h line hl).1

end LinesRead

end ArithGrammar
