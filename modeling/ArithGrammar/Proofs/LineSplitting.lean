import ArithGrammar.LinesRead
import Mathlib.Tactic.SplitIfs

/-!
# Texts as their lines

A line feed cuts the lines of a text: those in front of it are not changed by what comes behind
(`lines_append`). So a text that is put together from lines, each with its line feed, is taken apart
into the same lines again (`lines_flatMap`), and what a session reads is settled by the lines up to
the first one that ends it (`LinesRead.exists_map_edited`).
-/
namespace ArithGrammar

namespace InputLines
variable {s t line : Text} {ls : List Text} {c : Char}

theorem consFirst_append (h : ls ≠ []) (c : Char) (more : List Text) :
    consFirst c (ls ++ more) = consFirst c ls ++ more := by
  cases ls with
  | nil => exact absurd rfl h
  | cons line ls => rfl

theorem lines_ended_ne_nil (s : Text) : lines (s ++ ['\n']) ≠ [] := by
  induction s with
  | nil => simp
  | cons c s ih =>
      rw [List.cons_append, lines]
      split_ifs
      · exact List.cons_ne_nil _ _
      · exact ih
      · cases h : lines (s ++ ['\n']) with
        | nil => exact absurd h ih
        | cons line ls => exact List.cons_ne_nil _ _

/-- What comes behind a line feed does not change the lines in front of it. -/
theorem lines_append (s t : Text) : lines (s ++ '\n' :: t) = lines (s ++ ['\n']) ++ lines t := by
  induction s with
  | nil => simp
  | cons c s ih =>
      have hhead : (s ++ '\n' :: t).head? = (s ++ ['\n']).head? := by
        cases s <;> rfl
      rw [List.cons_append, List.cons_append, lines, lines, hhead, ih]
      split_ifs
      · rfl
      · rfl
      · exact consFirst_append (lines_ended_ne_nil s) c (lines t)

theorem lines_ended (hfeed : '\n' ∉ line) (hlast : line.getLast? ≠ some '\r') :
    lines (line ++ ['\n']) = [line] := by
  induction line with
  | nil => rfl
  | cons c line ih =>
      obtain ⟨hc, hrest⟩ := not_or.mp (mt List.mem_cons.mpr hfeed)
      have hreturn : ¬ (c = '\r' ∧ (line ++ ['\n']).head? = some '\n') := by
        rintro ⟨rfl, hhead⟩
        cases line with
        | nil => exact hlast rfl
        | cons d line =>
            obtain rfl : d = '\n' := Option.some.inj hhead
            exact hrest List.mem_cons_self
      have hlast' : line.getLast? ≠ some '\r' := by
        intro h
        apply hlast
        rw [List.getLast?_cons, h, Option.getD_some]
      rw [List.cons_append, lines, if_neg (Ne.symm hc), if_neg hreturn, ih hrest hlast']
      rfl

/-- Lines that are written with their line feeds are read again. -/
theorem lines_flatMap (h : ∀ line ∈ ls, '\n' ∉ line ∧ line.getLast? ≠ some '\r') :
    lines (ls.flatMap (· ++ ['\n'])) = ls := by
  induction ls with
  | nil => rfl
  | cons line ls ih =>
      obtain ⟨⟨hfeed, hlast⟩, hls⟩ := List.forall_mem_cons.mp h
      rw [List.flatMap_cons, List.append_assoc, List.singleton_append, lines_append,
        lines_ended hfeed hlast, ih hls, List.singleton_append]

end InputLines

namespace LinesRead

/-- The lines that are read stand in front of the first one of which editing leaves nothing, or
which it breaks off at. -/
theorem exists_map_edited (ls : List Text) : ∃ rest,
    ls.map LineEditing.edited? = (ofLines ls).lines.map some ++ rest ∧ [] ∉ (ofLines ls).lines ∧
      (∀ left ∈ rest.head?, left = some [] ∨ left = none) ∧
      ((ofLines ls).brokenOff = true ↔ rest.head? = some none) := by
  induction ls with
  | nil => exact ⟨[], rfl, List.not_mem_nil, nofun, iff_of_false Bool.false_ne_true nofun⟩
  | cons line ls ih =>
      rw [List.map_cons, ofLines]
      cases hedited : LineEditing.edited? line with
      | none =>
          refine ⟨none :: ls.map LineEditing.edited?, rfl, List.not_mem_nil, ?_, iff_of_true rfl rfl⟩
          rintro left ⟨⟩
          exact .inr rfl
      | some text =>
          cases text with
          | nil =>
              refine ⟨some [] :: ls.map LineEditing.edited?, rfl, List.not_mem_nil, ?_,
                iff_of_false Bool.false_ne_true nofun⟩
              rintro left ⟨⟩
              exact .inl rfl
          | cons c cs =>
              obtain ⟨rest, hmap, hne, hhead, hbroken⟩ := ih
              refine ⟨rest, ?_, ?_, hhead, hbroken⟩
              · rw [hmap, List.map_cons, List.cons_append]
              · exact List.not_mem_cons_of_ne_of_not_mem (List.cons_ne_nil c cs).symm hne

/-- A line that a backspace leaves nothing of ends the session. -/
example : ofInput "12\x08\n3\x08\n4\n".toList = ⟨["1".toList], false⟩ := by decide +kernel

/-- Nothing is read behind a line that ends the session. -/
theorem ofLines_append {ls : List Text} (h : ∃ line ∈ ls,
      LineEditing.edited? line = some [] ∨ LineEditing.edited? line = none) (more : List Text) :
    ofLines (ls ++ more) = ofLines ls := by
  obtain ⟨last, hlast, hends⟩ := h
  induction ls with
  | nil => cases hlast
  | cons line ls ih =>
      rw [List.cons_append, ofLines, ofLines]
      rcases List.mem_cons.mp hlast with rfl | hlast
      · rcases hends with hends | hends <;> rw [hends]
      · rw [ih hlast]

theorem ofLines_of_edited {ls : List Text}
    (h : ∀ line ∈ ls.takeWhile (!·.isEmpty), LineEditing.edited? line = some line) :
    ofLines ls = ⟨ls.takeWhile (!·.isEmpty), false⟩ := by
  induction ls with
  | nil => rfl
  | cons line ls ih =>
      cases line with
      | nil => rfl
      | cons c cs =>
          rw [List.takeWhile_cons_of_pos (by rfl), List.forall_mem_cons] at h
          rw [ofLines, h.1, ih h.2, List.takeWhile_cons_of_pos (by rfl)]

end LinesRead

end ArithGrammar
