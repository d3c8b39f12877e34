import ArithGrammar.Text

/-!
# Lines of an input

A line ends at a line feed, which takes one carriage return right before it along. The last line
may have no end; it then keeps whatever it ends with, and is there only if it is not empty.
-/
namespace ArithGrammar.InputLines

def consFirst (c : Char) : List Text → List Text
  | [] => [[c]]
  | line :: rest => (c :: line) :: rest

/-- The lines of a text without their ends. -/
def lines : Text → List Text
  | [] => []
  | c :: cs =>
      if c = '\n' then [] :: lines cs
      else if c = '\r' ∧ cs.head? = some '\n' then lines cs
      else consFirst c (lines cs)

/-- The lines before the first empty one. -/
def untilEmpty (s : Text) : List Text := (lines s).takeWhile (!·.isEmpty)

@[simp] theorem lines_nil : lines [] = [] := rfl

@[simp] theorem lines_lineFeed (cs : Text) : lines ('\n' :: cs) = [] :: lines cs := by
  simp [lines]

theorem mem_of_mem_consFirst {c d : Char} {lines : List Text} {line : Text}
    (h : line ∈ consFirst c lines) (hd : d ∈ line) : d = c ∨ ∃ l ∈ lines, d ∈ l := by
  cases lines with
  | nil =>
    obtain rfl : line = [c] := by simpa [consFirst] using h
    exact .inl (List.mem_singleton.mp hd)
  | cons first rest =>
    rcases List.mem_cons.mp h with rfl | h
    · rcases List.mem_cons.mp hd with rfl | hd
      · exact .inl rfl
      · exact .inr ⟨first, List.mem_cons_self, hd⟩
    · exact .inr ⟨line, List.mem_cons_of_mem first h, hd⟩

theorem mem_of_mem_line {s line : Text} {d : Char} (h : line ∈ lines s) (hd : d ∈ line) :
    d ∈ s := by
  induction s generalizing line with
  | nil => cases h
  | cons c cs ih =>
    rw [lines] at h
    split at h
    · rcases List.mem_cons.mp h with rfl | h
      · cases hd
      · exact List.mem_cons_of_mem c (ih h hd)
    · split at h
      · exact List.mem_cons_of_mem c (ih h hd)
      · rcases mem_of_mem_consFirst h hd with rfl | ⟨l, hl, hd⟩
        · exact List.mem_cons_self
        · exact List.mem_cons_of_mem c (ih hl hd)

end ArithGrammar.InputLines
