import ArithGrammar.Grapheme

/-!
# Editing of a line

A backspace in a line that is read takes back the grapheme cluster before it. What it takes back
is measured in bytes, and a cluster's size is noted in a single byte, so of a cluster with 256
bytes or more only the remainder is taken back. The line cannot be edited when that would cut a
character in two. A line without a backspace stays as it is (`edited_of_not_mem`).
-/
namespace ArithGrammar.LineEditing

def backspace : Char := '\x08'

/-- A line under way: what there is of it, backwards, and the noted sizes of the clusters that can
be taken back, the last one first. -/
structure Draft where
  backwards : Text
  sizes : List UInt8
  deriving DecidableEq, Repr

namespace Draft

def start : Draft := ⟨[], []⟩

def text (d : Draft) : Text := d.backwards.reverse

def add (d : Draft) (cluster : Text) : Draft :=
  ⟨cluster.reverse ++ d.backwards, UInt8.ofNat (Text.byteLength cluster) :: d.sizes⟩

/-- Takes back as many bytes as were noted for the last cluster, if there is one. -/
def takeBack? (d : Draft) : Option Draft :=
  match d.sizes with
  | [] => some d
  | size :: sizes => (Text.dropBytes? d.backwards size.toNat).map fun rest => ⟨rest, sizes⟩

def put? (d : Draft) (cluster : Text) : Option Draft :=
  if cluster = [backspace] then d.takeBack? else some (d.add cluster)

@[simp] theorem text_start : start.text = [] := rfl

@[simp] theorem text_add (d : Draft) (cluster : Text) : (d.add cluster).text = d.text ++ cluster := by
  simp [add, text]

end Draft

/-- What a line is after all its backspaces, if it can be edited. -/
def edited? (line : Text) : Option Text :=
  ((Grapheme.clusters line).foldlM Draft.put? Draft.start).map Draft.text

theorem foldlM_put? {clusters : List Text} (h : [backspace] ∉ clusters) (d : Draft) :
    (clusters.foldlM Draft.put? d).map Draft.text = some (d.text ++ clusters.flatten) := by
  induction clusters generalizing d with
  | nil => simp
  | cons g gs ih =>
    rw [List.mem_cons, not_or] at h
    have hput : d.put? g = some (d.add g) := if_neg (Ne.symm h.1)
    simp [List.foldlM_cons, hput, ih h.2]

theorem edited_of_not_mem {line : Text} (h : backspace ∉ line) : edited? line = some line := by
  have hc : [backspace] ∉ Grapheme.clusters line := by
    intro hm
    apply h
    rw [← Grapheme.flatten_clusters line]
    exact List.mem_flatten.mpr ⟨[backspace], hm, List.mem_singleton.mpr rfl⟩
  simpa [edited?] using foldlM_put? hc Draft.start

end ArithGrammar.LineEditing
