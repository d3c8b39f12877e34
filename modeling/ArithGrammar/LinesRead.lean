import ArithGrammar.InputLines
import ArithGrammar.LineEditing

/-!
# The lines that a session reads

A session reads the lines of an input, each of them edited, up to the first one that is empty. A
line that cannot be edited breaks it off.
-/
namespace ArithGrammar

structure LinesRead where
  lines : List Text
  brokenOff : Bool
  deriving DecidableEq, Repr

namespace LinesRead

def ofLines : List Text → LinesRead
  | [] => ⟨[], false⟩
  | line :: rest =>
      match LineEditing.edited? line with
      | none => ⟨[], true⟩
      | some [] => ⟨[], false⟩
      | some (c :: cs) => ⟨(c :: cs) :: (ofLines rest).lines, (ofLines rest).brokenOff⟩

def ofInput (input : Text) : LinesRead := ofLines (InputLines.lines input)

end LinesRead

end ArithGrammar
