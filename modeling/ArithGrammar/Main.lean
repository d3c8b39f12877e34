import ArithGrammar.Command

/-!
# The program

Gathers what a run of the command depends on, runs it, and gives out what the run leaves.
-/
namespace ArithGrammar.Command

/-- The place of the history, unless there is no home directory. -/
def historyPath? : IO (Option String) := do
  return ((← IO.getEnv "HOME").filter (· ≠ "")).map fun home =>
    home ++ "/" ++ String.ofList History.fileName

def readHistory (path? : Option String) : IO (Option Text) := do
  match path? with
  | none => return none
  | some path =>
    try
      return some (← IO.FS.readFile path).toList
    catch _ =>
      return none

end ArithGrammar.Command

open ArithGrammar

def main (arguments : List String) : IO UInt32 := do
  let arguments := arguments.map String.toList
  let path? ← Command.historyPath?
  let history ← Command.readHistory path?
  let input ← if Command.readsInput arguments then (← IO.getStdin).readToEnd else pure ""
  let completion := Command.run {
    arguments
    input := input.toList
    terminal := ((← IO.getEnv "TERM").getD "").toList
    filter := ((← IO.getEnv "RUST_LOG").getD "").toList
    history
    historyPath := path?.map String.toList }
  for line in completion.complaintLines ++ completion.recordLines.map ('[' :: ·) ++
      completion.usageLines do
    IO.eprintln (String.ofList line)
  IO.print (String.ofList completion.output)
  if completion.history ≠ history then
    if let (some path, some file) := (path?, completion.history) then
      IO.FS.writeFile path (String.ofList file)
  return completion.status.toUInt32
