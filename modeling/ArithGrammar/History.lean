import ArithGrammar.InputLines

/-!
# The history of the lines read

A history is a list of entries, none of them empty and no two neighbours equal, of which the last
`capacity` are kept. Its file has one entry a line below a line that names the format, with each
backslash doubled and each line feed spelled out; a file without that first line has its entries
as they are.
-/
namespace ArithGrammar.History

def fileName : Text := ".exprcheck_history".toList

/-- Entries that are kept at most. -/
def capacity : Nat := 100

/-- Whether the line becomes an entry behind those given. -/
def isNew (entries : List Text) (line : Text) : Bool :=
  !line.isEmpty && decide (entries.getLast? ≠ some line)

def add (entries : List Text) (line : Text) : List Text :=
  if isNew entries line then
    (entries ++ [line]).drop (entries.length + 1 - capacity)
  else entries

/-- The first line of a file whose entries are escaped. -/
def header : Text := "#V2".toList

def escape (entry : Text) : Text :=
  entry.flatMap fun c =>
    if c = '\\' then ['\\', '\\'] else if c = '\n' then ['\\', 'n'] else [c]

/-- The entry that a line of the file stands for, unless a backslash in it means nothing. -/
def unescape? : Text → Option Text
  | [] => some []
  | '\\' :: '\\' :: cs => (unescape? cs).map ('\\' :: ·)
  | '\\' :: 'n' :: cs => (unescape? cs).map ('\n' :: ·)
  | c :: cs => if c = '\\' then none else (unescape? cs).map (c :: ·)

/-- A line with a backslash that means nothing is taken as it is. -/
def unescape (line : Text) : Text := (unescape? line).getD line

def ofFile (file : Text) : List Text :=
  match InputLines.lines file with
  | [] => []
  | first :: rest =>
      if first = header then (rest.map unescape).foldl add []
      else (first :: rest).foldl add []

/-- The lines of a file that have a backslash which means nothing. -/
def badLines (file : Text) : List Text :=
  match InputLines.lines file with
  | [] => []
  | first :: rest => if first = header then rest.filter fun l => (unescape? l).isNone else []

def toFile (entries : List Text) : Text :=
  (header :: entries.map escape).flatMap (· ++ ['\n'])

/-- The file after a session that read the given lines. It is written only if one of them was
added to the entries. -/
def afterSession (file? : Option Text) (lines : List Text) : Option Text :=
  let entries := file?.elim [] ofFile
  if lines.any (isNew entries) then some (toFile (lines.foldl add entries)) else file?

theorem add_of_not_isNew {entries : List Text} {line : Text} (h : isNew entries line = false) :
    add entries line = entries := by
  simp [add, h]

end ArithGrammar.History
