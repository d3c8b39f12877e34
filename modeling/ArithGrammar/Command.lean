import ArithGrammar.Account
import ArithGrammar.Arguments
import ArithGrammar.History
import ArithGrammar.LinesRead
import ArithGrammar.LogFilter

/-!
# The command

The command checks the expressions among its arguments, or the lines that it reads from its input
if there are none. Each is reported on the output in turn. With arguments the exit status tells
whether all of them were valid, and with lines the history is brought up to date, unless a line
breaks the session off.
-/
namespace ArithGrammar

/-- What a run of the command depends on. The log filter is a text that writes one. The history has
a place if there is a home directory, and is there if it has a file. -/
structure Environment where
  arguments : List Text
  input : Text
  terminal : Text
  filter : Text
  history : Option Text
  historyPath : Option Text
  deriving DecidableEq, Repr

/-- What a run of the command leaves. The history is kept in its place, if it has one. -/
structure Completion where
  status : Nat
  output : Text
  complaints : List FilterComplaint
  usageError : Option UsageError
  log : List Record
  history : Option Text
  deriving DecidableEq, Repr

namespace Completion

def complaintLines (c : Completion) : List Text :=
  InputLines.lines (c.complaints.flatMap FilterComplaint.shown)

def recordLines (c : Completion) : List Text :=
  c.log.map fun r => ControlSequence.visible r.column

def usageLines (c : Completion) : List Text :=
  c.usageError.elim [] fun e => InputLines.lines e.message

def errorLines (c : Completion) : List Text := c.complaintLines ++ c.recordLines ++ c.usageLines

end Completion

namespace Command

def name : Text := "exprcheck".toList

def help : Text :=
  ["Checks whether lines of input are valid arithmetic expressions",
    "",
    "Usage: exprcheck [OPTIONS] [EXPRS]...",
    "",
    "Arguments:",
    "  [EXPRS]...  Expressions to check, prompts for them interactively if none given",
    "",
    "Options:",
    "  -t, --tokens                 Print the tokens consumed while checking each expression",
    "      --max-depth <MAX_DEPTH>  How deep parentheses and unary minus chains may nest, " ++
      "at most 256 [default: 256]",
    "      --no-history             Don't load or save ~/.exprcheck_history",
    "  -h, --help                   Print help",
    "  -V, --version                Print version"].flatMap fun line => line.toList ++ ['\n']

def version : Text := name ++ " 1.0.0\n".toList

def prompt : Text := "Enter expression: ".toList

/-- The report on one expression: a line with the verdict, and one with the tokens if wanted. -/
def report (tokens : Bool) (limit : NestingLimit) (expression : Text) : Text :=
  let v := Verdict.evaluate limit expression
  ['\x22'] ++ expression ++
    (if v.valid then "\" is a valid expression\n".toList
      else "\" is not a valid expression.\n".toList) ++
    if tokens then "Tokens: ".toList ++ Token.display v.tokens ++ ['\n'] else []

/-- The warning that a greater depth was asked for than there is. -/
def warnings (maxDepth : Nat) : List Record :=
  if maxNesting < maxDepth then
    [⟨.warn, name, "--max-depth ".toList ++ Text.ofNat maxDepth ++ " lowered to ".toList ++
      Text.ofNat maxNesting⟩]
  else []

/-- The records on an expression that a filter lets through. -/
def accountOf (filter : LogFilter) (limit : NestingLimit) (expression : Text) : List Record :=
  (account (·.within (filter.most recognitionTarget)) limit expression).filter filter.fits

/-- The terminals without the abilities that editing a line needs. -/
def plainTerminals : List Text := ["dumb".toList, "cons25".toList, "emacs".toList]

/-- Whether input is prompted for, which plain terminals need. -/
def prompts (terminal : Text) : Bool := plainTerminals.contains (terminal.map Char.toLower)

def lineTarget : Text := "rustyline".toList

def lineRecord (terminal : Text) : Record :=
  ⟨.debug, lineTarget,
    if prompts terminal then "unsupported terminal".toList else "stdin is not a tty".toList⟩

def historyRecords : Option Text → Option Text → List Record
  | none, _ => []
  | some path, none => [⟨.info, name, "no history at ".toList ++ path⟩]
  | some _, some file =>
      (History.badLines file).map fun line =>
        ⟨.warn, lineTarget, "bad escaped line: ".toList ++ line⟩

def oneShot (options : Options) (e : Environment) : Completion :=
  let limit := NestingLimit.ofNat options.maxDepth
  let filter := LogFilter.ofText e.filter
  { status :=
      if options.expressions.all fun x => (Verdict.evaluate limit x).valid then 0 else 1
    output := options.expressions.flatMap (report options.tokens limit)
    complaints := LogFilter.complaints e.filter
    usageError := none
    log :=
      (warnings options.maxDepth).filter filter.passes ++
        options.expressions.flatMap (accountOf filter limit)
    history := e.history }

/-- Checks the lines of the input. A session that is broken off ends with a status of its own and
leaves the history as it was. -/
def interactive (options : Options) (e : Environment) : Completion :=
  let limit := NestingLimit.ofNat options.maxDepth
  let filter := LogFilter.ofText e.filter
  let read := LinesRead.ofInput e.input
  let ask := if prompts e.terminal then prompt else []
  let loading := if options.noHistory then [] else historyRecords e.historyPath e.history
  let reading := [lineRecord e.terminal].filter filter.passes
  { status := if read.brokenOff then 101 else 0
    output := (read.lines.flatMap fun x => ask ++ report options.tokens limit x) ++ ask
    complaints := LogFilter.complaints e.filter
    usageError := none
    log :=
      (warnings options.maxDepth ++ loading).filter filter.passes ++
        (read.lines.flatMap fun x => reading ++ accountOf filter limit x) ++ reading
    history :=
      if options.noHistory || read.brokenOff then e.history
      else History.afterSession e.history read.lines }

/-- Ends a run that checks nothing. -/
def stop (e : Environment) (status : Nat) (output : Text) (error : Option UsageError) :
    Completion :=
  ⟨status, output, LogFilter.complaints e.filter, error, [], e.history⟩

def run (e : Environment) : Completion :=
  match Request.ofArguments e.arguments with
  | .error error => stop e 2 [] (some error)
  | .ok .help => stop e 0 help none
  | .ok .version => stop e 0 version none
  | .ok (.check options) =>
      if options.expressions.isEmpty then interactive options e else oneShot options e

/-- Whether the run takes its expressions from the input. -/
def readsInput (arguments : List Text) : Bool :=
  match Request.ofArguments arguments with
  | .ok (.check options) => options.expressions.isEmpty
  | _ => false

end Command

end ArithGrammar
