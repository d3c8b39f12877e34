import ArithGrammar.Log
import ArithGrammar.PatternReader

/-!
# Log filters

A filter gives each target the most talkative level that is let through, or silence, by a list of
directives of which the one with the longest matching target decides. It may ask besides that a
pattern occurs in the message. A filter is written as directives with commas between them and, if
there is a pattern, a slash and the pattern. What cannot be read in it is left out and complained
about.
-/
namespace ArithGrammar

/-- The limit for all targets that begin with the given one, or for all targets whatever. -/
structure Directive where
  target : Option Text
  most : Option Level
  deriving DecidableEq, Repr

structure LogFilter where
  directives : List Directive
  pattern : Option Pattern

/-- What is left out of a written filter. -/
inductive FilterComplaint where
  /-- All of it, which has more than one slash. -/
  | slashes (written : Text)
  /-- A directive that cannot be read, by the part that is wrong. -/
  | directive (part : Text)
  | pattern (written : Text) (error : PatternError)
  deriving DecidableEq, Repr

namespace FilterComplaint

def message : FilterComplaint → Text
  | slashes written =>
      "invalid logging spec '".toList ++ written ++ "' (too many '/'s)".toList
  | directive part => "invalid logging spec '".toList ++ part ++ "'".toList
  | pattern written error => "invalid regex filter - ".toList ++ error.message written

def shown (c : FilterComplaint) : Text :=
  "warning: ".toList ++ c.message ++ ", ignoring it\n".toList

end FilterComplaint

namespace Directive

def reach (d : Directive) : Nat := d.target.elim 0 List.length

def covers (d : Directive) (target : Text) : Bool := d.target.all (·.isPrefixOf target)

/-- Reads `target=limit`, a limit for every target, or a target that has no limit. -/
def ofText (part : Text) : Except FilterComplaint Directive :=
  match part.splitOn '=' with
  | [word] =>
      match Level.limit? word with
      | some most => .ok ⟨none, most⟩
      | none => .ok ⟨some word, some .trace⟩
  | [target, word] =>
      let word := Text.stripped word
      if word.isEmpty then .ok ⟨some target, some .trace⟩
      else match Level.limit? word with
        | some most => .ok ⟨some target, most⟩
        | none => .error (.directive word)
  | _ => .error (.directive part)

/-- Adds a directive to a list, where it takes the place of one for the same target. -/
def addTo (directives : List Directive) (d : Directive) : List Directive :=
  if directives.any (·.target = d.target) then
    directives.map fun e => if e.target = d.target then d else e
  else directives ++ [d]

end Directive

namespace LogFilter

/-- What is let through if no directive is given. -/
def errors : List Directive := [⟨none, some .error⟩]

/-- The directives with commas between them, and complaints about the others. -/
def readDirectives (s : Text) : List Directive × List FilterComplaint :=
  (((s.splitOn ',').map Text.stripped).filter (!·.isEmpty)).foldl
    (fun (directives, complaints) part =>
      match Directive.ofText part with
      | .ok d => (Directive.addTo directives d, complaints)
      | .error c => (directives, complaints ++ [c]))
    ([], [])

/-- A filter that lets errors through if there are no directives. -/
def build (directives : List Directive) (pattern : Option Pattern) : LogFilter :=
  ⟨if directives.isEmpty then errors else directives, pattern⟩

def read (written : Text) : LogFilter × List FilterComplaint :=
  match written.splitOn '/' with
  | [part] =>
      let (directives, complaints) := readDirectives part
      (build directives none, complaints)
  | [part, pattern] =>
      let (directives, complaints) := readDirectives part
      match Pattern.ofText pattern with
      | .ok p => (build directives (some p), complaints)
      | .error e => (build directives none, complaints ++ [.pattern pattern e])
  | _ => (build [] none, [.slashes written])

def ofText (written : Text) : LogFilter := (read written).1

def complaints (written : Text) : List FilterComplaint := (read written).2

/-- The longest of the directives that match the target, the last one among equals. -/
def deciding (filter : LogFilter) (target : Text) : Option Directive :=
  filter.directives.foldl
    (fun best d =>
      if d.covers target && best.all (·.reach ≤ d.reach) then some d else best)
    none

/-- The limit for a target, silence if no directive matches it. -/
def most (filter : LogFilter) (target : Text) : Option Level :=
  (filter.deciding target).bind Directive.most

def fits (filter : LogFilter) (r : Record) : Bool := filter.pattern.all (·.occursIn r.message)

def passes (filter : LogFilter) (r : Record) : Bool :=
  r.level.within (filter.most r.target) && filter.fits r

end LogFilter

end ArithGrammar
