import BslLint.Engine.Failure
import BslLint.Text.Blank

/-!
# Forms of reports

A batch is reported as a text for people or as data. The forms are asked for by their keys, in which
neither the case of letters nor white space around matters.
-/

namespace BslLint

/-- A form of a report. -/
inductive ReportFormat where
  /-- A text for people. -/
  | console
  /-- Data in a file. -/
  | json
  deriving DecidableEq, Repr

namespace ReportFormat

/-- All forms. -/
def all : List ReportFormat := [console, json]

/-- The key of a form. -/
def key : ReportFormat → String
  | console => "console"
  | json => "json"

/-- The form of a key. -/
def ofKey? (s : String) : Option ReportFormat :=
  let key := Text.lowerAscii (String.ofList (Text.trim s.toList))
  all.find? (·.key == key)

/-- The form of a key, or why there is none. -/
def ofKey (s : String) : Except Failure ReportFormat :=
  match ofKey? s with
  | some f => .ok f
  | none => .error (.unknownReporter s)

/-- The forms of some keys, each once, in the order in which they are first asked for. -/
def ofKeys (keys : List String) : Except Failure (List ReportFormat) := do
  return (← keys.mapM ofKey).foldl (fun seen f ↦ if seen.contains f then seen else seen ++ [f]) []

end ReportFormat

end BslLint
