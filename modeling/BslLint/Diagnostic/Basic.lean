import BslLint.Syntax.Document

/-!
# Diagnostics

A `Finding` is what a pass has found: a message and the stretch of text it is about, and the node it
hangs on if there is one. With the code of the pass and a severity it is a `Diagnostic`.

Diagnostics are ordered by line and column alone, so those at one place keep the order in which they
were found.
-/

namespace BslLint

/-- How serious a diagnostic is. -/
inductive Severity where
  | error
  | warning
  | information
  | hint
  deriving DecidableEq, Repr, Inhabited

namespace Severity

/-- All severities, the most serious first. -/
def all : List Severity := [error, warning, information, hint]

/-- The name of a severity in data. -/
def name : Severity → String
  | error => "error"
  | warning => "warning"
  | information => "information"
  | hint => "hint"

/-- The severity of a name in data. -/
def ofName? (s : String) : Option Severity := all.find? (·.name == s)

/-- The name of a severity in texts for people, and in configurations. -/
def label : Severity → String
  | information => "info"
  | s => s.name

/-- The severity of a label. -/
def ofLabel? (s : String) : Option Severity := all.find? (·.label == s)

theorem ofName?_name (s : Severity) : ofName? s.name = some s := by
  cases s <;> decide

theorem ofLabel?_label (s : Severity) : ofLabel? s.label = some s := by
  cases s <;> decide

end Severity

/-- Something found in a document. -/
structure Finding where
  /-- What is said about it. -/
  message : String
  /-- The stretch of text that it is about. -/
  range : Span
  /-- The id of the node that it hangs on. -/
  anchor : Option Nat
  deriving DecidableEq, Repr

namespace Finding

/-- A finding about a node. A node without tokens has no place of its own and is told to be at the
start of the text. -/
def atNode (d : Document) (n : Node) (message : String) : Finding :=
  ⟨message, (d.span? n).getD (.point .start), some n.id⟩

/-- A finding about a stretch of text. -/
def atSpan (range : Span) (message : String) : Finding := ⟨message, range, none⟩

end Finding

/-- A finding with the code of its pass and a severity. -/
structure Diagnostic where
  /-- The code of the pass. -/
  code : String
  /-- What is said. -/
  message : String
  /-- How serious it is. -/
  severity : Severity
  /-- The stretch of text that it is about. -/
  range : Span
  /-- The id of the node that it hangs on. -/
  anchor : Option Nat
  deriving DecidableEq, Repr

/-- A finding of a pass as a diagnostic. -/
def Finding.toDiagnostic (code : String) (severity : Severity) (f : Finding) : Diagnostic :=
  ⟨code, f.message, severity, f.range, f.anchor⟩

namespace Diagnostic

/-- The line where the diagnostic begins. -/
def line (d : Diagnostic) : Nat := d.range.start.line

/-- The column where the diagnostic begins. -/
def column (d : Diagnostic) : Nat := d.range.start.column

/-- Whether a diagnostic comes no later than another one: by line, then by column. -/
def le (d e : Diagnostic) : Bool :=
  d.line < e.line || (d.line == e.line && d.column ≤ e.column)

/-- Diagnostics in the order of their places; at one place the order stays as it is. -/
def sorted (ds : List Diagnostic) : List Diagnostic := ds.mergeSort le

/-- A diagnostic on one line. -/
def render (d : Diagnostic) : String :=
  d.range.start.render ++ " [" ++ d.severity.label ++ "] " ++ d.code ++ ": " ++ d.message

end Diagnostic

end BslLint
