import BslLint.Engine.Result

/-!
# Reports for people

A report lists the diagnostics by files, and ends with a line about all of them. On a terminal the
paths, the severities and the codes are set off by colours.
-/

namespace BslLint.Report

/-- Ways to set off a piece of text on a terminal, by their numbers. -/
structure Style where
  codes : List Nat

namespace Style

/-- Thick letters. -/
def bold : Style := ⟨[1]⟩

/-- The colour of codes. -/
def cyan : Style := ⟨[36]⟩

/-- How a severity is set off. -/
def ofSeverity : Severity → Style
  | .error => ⟨[31, 1]⟩
  | .warning => ⟨[33]⟩
  | .information => ⟨[34]⟩
  | .hint => ⟨[2]⟩

/-- A piece of text set off, if that is wanted. -/
def paint (s : Style) (isColored : Bool) (text : String) : String :=
  if isColored then
    String.join (s.codes.map fun n ↦ "\x1b[" ++ toString n ++ "m") ++ text ++ "\x1b[0m"
  else text

end Style

variable (isColored : Bool)

/-- The line of a diagnostic. -/
def diagnosticLine (d : Diagnostic) : String :=
  "  " ++ d.range.start.render ++ " " ++
    (Style.ofSeverity d.severity).paint isColored d.severity.label ++ " " ++
    Style.cyan.paint isColored d.code ++ " " ++ d.message ++ "\n"

/-- The lines of a file. -/
def fileLines (f : FileResult) : String :=
  Style.bold.paint isColored f.path ++ "\n" ++
    String.join (f.diagnostics.map (diagnosticLine isColored))

/-- The line about all files. -/
def summary (b : BatchResult) : String :=
  toString b.files.length ++ " files analyzed, " ++ toString b.filesWithDiagnostics ++
    " with findings: " ++ toString (b.count .error) ++ " errors, " ++
    toString (b.count .warning) ++ " warnings, " ++ toString (b.count .information) ++ " info, " ++
    toString (b.count .hint) ++ " hints\n"

/-- The report about a batch, with or without the files in which nothing was found. -/
def text (withClean : Bool) (b : BatchResult) : String :=
  let shown := b.files.filter fun f ↦ withClean || !f.diagnostics.isEmpty
  String.join (shown.map (fileLines isColored)) ++ "\n" ++ summary b

end BslLint.Report
