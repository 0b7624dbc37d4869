import BslLint.Engine.Metrics
import BslLint.Fingerprint.Grouping

/-!
# Results of a batch

What is known about a file after its analysis, and about all files of a batch.
-/

namespace BslLint

/-- What is known about a file after its analysis. -/
structure FileResult where
  /-- The path of the file. -/
  path : String
  /-- What the rules have found in it. -/
  diagnostics : List Diagnostic := []
  /-- Its size. -/
  metrics : Metrics := {}
  /-- The findings by blocks, if they were to be grouped. -/
  blocks : Option (List BlockFindings) := none
  deriving DecidableEq, Repr

/-- The number of diagnostics of a severity. -/
def FileResult.count (f : FileResult) (s : Severity) : Nat :=
  f.diagnostics.countP (·.severity = s)

/-- What is known about a batch of files after their analysis. -/
structure BatchResult where
  /-- The directory of the sources. -/
  source : String
  /-- The files. -/
  files : List FileResult
  deriving DecidableEq, Repr

namespace BatchResult

variable (b : BatchResult)

/-- The number of diagnostics. -/
def total : Nat := totalOf (b.files.map (·.diagnostics.length))

/-- The number of diagnostics of a severity. -/
def count (s : Severity) : Nat := totalOf (b.files.map (·.count s))

/-- The number of files with diagnostics. -/
def filesWithDiagnostics : Nat := b.files.countP (!·.diagnostics.isEmpty)

/-- Whether there are errors. -/
def hasErrors : Bool := 0 < b.count .error

end BatchResult

end BslLint
