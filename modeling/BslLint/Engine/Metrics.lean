import BslLint.Syntax.Traversal
import BslLint.Text.Blank

/-!
# Metrics of files

How large a file is, in lines and in things that it declares and does.
-/

namespace BslLint

/-- The size of a file. -/
structure Metrics where
  /-- The lines of the text. -/
  lines : Nat := 0
  /-- The procedures. -/
  procedures : Nat := 0
  /-- The functions. -/
  functions : Nat := 0
  /-- The statements. -/
  statements : Nat := 0
  deriving DecidableEq, Repr, Inhabited

/-- The size of a document. -/
def Document.metrics (d : Document) : Metrics where
  lines := Text.lineCount d.source.toList
  procedures := d.countKind .procedure
  functions := d.countKind .function
  statements := d.countKind .statement

end BslLint
