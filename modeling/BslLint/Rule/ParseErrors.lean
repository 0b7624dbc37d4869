import BslLint.Pass.Basic
import BslLint.Rule.Info

/-!
# The rule about texts that cannot be parsed

Every error of a document is found, at the place where it was noted and without a node.
-/

namespace BslLint.ParseErrors

/-- What is known about the rule. -/
def info : RuleInfo where
  code := "ParseError"
  name := "Source code parse error"
  type := .error
  criticality := .critical
  minutes := 5
  tags := [.error]
  parameters := []

/-- An error of a document as a finding. -/
def ofError (e : SyntaxError) : Finding := .atSpan e.span ("Parse error: " ++ e.message)

/-- The pass of the rule. -/
def pass : Pass Unit where
  code := info.code
  kinds := []
  initial := ()
  checkFile d s := .found s (d.errors.map ofError)

end BslLint.ParseErrors
