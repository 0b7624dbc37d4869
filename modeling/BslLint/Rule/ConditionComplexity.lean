import BslLint.Pass.Basic
import BslLint.Rule.Info

/-!
# The rule about complex conditions

A branch is found where its condition has more logical operations than a limit allows. Operations
count wherever they stand below the condition, also in arguments of calls.
-/

namespace BslLint.ConditionComplexity

/-- The greatest number of logical operations. -/
def limit : RuleParameter where
  name := "maxIfConditionComplexity"
  description := "Acceptable number of logical operations in a condition"
  default := 3

/-- What is known about the rule. -/
def info : RuleInfo where
  code := "IfConditionComplexity"
  name := "Usage of complex expressions in the \"If\" condition"
  type := .codeSmell
  criticality := .minor
  minutes := 5
  tags := [.brainOverload]
  parameters := [limit]

/-- The number of logical operations from a node downwards. -/
def operations (n : Node) : Nat := n.preorder.countP (·.kind = .boolOperation)

/-- What is said about a condition. -/
def message (count max : Nat) : String :=
  "Simplify the condition: " ++ toString count ++ " logical operations, at most " ++
    toString max ++ " allowed"

/-- What is found at a branch. -/
def check (max : Nat) (d : Document) (branch : Node) : List Finding :=
  match branch.childOfKind? .expression with
  | none => []
  | some condition =>
    let count := operations condition
    if max < count then [.atNode d condition (message count max)] else []

/-- The pass of the rule. -/
def pass (max : Nat) : Pass Unit where
  code := info.code
  kinds := [.ifBranch, .elsifBranch]
  initial := ()
  visit d n s := .found s (check max d n)

end BslLint.ConditionComplexity
