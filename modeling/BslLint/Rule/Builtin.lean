import BslLint.Pass.Runner
import BslLint.Rule.ConditionComplexity
import BslLint.Rule.IdenticalExpressions
import BslLint.Rule.Parameter
import BslLint.Rule.ParseErrors
import BslLint.Rule.StructureValues

/-!
# The rules

The rules there are, in the order in which they are run. Each but the first has one parameter, a
size; `Rule.limit?` reads it and `Rule.pass` makes the pass for it.
-/

namespace BslLint

/-- A rule. -/
inductive Rule where
  | parseErrors
  | identicalExpressions
  | conditionComplexity
  | structureValues
  deriving DecidableEq, Repr, Inhabited

namespace Rule

/-- All rules, in the order in which they are run. -/
def all : List Rule := [parseErrors, identicalExpressions, conditionComplexity, structureValues]

/-- What is known about a rule. -/
def info : Rule → RuleInfo
  | parseErrors => ParseErrors.info
  | identicalExpressions => IdenticalExpressions.info
  | conditionComplexity => ConditionComplexity.info
  | structureValues => StructureValues.info

/-- The code of a rule. -/
def code (r : Rule) : String := r.info.code

/-- The rule of a code. -/
def ofCode? (code : String) : Option Rule := all.find? (·.code == code)

theorem ofCode?_code (r : Rule) : ofCode? r.code = some r := by
  cases r <;> decide

/-- The parameter of a rule. -/
def parameter? : Rule → Option RuleParameter
  | parseErrors => none
  | identicalExpressions => some IdenticalExpressions.limit
  | conditionComplexity => some ConditionComplexity.limit
  | structureValues => some StructureValues.limit

theorem parameters_info (r : Rule) : r.info.parameters = r.parameter?.toList := by
  cases r <;> rfl

/-- The size that a rule is given, or the one it has by default. A rule without a parameter has the
size zero. -/
def limit? (r : Rule) (ps : Parameters) : Except ParameterError Nat := do
  match r.parameter? with
  | none => return 0
  | some p => return ((← ps.size? p.name).getD p.default)

/-- The pass of a rule for a size. -/
def pass : Rule → Nat → Pass Unit
  | parseErrors, _ => ParseErrors.pass
  | identicalExpressions, min => IdenticalExpressions.pass min
  | conditionComplexity, max => ConditionComplexity.pass max
  | structureValues, max => StructureValues.pass max

theorem code_pass (r : Rule) (limit : Nat) : (r.pass limit).code = r.code := by
  cases r <;> rfl

end Rule

end BslLint
