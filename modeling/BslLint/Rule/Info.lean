import BslLint.Diagnostic.Basic

/-!
# What is known about a rule

A rule has a code, under which it is configured and its findings are reported, and it has a type and
a criticality, from which the severity of its findings follows unless a configuration says
otherwise.
-/

namespace BslLint

/-- What sort of trouble a rule is about. -/
inductive RuleType where
  | error
  | codeSmell
  | vulnerability
  | securityHotspot
  deriving DecidableEq, Repr

/-- All sorts of trouble. -/
def RuleType.all : List RuleType := [error, codeSmell, vulnerability, securityHotspot]

/-- The name of a sort of trouble. -/
def RuleType.name : RuleType → String
  | error => "ERROR"
  | codeSmell => "CODE_SMELL"
  | vulnerability => "VULNERABILITY"
  | securityHotspot => "SECURITY_HOTSPOT"

/-- How much a rule matters. -/
inductive Criticality where
  | info
  | minor
  | major
  | critical
  | blocker
  deriving DecidableEq, Repr

/-- All criticalities, the least one first. -/
def Criticality.all : List Criticality := [info, minor, major, critical, blocker]

/-- The name of a criticality. -/
def Criticality.name : Criticality → String
  | info => "INFO"
  | minor => "MINOR"
  | major => "MAJOR"
  | critical => "CRITICAL"
  | blocker => "BLOCKER"

/-- What a rule has to do with. -/
inductive RuleTag where
  | standard
  | suspicious
  | brainOverload
  | badPractice
  | error
  | unpredictable
  | design
  deriving DecidableEq, Repr

/-- The name of a tag. -/
def RuleTag.name : RuleTag → String
  | standard => "STANDARD"
  | suspicious => "SUSPICIOUS"
  | brainOverload => "BRAIN_OVERLOAD"
  | badPractice => "BAD_PRACTICE"
  | error => "ERROR"
  | unpredictable => "UNPREDICTABLE"
  | design => "DESIGN"

/-- A number that a rule can be given. -/
structure RuleParameter where
  /-- The name of the parameter. -/
  name : String
  /-- What the number means. -/
  description : String
  /-- The number used where none is given. -/
  default : Nat
  deriving DecidableEq, Repr

/-- What is known about a rule. -/
structure RuleInfo where
  /-- The code of the rule. -/
  code : String
  /-- What the rule is about, in a few words. -/
  name : String
  /-- What sort of trouble it is about. -/
  type : RuleType
  /-- How much it matters. -/
  criticality : Criticality
  /-- How many minutes it takes to mend a finding. -/
  minutes : Nat
  /-- What it has to do with. -/
  tags : List RuleTag
  /-- The numbers that it can be given. -/
  parameters : List RuleParameter
  deriving Repr

/-- The severity of findings by the type and the criticality of their rule. -/
def Severity.ofRule : RuleType → Criticality → Severity
  | .error, _ => error
  | _, .blocker | _, .critical | _, .major => warning
  | _, .minor => information
  | _, .info => hint

/-- The severity of the findings of a rule, unless a configuration says otherwise. -/
def RuleInfo.severity (r : RuleInfo) : Severity := .ofRule r.type r.criticality

end BslLint
