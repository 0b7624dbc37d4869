import BslLint.Rule.Builtin

/-!
# Configurations

A `Config` says which rules are run, with which parameters and severities, and how a batch of files
is analyzed. Rules are named by their codes, and a configuration may name rules that do not exist;
that is worth a warning and has no other effect.

`Config.standard` is what is used where no configuration is given. It names every rule. A
configuration that was read from a file names only what the file names.
-/

namespace BslLint

/-- What a configuration says about a rule. -/
structure RuleSettings where
  /-- Whether the rule is run. -/
  enabled : Bool := true
  /-- The severity of its findings, if it is not the one that follows from the rule. -/
  severity : Option Severity := none
  /-- What the rule is about. -/
  description : Option String := none
  /-- The parameters of the rule. -/
  parameters : Parameters := []
  deriving Repr, Inhabited

/-- What a configuration says about the fingerprints of blocks. -/
structure FingerprintSettings where
  /-- Whether findings are grouped by blocks. -/
  enabled : Bool := false
  /-- The codes of the findings that are grouped, all of them if there are none. -/
  codes : List String := []
  deriving DecidableEq, Repr, Inhabited

/-- What a configuration says about a batch of files. -/
structure BatchSettings where
  /-- The number of threads. -/
  threads : Option Nat := none
  /-- Whether the first file that fails ends the batch. -/
  failFast : Bool := false
  /-- The extensions of the files that are analyzed. -/
  extensions : List String := ["bsl", "os"]
  /-- Whether templates are analyzed too. -/
  templates : Bool := false
  deriving DecidableEq, Repr, Inhabited

/-- A configuration. -/
structure Config where
  /-- The version of the configuration, which nothing depends on. -/
  version : String := "1.0"
  /-- What is said about rules, by their codes. -/
  rules : KeyMap RuleSettings := []
  /-- What is said about the fingerprints of blocks. -/
  fingerprint : FingerprintSettings := {}
  /-- What is said about a batch of files. -/
  settings : BatchSettings := {}
  deriving Repr, Inhabited

/-! ### The standard configuration -/

/-- What the standard configuration says about a rule. -/
def Rule.standardSettings (r : Rule) : RuleSettings where
  description := some r.info.name
  parameters := KeyMap.ofList (r.info.parameters.map fun p ↦ (p.name, .int p.default))

/-- The configuration that is used where none is given. -/
def Config.standard : Config where
  rules := KeyMap.ofList (Rule.all.map fun r ↦ (r.code, r.standardSettings))

/-! ### Equality -/

/-- Whether two lists of values with names are the same, given when two values are. -/
def KeyMap.same {α : Type} (sameValue : α → α → Bool) : KeyMap α → KeyMap α → Bool
  | [], [] => true
  | (k, v) :: m, (k', v') :: m' => k == k' && sameValue v v' && same sameValue m m'
  | _, _ => false

/-- Whether the same is said about a rule. Numbers that are not equal to themselves make a
difference. -/
def RuleSettings.same (a b : RuleSettings) : Bool :=
  a.enabled == b.enabled && a.severity == b.severity && a.description == b.description &&
    KeyMap.same Toml.same a.parameters b.parameters

/-- Whether two configurations say the same. -/
def Config.same (a b : Config) : Bool :=
  a.version == b.version && KeyMap.same RuleSettings.same a.rules b.rules &&
    a.fingerprint == b.fingerprint && a.settings == b.settings

namespace Config

variable (c : Config)

/-! ### Rules -/

/-- Whether a rule is run. One that is not named is. -/
def isEnabled (r : Rule) : Bool :=
  match c.rules.find? r.code with
  | some settings => settings.enabled
  | none => true

/-- The severity of the findings of a rule. -/
def severityOf (r : Rule) : Severity :=
  ((c.rules.find? r.code).bind (·.severity)).getD r.info.severity

/-- The parameters of a rule. -/
def parametersOf (r : Rule) : Parameters :=
  match c.rules.find? r.code with
  | some settings => settings.parameters
  | none => []

/-- Why a configuration cannot be used. -/
structure RuleError where
  /-- The rule whose parameter cannot be used. -/
  rule : Rule
  /-- What is wrong with the parameter. -/
  cause : ParameterError
  deriving Repr

/-- What is said about a configuration that cannot be used. -/
def RuleError.message (e : RuleError) : String :=
  "Invalid parameters for rule '" ++ e.rule.code ++ "': " ++ e.cause.message

/-- A rule ready to be run. -/
def rankedPass? (r : Rule) : Except RuleError (RankedPass Unit) :=
  match r.limit? (c.parametersOf r) with
  | .ok limit => .ok ⟨r.pass limit, c.severityOf r⟩
  | .error cause => .error ⟨r, cause⟩

/-- The rules that are run. Parameters of others do not matter. -/
def runner? : Except RuleError (Runner Unit) := do
  return ⟨← (Rule.all.filter c.isEnabled).mapM c.rankedPass?⟩

/-! ### Warnings -/

/-- Something in a configuration that is probably a mistake. -/
inductive Warning where
  /-- There is no such rule. -/
  | unknownRule (code : String)
  /-- The rule has no such parameter. -/
  | unknownParameter (code name : String)
  /-- A size is zero. -/
  | zeroParameter (code name : String)
  /-- There is no rule of a code that is to be grouped. -/
  | unknownFingerprintCode (code : String)
  /-- There are to be no threads. -/
  | noThreads
  deriving DecidableEq, Repr

/-- What is said about a probable mistake. -/
def Warning.message : Warning → String
  | unknownRule code => "Unknown rule '" ++ code ++ "'"
  | unknownParameter code name => "Rule '" ++ code ++ "' has unknown parameter '" ++ name ++ "'"
  | zeroParameter code name => "Rule '" ++ code ++ "' parameter '" ++ name ++ "' is zero"
  | unknownFingerprintCode code => "Fingerprint code '" ++ code ++ "' is not a known rule"
  | noThreads => "settings.threads is 0, the number of CPUs will be used"

/-- The warnings about a parameter of a rule. -/
def parameterWarnings (r : Rule) (name : String) (value : Toml) : List Warning :=
  if r.info.parameters.all (·.name != name) then [.unknownParameter r.code name]
  else if value.int? = some 0 then [.zeroParameter r.code name]
  else []

/-- The warnings about what is said of a rule. -/
def ruleWarnings (code : String) (settings : RuleSettings) : List Warning :=
  match Rule.ofCode? code with
  | none => [.unknownRule code]
  | some r => settings.parameters.flatMap fun (name, value) ↦ parameterWarnings r name value

/-- All warnings about a configuration: those about rules in the order of their codes, those about
codes to be grouped, and at last the one about threads. -/
def warnings : List Warning :=
  (c.rules.flatMap fun (code, settings) ↦ ruleWarnings code settings) ++
    ((c.fingerprint.codes.filter fun code ↦ (Rule.ofCode? code).isNone).map
      .unknownFingerprintCode) ++
    (if c.settings.threads = some 0 then [.noThreads] else [])

end Config

/-! ### Analysis of a text -/

/-- All that the rules of a configuration find in a document. -/
def Config.diagnostics? (c : Config) (d : Document) :
    Except Config.RuleError (List Diagnostic) := do
  return (← c.runner?).run d

/-- All that the rules find in a document where no configuration is given. -/
def Document.diagnostics (d : Document) : List Diagnostic :=
  Runner.run ⟨Rule.all.map fun r ↦
    ⟨r.pass ((r.parameter?.map (·.default)).getD 0), r.info.severity⟩⟩ d

end BslLint
