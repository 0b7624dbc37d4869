import BslLint.Config.OfToml

/-!
# Saving configurations

A configuration is saved as a TOML document. What is not said stays out of it. Integers of the
format have 64 bits with a sign, so a larger number of threads cannot be saved.
-/

namespace BslLint

/-- The members of a record, of which those without a value are left out. -/
def Toml.record (fields : List (String × Option Toml)) : Toml :=
  .table (fields.filterMap fun e ↦ e.2.map fun v ↦ (e.1, v))

/-- What is said about a rule. -/
def RuleSettings.toToml (s : RuleSettings) : Toml :=
  .record [("enabled", some (.bool s.enabled)),
    ("severity", s.severity.map fun v ↦ .str v.label),
    ("description", s.description.map .str),
    ("parameters", some (.table s.parameters))]

/-- What is said about the fingerprints of blocks. -/
def FingerprintSettings.toToml (s : FingerprintSettings) : Toml :=
  .record [("enabled", some (.bool s.enabled)), ("codes", some (.array (s.codes.map .str)))]

/-- What is said about a batch of files. -/
def BatchSettings.toToml (s : BatchSettings) : Toml :=
  .record [("threads", s.threads.map fun n ↦ .int n),
    ("fail_fast", some (.bool s.failFast)),
    ("extensions", some (.array (s.extensions.map .str))),
    ("templates", some (.bool s.templates))]

/-- The entries of the document of a configuration. -/
def Config.toEntries (c : Config) : List (String × Toml) :=
  [("version", .str c.version),
    ("rules", .table (c.rules.map fun e ↦ (e.1, e.2.toToml))),
    ("fingerprint", c.fingerprint.toToml),
    ("settings", c.settings.toToml)]

/-- Whether a configuration can be saved. -/
def Config.isSavable (c : Config) : Bool :=
  match c.settings.threads with
  | some n => Text.fitsInt64 n
  | none => true

/-- The document of a configuration, none if it cannot be saved. -/
def Config.save? (c : Config) : Option String :=
  if c.isSavable then some (Toml.document c.toEntries) else none

end BslLint
