import BslLint.Config.OfJson
import BslLint.Config.OfToml
import BslLint.Config.OfYaml
import BslLint.File.Path

/-!
# Formats of configurations

The format of a configuration in a file is told by the extension of the file's name.
-/

namespace BslLint

/-- A data format for configurations. -/
inductive ConfigFormat where
  | toml
  | yaml
  | json
  deriving DecidableEq, Repr

namespace ConfigFormat

/-- The name of a format. -/
def name : ConfigFormat → String
  | toml => "TOML"
  | yaml => "YAML"
  | json => "JSON"

/-- The format of a file; where the extension says nothing it is TOML. -/
def ofPath (path : String) : ConfigFormat :=
  if Path.hasExtension path "yaml" || Path.hasExtension path "yml" then yaml
  else if Path.hasExtension path "json" then json
  else toml

/-- What is said about a text that is no configuration. -/
def invalid (f : ConfigFormat) : String := "Invalid " ++ f.name

end ConfigFormat

/-- The configuration that a text holds. -/
def Config.read? (format : ConfigFormat) (text : String) : Option Config :=
  match format with
  | .toml => do Config.decode? Toml.reading (← Toml.read? text)
  | .json => do Config.decode? Json.reading (← Json.read? text)
  | .yaml => do Config.decode? Yaml.reading (← Yaml.read? text)

end BslLint
