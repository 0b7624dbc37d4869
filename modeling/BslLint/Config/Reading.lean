import BslLint.Config.Basic

/-!
# Configurations as data

A configuration can be written in several data formats, which differ in what they take for a truth
value, a text or a record. A `Reading` says for one format how its values are understood, and
`Config.decode?` reads a configuration by it: what is missing is filled in, what has no meaning is
left out, and what has the wrong shape is refused.
-/

namespace BslLint

/-- How the values of a data format are understood. -/
structure Reading (α : Type) where
  /-- Whether a value says that there is none. -/
  isNothing : α → Bool
  /-- A truth value. -/
  bool? : α → Option Bool
  /-- A size. -/
  size? : α → Option Nat
  /-- A text. -/
  text? : α → Option String
  /-- The name of a choice. -/
  choice? : α → Option String
  /-- The items of a list. -/
  items? : α → Option (List α)
  /-- The members of a map, where of two members with the same name the later one counts. -/
  members? : α → Option (List (String × α))
  /-- The members of a record with the given names, each name at most once. -/
  fields? : List String → α → Option (List (String × α))
  /-- A value of any type. -/
  value? : α → Option Toml

namespace Reading

variable {α β : Type} (r : Reading α)

/-- A value or nothing. -/
def optional? (decode? : α → Option β) (v : α) : Option (Option β) :=
  if r.isNothing v then some none else (decode? v).map some

/-- A list. -/
def list? (decode? : α → Option β) (v : α) : Option (List β) := do
  (← r.items? v).mapM decode?

/-- A map. -/
def map? (decode? : α → Option β) (v : α) : Option (KeyMap β) := do
  return KeyMap.ofList (← (← r.members? v).mapM fun e ↦ (decode? e.2).map fun w ↦ (e.1, w))

/-- A member of a record, or what stands for it where it is missing. -/
def field? (fields : List (String × α)) (name : String) (default : β) (decode? : α → Option β) :
    Option β :=
  match fields.find? (·.1 == name) with
  | some e => decode? e.2
  | none => some default

end Reading

/-- What is said about a rule. -/
def RuleSettings.decode? {α : Type} (r : Reading α) (v : α) : Option RuleSettings := do
  let fs ← r.fields? ["enabled", "severity", "description", "parameters"] v
  let severity? (v : α) : Option Severity := do Severity.ofLabel? (← r.choice? v)
  return {
    enabled := ← Reading.field? fs "enabled" true r.bool?
    severity := ← Reading.field? fs "severity" none (r.optional? severity?)
    description := ← Reading.field? fs "description" none (r.optional? r.text?)
    parameters := ← Reading.field? fs "parameters" [] (r.map? r.value?) }

/-- What is said about the fingerprints of blocks. -/
def FingerprintSettings.decode? {α : Type} (r : Reading α) (v : α) :
    Option FingerprintSettings := do
  let fs ← r.fields? ["enabled", "codes"] v
  return {
    enabled := ← Reading.field? fs "enabled" false r.bool?
    codes := ← Reading.field? fs "codes" [] (r.list? r.text?) }

/-- What is said about a batch of files. -/
def BatchSettings.decode? {α : Type} (r : Reading α) (v : α) : Option BatchSettings := do
  let fs ← r.fields? ["threads", "fail_fast", "extensions", "templates"] v
  let standard : BatchSettings := {}
  return {
    threads := ← Reading.field? fs "threads" none (r.optional? r.size?)
    failFast := ← Reading.field? fs "fail_fast" false r.bool?
    extensions := ← Reading.field? fs "extensions" standard.extensions (r.list? r.text?)
    templates := ← Reading.field? fs "templates" false r.bool? }

/-- A configuration. -/
def Config.decode? {α : Type} (r : Reading α) (v : α) : Option Config := do
  let fs ← r.fields? ["version", "rules", "fingerprint", "settings"] v
  let standard : Config := {}
  return {
    version := ← Reading.field? fs "version" standard.version r.text?
    rules := ← Reading.field? fs "rules" [] (r.map? (RuleSettings.decode? r))
    fingerprint := ← Reading.field? fs "fingerprint" {} (FingerprintSettings.decode? r)
    settings := ← Reading.field? fs "settings" {} (BatchSettings.decode? r) }

end BslLint
