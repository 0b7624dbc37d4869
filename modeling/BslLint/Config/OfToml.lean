import BslLint.Config.Reading
import BslLint.Data.Toml.Reader

/-!
# Configurations in TOML

In TOML a record may also be given by the list of its members in their order, and a choice by a
table whose only member is empty. A date counts as a table with a single member, of a name that
nothing else has.
-/

namespace BslLint.Toml

/-- The name of the member that a date counts as. -/
def dateKey : String := "$__toml_private_datetime"

/-- Whether a value holds nothing. -/
def isEmpty : Toml → Bool
  | array [] | table [] => true
  | _ => false

/-- The name of a choice. -/
def choice? : Toml → Option String
  | str s => some s
  | table [(name, v)] => if v.isEmpty then some name else none
  | _ => none

/-- The members of a table. -/
def members? : Toml → Option (List (String × Toml))
  | table es => some es
  | datetime d => some [(dateKey, .str d.write)]
  | _ => none

/-- The members of a record. -/
def fields? (names : List String) (v : Toml) : Option (List (String × Toml)) :=
  match v with
  | array vs => some (names.zip vs)
  | v => v.members?

/-- How the values of TOML are understood. -/
def reading : Reading Toml where
  isNothing _ := false
  bool?
    | .bool b => some b
    | _ => none
  size? v := do
    let n ← v.int?
    if n < 0 then none else some n.toNat
  text? := str?
  choice? := choice?
  items?
    | .array vs => some vs
    | _ => none
  members? := members?
  fields? := fields?
  value? := some

end BslLint.Toml
