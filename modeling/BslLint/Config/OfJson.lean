import BslLint.Config.Reading
import BslLint.Data.Json.Reader

/-!
# Configurations in JSON

In JSON a record may also be given by the list of its members in their order, and a choice by an
object whose only member is null. No member of a record may be given twice, and neither may a member
of an object inside of a parameter. Null is no value of a parameter.
-/

namespace BslLint.Json

/-- The name of a choice. -/
def choice? : Json → Option String
  | .str s => some s
  | .obj [(name, .null)] => some name
  | _ => none

/-- The members of a record. -/
def fields? (names : List String) : Json → Option (List (String × Json))
  | .obj ms =>
    let known := ms.filter fun m ↦ names.contains m.1
    if (known.map (·.1)).Nodup then some known else none
  | .arr vs => if vs.length ≤ names.length then some (names.zip vs) else none
  | _ => none

mutual

/-- A value of any type. -/
def toToml? : Json → Option Toml
  | .null => none
  | .bool b => some (.bool b)
  | .int n => if Text.fitsInt64 n then some (.int n) else none
  | .float x => some (.float x)
  | .str s => some (.str s)
  | .arr vs => (toTomlItems? vs).map .array
  | .obj ms =>
    if (ms.map (·.1)).Nodup then (toTomlMembers? ms).map fun es ↦ .table (KeyMap.ofList es)
    else none

/-- The items of an array. -/
def toTomlItems? : List Json → Option (List Toml)
  | [] => some []
  | v :: vs => do return (← toToml? v) :: (← toTomlItems? vs)

/-- The members of an object. -/
def toTomlMembers? : List (String × Json) → Option (List (String × Toml))
  | [] => some []
  | (name, v) :: ms => do return (name, ← toToml? v) :: (← toTomlMembers? ms)

end

/-- How the values of JSON are understood. -/
def reading : Reading Json where
  isNothing
    | .null => true
    | _ => false
  bool?
    | .bool b => some b
    | _ => none
  size?
    | .int n => if n < 0 then none else some n.toNat
    | _ => none
  text?
    | .str s => some s
    | _ => none
  choice? := choice?
  items?
    | .arr vs => some vs
    | _ => none
  members?
    | .obj ms => some ms
    | _ => none
  fields? := fields?
  value? := toToml?

end BslLint.Json
