import BslLint.Config.Reading
import BslLint.Data.Yaml.Reader
import BslLint.Data.Yaml.Scalar

/-!
# Configurations in YAML

In YAML any scalar is a text, and where a list, a map or a record is wanted, it may be left out. A
choice may also be given by the tag of an empty scalar. A value of a parameter with a tag of its own
is refused, and so is one that says that there is none.
-/

namespace BslLint.Yaml

/-- Whether a scalar is plain and empty. -/
def isBare : Yaml → Bool
  | scalar true _ "" => true
  | _ => false

/-- Whether a value says that there is none. -/
def isNothing : Yaml → Bool
  | scalar true tag s => (tag.isNone || tag == some (coreTag "null")) && (s.isEmpty || isNullWord s)
  | _ => false

/-- The text of a scalar. -/
def text? : Yaml → Option String
  | scalar _ _ s => some s
  | _ => none

/-- The name of a choice. -/
def choice? : Yaml → Option String
  | scalar plain tag s =>
    match tag.map String.toList with
    | some ('!' :: name) =>
      if plain && (s.isEmpty || isNullWord s) then some (String.ofList name) else none
    | _ => some s
  | _ => none

/-- The items of a sequence. -/
def items : Yaml → Option (List Yaml)
  | sequence _ vs => some vs
  | v => if v.isBare then some [] else none

/-- The members of a mapping whose keys are scalars. -/
def members : Yaml → Option (List (String × Yaml))
  | mapping _ ms => ms.mapM fun (key, v) ↦ key.text?.map fun name ↦ (name, v)
  | v => if v.isBare then some [] else none

/-- The members of a record. -/
def fields? (names : List String) (v : Yaml) : Option (List (String × Yaml)) := do
  let known := (← v.members).filter fun m ↦ names.contains m.1
  if (known.map (·.1)).Nodup then some known else none

/-- What a plain scalar stands for as a value of a parameter. -/
def Plain.toToml? (s : String) : Plain → Option Toml
  | .null => none
  | .bool b => some (.bool b)
  | .int n => if Text.fitsInt64 n then some (.int n) else none
  | .float x => some (.float x)
  | .text => some (.str s)

/-- A scalar with a tag as a value of a parameter. -/
def taggedToToml? (tag s : String) : Option Toml :=
  if tag.startsWith "!" then none
  else if tag == coreTag "bool" then (bool? s).map .bool
  else if tag == coreTag "int" then do
    let n ← integer? s.toList
    if Text.fitsInt64 n then some (.int n) else none
  else if tag == coreTag "float" then (float? s.toList).map .float
  else if tag == coreTag "null" then none
  else some (.str s)

/-- A scalar as a value of a parameter. -/
def scalarToToml? (isPlain : Bool) (tag : Option String) (s : String) : Option Toml :=
  match tag with
  | some tag => taggedToToml? tag s
  | none => if isPlain then (plain s).toToml? s else some (.str s)

/-- Whether a tag is none of those that the format knows. -/
def isLocalTag (tag : Option String) : Bool := tag.any fun t ↦ t.startsWith "!"

/-- Whether a value can be the first key of a table. -/
def isTextKey : Yaml → Bool
  | scalar isPlain tag s => match scalarToToml? isPlain tag s with
    | some (.str _) => true
    | _ => false
  | _ => false

mutual

/-- A value of any type. -/
def toToml? : Yaml → Option Toml
  | scalar isPlain tag s => scalarToToml? isPlain tag s
  | sequence tag vs => if isLocalTag tag then none else (toTomlItems? vs).map .array
  | mapping tag ms =>
    if isLocalTag tag || !(ms.head?.all fun m ↦ m.1.isTextKey) then none
    else do
      let es ← toTomlMembers? ms
      if (es.map (·.1)).Nodup then some (.table (KeyMap.ofList es)) else none

/-- The items of a sequence. -/
def toTomlItems? : List Yaml → Option (List Toml)
  | [] => some []
  | v :: vs => do return (← toToml? v) :: (← toTomlItems? vs)

/-- The members of a mapping. -/
def toTomlMembers? : List (Yaml × Yaml) → Option (List (String × Toml))
  | [] => some []
  | (key, v) :: ms => do return (← key.text?, ← toToml? v) :: (← toTomlMembers? ms)

end

/-- How the values of YAML are understood. -/
def reading : Reading Yaml where
  isNothing := isNothing
  bool?
    | scalar true _ s => bool? s
    | _ => none
  size?
    | scalar true _ s => (natural? s.toList).filter (· < Nat.pow 2 64)
    | _ => none
  text? := text?
  choice? := choice?
  items? := items
  members? := members
  fields? := fields?
  value? := toToml?

end BslLint.Yaml
