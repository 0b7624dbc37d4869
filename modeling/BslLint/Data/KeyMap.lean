/-!
# Maps from names to values

A `KeyMap` is a list of entries in the order of their names, by code points, with no name twice. Two
maps with the same entries are the same list, so maps are compared as lists.
-/

namespace BslLint

/-- A map from names to values: its entries in the order of the names. -/
abbrev KeyMap (α : Type) := List (String × α)

namespace KeyMap

variable {α : Type}

/-- The value of a name. -/
def find? (m : KeyMap α) (name : String) : Option α := (List.find? (·.1 == name) m).map (·.2)

/-- Whether a name has a value. -/
def contains (m : KeyMap α) (name : String) : Bool := m.any (·.1 == name)

/-- Gives a name a value; an older one is replaced. -/
def insert (m : KeyMap α) (name : String) (value : α) : KeyMap α :=
  match m with
  | [] => [(name, value)]
  | (n, v) :: rest =>
    if name < n then (name, value) :: (n, v) :: rest
    else if n = name then (name, value) :: rest
    else (n, v) :: insert rest name value

/-- Takes a name's value away. -/
def erase (m : KeyMap α) (name : String) : KeyMap α := m.filter (·.1 != name)

/-- Changes the value of a name, which begins as `initial`. -/
def modify (m : KeyMap α) (name : String) (initial : α) (f : α → α) : KeyMap α :=
  m.insert name (f ((m.find? name).getD initial))

/-- The map with some entries; of two with the same name the later one counts. -/
def ofList (entries : List (String × α)) : KeyMap α :=
  entries.foldl (fun m (name, value) ↦ m.insert name value) []

end KeyMap

end BslLint
