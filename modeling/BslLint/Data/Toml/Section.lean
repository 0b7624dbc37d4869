import BslLint.Data.Toml.Basic

/-!
# Putting TOML tables together

A document defines its tables piece by piece, and the format says which pieces may meet: a table may
be mentioned on the way to another one before it gets a heading, but it gets only one; a table that
was made by dotted keys is added to by dotted keys alone; a row of tables grows by headings, and
what follows goes into its last table. `Item` keeps of every table how it was made, so that
`Item.update` can follow these rules.
-/

namespace BslLint.Toml

/-- What stands under a key while a document is being read. -/
inductive Item where
  /-- A value that is complete. -/
  | value (v : Toml)
  /-- A table. It may have been mentioned only on the way to something else, and then it was either
  a heading or a key with dots that mentioned it. -/
  | table (mentioned dotted : Bool) (entries : List (String × Item))
  /-- A row of tables. -/
  | rows (tables : List (List (String × Item)))
  deriving Inhabited

namespace Item

/-- The entries of a table that is being read. -/
abbrev Entries := List (String × Item)

/-- What stands under a key. -/
def find? (es : Entries) (key : String) : Option Item := (List.find? (·.1 == key) es).map (·.2)

/-- Puts something else under a key that is there. -/
def replace (es : Entries) (key : String) (item : Item) : Entries :=
  es.map fun e ↦ if e.1 == key then (key, item) else e

/-- Changes the table at the end of a path, of which `change` is told whether dotted keys have made
it. Tables that are missing on the way are made. -/
def update (byKeys : Bool) (change : Bool → Entries → Option Entries) :
    List String → Bool → Entries → Option Entries
  | [], dotted, es => change dotted es
  | key :: path, _, es =>
    match find? es key with
    | none => do
      let inner ← update byKeys change path byKeys []
      return es ++ [(key, table true byKeys inner)]
    | some (value _) => none
    | some (rows tables) => do
      let inner ← update byKeys change path false (← tables.getLast?)
      return replace es key (rows (tables.dropLast ++ [inner]))
    | some (table mentioned dotted inner) =>
      if byKeys && !mentioned then none
      else do
        let inner ← update byKeys change path dotted inner
        return replace es key (table mentioned dotted inner)

/-- Gives a value to a key with dots before it, in a table that no dotted keys have made. -/
def assign (path : List String) (key : String) (v : Toml) (es : Entries) : Option Entries :=
  update true (fun dotted es ↦
    if dotted == path.isEmpty || (find? es key).isSome then none
    else some (es ++ [(key, value v)])) path false es

/-- Gives a table its heading. -/
def openTable (key : String) (es : Entries) : Option Entries :=
  match find? es key with
  | none => some (es ++ [(key, table false false [])])
  | some (table true false inner) => some (replace es key (table false false inner))
  | some _ => none

/-- Adds a table to a row. -/
def openRow (key : String) (es : Entries) : Option Entries :=
  match find? es key with
  | none => some (es ++ [(key, rows [[]])])
  | some (rows tables) => some (replace es key (rows (tables ++ [[]])))
  | some _ => none

mutual

/-- What has been read, as a value. -/
def toToml : Item → Toml
  | value v => v
  | table _ _ es => .table (KeyMap.ofList (toTomlEntries es))
  | rows tables => .array (toTomlTables tables)

/-- The entries of a table, as values. -/
def toTomlEntries : List (String × Item) → List (String × Toml)
  | [] => []
  | (key, item) :: es => (key, toToml item) :: toTomlEntries es

/-- The tables of a row, as values. -/
def toTomlTables : List (List (String × Item)) → List Toml
  | [] => []
  | es :: tables => .table (KeyMap.ofList (toTomlEntries es)) :: toTomlTables tables

end

end Item

/-- A piece of a document. -/
inductive Line where
  /-- The heading of a table. -/
  | heading (path : List String) (key : String)
  /-- The heading of a table in a row. -/
  | rowHeading (path : List String) (key : String)
  /-- A value and its key, with dots before it. -/
  | entry (path : List String) (key : String) (v : Toml)

/-- What has been read of a document. -/
structure Draft where
  /-- The entries of the document. -/
  root : Item.Entries := []
  /-- The path of the table that entries are added to. -/
  current : List String := []

/-- Adds a piece. -/
def Draft.add (d : Draft) : Line → Option Draft
  | .heading path key => do
    return ⟨← Item.update false (fun _ ↦ Item.openTable key) path false d.root, path ++ [key]⟩
  | .rowHeading path key => do
    return ⟨← Item.update false (fun _ ↦ Item.openRow key) path false d.root, path ++ [key]⟩
  | .entry path key v => do
    return { d with
      root := ← Item.update false (fun _ ↦ Item.assign path key v) d.current false d.root }

/-- The table that some pieces make up. -/
def ofLines? (lines : List Line) : Option Toml := do
  let d ← lines.foldlM Draft.add {}
  return (Item.table false false d.root).toToml

end BslLint.Toml
