import BslLint.Data.Decimal
import BslLint.Data.Toml.Basic

/-!
# Writing TOML

A value can be written inside of a line (`Toml.inline`), and a table can be written as a document
(`Toml.document`): first the values of the table, a line each, then its tables under headings of
their own. A heading is left out where it would have no line below it, unless the table is empty. In
a document an array of several items has a line for each of them, and an array of nothing but tables
is a row of tables under one heading.

In both forms the simple values of a table come first, then arrays with tables in them, then tables.

A string is written in the plainest notation that can hold it: quotes without escapes, apostrophes,
three quotes, three apostrophes, and quotes with escapes if nothing else will do.
-/

namespace BslLint.Toml

/-! ### Strings -/

/-- The longest run of a character in a text. -/
def longestRun (c : Char) (text : List Char) : Nat :=
  (text.foldl (fun (longest, current) d ↦
    if d = c then (max longest (current + 1), current + 1) else (longest, 0)) (0, 0)).1

/-- Whether a character cannot stand in a string without an escape. The tab and the line feed
can. -/
def needsEscape (c : Char) : Bool :=
  (c.toNat < 32 && c != '\t' && c != '\n') || c == '\x7f'

/-- A hexadecimal digit in capitals. -/
def hexDigit (n : Nat) : Char := "0123456789ABCDEF".toList.getD n '0'

/-- An escape by number. -/
def numbered (c : Char) : List Char :=
  ['\\', 'u', '0', '0', hexDigit (c.toNat / 16), hexDigit (c.toNat % 16)]

/-- The inside of a string in quotes. Up to `free` quotes in a row stand for themselves, and line
feeds do where `lines` says so; `quotes` counts the quotes just before. -/
def escaped (free : Nat) (lines : Bool) (quotes : Nat) : List Char → List Char
  | [] => []
  | c :: cs =>
    if c = '"' then
      if free < quotes + 1 then '\\' :: '"' :: escaped free lines 0 cs
      else '"' :: escaped free lines (quotes + 1) cs
    else
      (match c with
        | '\x08' => ['\\', 'b']
        | '\t' => ['\\', 't']
        | '\n' => if lines then ['\n'] else ['\\', 'n']
        | '\x0c' => ['\\', 'f']
        | '\r' => ['\\', 'r']
        | '\\' => ['\\', '\\']
        | c => if needsEscape c then numbered c else [c]) ++ escaped free lines 0 cs

/-- A string in quotes. -/
def quoted (text : List Char) : List Char := '"' :: escaped 0 false 0 text ++ ['"']

/-- A string in apostrophes. -/
def literal (text : List Char) : List Char := '\'' :: text ++ ['\'']

/-- What begins a string over several lines: a new line, if there are several. -/
def opening (text : List Char) : List Char := if text.contains '\n' then ['\n'] else []

/-- A string in three quotes. -/
def tripleQuoted (text : List Char) : List Char :=
  ['"', '"', '"'] ++ opening text ++ escaped 2 true 0 text ++ ['"', '"', '"']

/-- A string in three apostrophes. -/
def tripleLiteral (text : List Char) : List Char :=
  ['\'', '\'', '\''] ++ opening text ++ text ++ ['\'', '\'', '\'']

/-- A string in the plainest notation on one line, if `oneLine` says so or it has one line, and over
several lines otherwise. -/
def writeString (oneLine : Bool) (s : String) : String :=
  let text := s.toList
  let control := text.any needsEscape
  let lines := text.contains '\n'
  let backslash := text.contains '\\'
  let quotes := longestRun '"' text
  let apostrophes := longestRun '\'' text
  String.ofList <|
    if !control && !backslash && quotes = 0 && !lines then quoted text
    else if !control && apostrophes = 0 && !lines then literal text
    else if oneLine then quoted text
    else if !control && !backslash && quotes ≤ 2 then tripleQuoted text
    else if !control && apostrophes ≤ 2 then tripleLiteral text
    else if lines then tripleQuoted text
    else quoted text

/-- Whether a character may stand in a key without quotes. -/
def isBareKeyChar (c : Char) : Bool :=
  ('a' ≤ c && c ≤ 'z') || ('A' ≤ c && c ≤ 'Z') || ('0' ≤ c && c ≤ '9') || c == '_' || c == '-'

/-- A key, in quotes where it has to be. -/
def writeKey (key : String) : String :=
  if !key.isEmpty && key.toList.all isBareKeyChar then key else writeString true key

/-! ### Numbers and dates -/

/-- The names that floats without digits have. -/
def floatNames : Decimal.Names := ⟨"inf", "nan"⟩

/-- A float. It is never written with an exponent. -/
def writeFloat (x : Float) : String := Decimal.positional floatNames x

/-- A number with zeros in front up to some length. -/
def padded (length n : Nat) : String :=
  let ds := Decimal.digitsOf n
  String.ofList (List.replicate (length - ds.length) '0' ++ ds)

/-- A day. -/
def Date.write (d : Date) : String :=
  padded 4 d.year ++ "-" ++ padded 2 d.month ++ "-" ++ padded 2 d.day

/-- A time of day; a fraction of a second has no zeros at its end. -/
def Time.write (t : Time) : String :=
  padded 2 t.hour ++ ":" ++ padded 2 t.minute ++ ":" ++ padded 2 t.second ++
    if t.nanosecond = 0 then ""
    else
      let ds := (padded 9 t.nanosecond).toList
      "." ++ String.ofList (ds.reverse.dropWhile (· == '0')).reverse

/-- An offset. -/
def Offset.write : Offset → String
  | .utc => "Z"
  | .minutes n =>
    (if n < 0 then "-" else "+") ++ padded 2 (n.natAbs / 60) ++ ":" ++ padded 2 (n.natAbs % 60)

/-- A date, a time, or both. -/
def Datetime.write (d : Datetime) : String :=
  (match d.date with
    | some day => day.write
    | none => "") ++
  (match d.time with
    | some time => (if d.date.isSome then "T" else "") ++ time.write
    | none => "") ++
  (match d.offset with
    | some offset => offset.write
    | none => "")

/-! ### Values -/

/-- The entries of a table in the order in which they are written. -/
def ordered (entries : List (String × Toml)) : List (String × Toml) :=
  entries.filter (fun e ↦ !e.2.isTable && !e.2.isArrayWithTables) ++
    entries.filter (·.2.isArrayWithTables) ++ entries.filter (·.2.isTable)

section

-- Whether arrays have a line for each item.
variable (lines : Bool)

/-- The items of an array in their brackets. -/
def bracketed (items : List String) : String :=
  match lines, items with
  | true, _ :: _ :: _ => "[" ++ String.join (items.map fun s ↦ "\n    " ++ s ++ ",") ++ "\n]"
  | _, items => "[" ++ ", ".intercalate items ++ "]"

/-- The entries of a table in their braces. -/
def braced (entries : List (String × String)) : String :=
  if entries.isEmpty then "\x7b\x7d"
  else "\x7b " ++ ", ".intercalate (entries.map fun (k, s) ↦ writeKey k ++ " = " ++ s) ++ " \x7d"

mutual

/-- A value as it stands behind an equals sign. -/
def write : Toml → String
  | str s => writeString false s
  | int n => toString n
  | float x => writeFloat x
  | bool b => if b then "true" else "false"
  | datetime d => d.write
  | array items => bracketed lines (writeItems items)
  | table entries =>
    let written := writeEntries entries
    braced ((ordered entries).map fun e ↦ (e.1, (KeyMap.find? written e.1).getD ""))

/-- The items of an array. -/
def writeItems : List Toml → List String
  | [] => []
  | v :: vs => write v :: writeItems vs

/-- The values of the entries of a table. -/
def writeEntries : List (String × Toml) → List (String × String)
  | [] => []
  | (k, v) :: es => (k, write v) :: writeEntries es

end

end

/-- A value inside of a line. -/
def inline (v : Toml) : String := write false v

/-! ### Documents -/

/-- The tables of an array of nothing but tables, if there is at least one. -/
def tables? : Toml → Option (List (List (String × Toml)))
  | array (v :: vs) => (v :: vs).mapM fun
    | table entries => some entries
    | _ => none
  | _ => none

/-- Whether a value gets headings of its own in a document. -/
def hasHeading (v : Toml) : Bool := v.isTable || (tables? v).isSome

/-- The lines of the entries that get no headings. -/
def valueLines (entries : List (String × Toml)) : List String :=
  (entries.filter fun e ↦ !hasHeading e.2).map fun (k, v) ↦ writeKey k ++ " = " ++ write true v

/-- How a part of a document is headed. -/
inductive Heading where
  /-- The document itself has no heading. -/
  | root
  /-- A table. -/
  | table
  /-- One of a row of tables. -/
  | item

/-- A part of a document: a heading, if it has one, and lines below. -/
structure Part where
  /-- The heading, without the empty line before it. -/
  heading : Option String
  /-- The lines. -/
  lines : List String

mutual

/-- The parts of a table and all tables in it. -/
def partsOf (heading : Heading) (path : List String) : Nat → List (String × Toml) → List Part
  | 0, _ => []
  | depth + 1, entries =>
    let lines := valueLines entries
    let name := ".".intercalate (path.map writeKey)
    let own := match heading with
      | .root => [⟨none, lines⟩]
      | .item => [⟨some ("[[" ++ name ++ "]]"), lines⟩]
      | .table =>
        if lines.isEmpty && !entries.isEmpty then [] else [⟨some ("[" ++ name ++ "]"), lines⟩]
    own ++ partsBelow path depth (ordered entries)

/-- The parts of the tables among some entries. -/
def partsBelow (path : List String) (depth : Nat) : List (String × Toml) → List Part
  | [] => []
  | (k, v) :: es =>
    (match v, tables? v with
      | table entries, _ => partsOf .table (path ++ [k]) depth entries
      | _, some rows => rows.flatMap (partsOf .item (path ++ [k]) depth)
      | _, none => []) ++ partsBelow path depth es

end

mutual

/-- How deep tables and arrays are nested. -/
def depth : Toml → Nat
  | array items => depthItems items + 1
  | table entries => depthEntries entries + 1
  | _ => 0

/-- The greatest depth among some items. -/
def depthItems : List Toml → Nat
  | [] => 0
  | v :: vs => max (depth v) (depthItems vs)

/-- The greatest depth among some entries. -/
def depthEntries : List (String × Toml) → Nat
  | [] => 0
  | (_, v) :: es => max (depth v) (depthEntries es)

end

/-- The text of the parts of a document: an empty line goes before each heading but the one that
begins the document. -/
def joinParts (begun : Bool) : List Part → String
  | [] => ""
  | ⟨none, lines⟩ :: ps =>
    String.join (lines.map (· ++ "\n")) ++ joinParts (begun || !lines.isEmpty) ps
  | ⟨some heading, lines⟩ :: ps =>
    (if begun then "\n" else "") ++ heading ++ "\n" ++ String.join (lines.map (· ++ "\n")) ++
      joinParts true ps

/-- A table as a document. -/
def document (entries : List (String × Toml)) : String :=
  joinParts false (partsOf .root [] (depth (table entries) + 1) entries)

end BslLint.Toml
