import BslLint.Data.Yaml.Flow

/-!
# Reading YAML

`Yaml.read?` reads a text that holds one document. Outside of brackets the structure of a document
is told by columns. The members of a mapping begin at the same column, and what belongs to a member
begins further on; only the items of a sequence may begin where the mapping does whose value it is.

A value may be left out everywhere. A text without a document holds nothing, too.
-/

namespace BslLint.Yaml

/-! ### Blocks -/

/-- A key up to the colon behind it, on one line. -/
def key? (least : Nat) (cur : Cursor) : Option (Yaml × Cursor) := do
  let (ps, next) ← Properties.read? false Cursor.overBlanks cur
  let (key, next) ←
    if !ps.isEmpty && next.atIndicator ':' then some (ps.on empty next) else inline? least ps next
  let next := next.overBlanks
  if next.atIndicator ':' && next.endsKey cur.place then some (key, next) else none

/-- Whether a value has been left out: what follows belongs to something that it is inside of. The
items of a sequence may begin at column `dash`, all else at column `least`. -/
def isAbsent (least dash : Nat) (cur : Cursor) : Bool :=
  cur.atEnd ||
    (cur.keyAllowed && cur.column < least && !(cur.atIndicator '-' && dash ≤ cur.column))

mutual

/-- A value with all that belongs to it. -/
def node? : Nat → Nat → Nat → Properties → Cursor → Option (Yaml × Cursor)
  | 0, _, _, _, _ => none
  | fuel + 1, least, dash, ps, cur => do
    let cur := cur.toToken false
    if isAbsent least dash cur then return ps.on empty cur
    else if cur.keyAllowed && cur.atIndicator '-' then
      let (items, cur) ← items? fuel cur.column cur
      return ps.on (.sequence none items) cur
    else if cur.keyAllowed && (cur.atIndicator '?' || (key? least cur).isSome) then
      let (members, cur) ← members? fuel cur.column cur
      return ps.on (.mapping none members) cur
    else if cur.atProperty then
      let (ps, cur) ← ps.next? false cur
      node? fuel least dash ps cur
    else if cur.begins '|' || cur.begins '>' then
      let (v, cur) ← block? least cur
      return ps.on v cur
    else inline? least ps cur

/-- The items of a sequence whose dashes are at a column. -/
def items? : Nat → Nat → Cursor → Option (List Yaml × Cursor)
  | 0, _, _ => none
  | fuel + 1, column, cur => do
    let (item, cur) ← node? fuel (column + 1) (column + 1) {} (cur.advance 1 true)
    let cur := cur.toToken false
    if !cur.atEnd && cur.keyAllowed && cur.column = column && cur.atIndicator '-' then
      let (items, cur) ← items? fuel column cur
      return (item :: items, cur)
    else return ([item], cur)

/-- The members of a mapping whose keys are at a column. -/
def members? : Nat → Nat → Cursor → Option (List (Yaml × Yaml) × Cursor)
  | 0, _, _ => none
  | fuel + 1, column, cur => do
    let (member, cur) ←
      if cur.atIndicator '?' then explicitMember? fuel column cur
      else do
        let (key, cur) ← key? (column + 1) cur
        let (value, cur) ← node? fuel (column + 1) column {} (cur.advance 1 false)
        some ((key, value), cur)
    let cur := cur.toToken false
    if cur.atEnd || cur.column < column then return ([member], cur)
    else if cur.keyAllowed && cur.column = column then
      let (members, cur) ← members? fuel column cur
      return (member :: members, cur)
    else none

/-- A member whose key follows a question mark. -/
def explicitMember? : Nat → Nat → Cursor → Option ((Yaml × Yaml) × Cursor)
  | 0, _, _ => none
  | fuel + 1, column, cur => do
    let (key, cur) ← node? fuel (column + 1) column {} (cur.advance 1 true)
    let cur := cur.toToken false
    if cur.keyAllowed && cur.column = column && cur.atIndicator ':' then
      let (value, cur) ← node? fuel (column + 1) column {} (cur.advance 1 true)
      return ((key, value), cur)
    else return ((key, empty), cur)

end

/-! ### Documents -/

/-- Whether a character may stand in a text. -/
def isPrintable (c : Char) : Bool :=
  let n := c.toNat
  n = 0x09 || n = 0x0a || n = 0x0d || n = 0x85 || (0x20 ≤ n && n ≤ 0x7e) ||
    (0xa0 ≤ n && n ≤ 0xfffd && n ≠ 0xfeff) || 0x10000 ≤ n

/-- Writes every end of a line in the same way. -/
def unifyLines : List Char → List Char
  | [] => []
  | '\r' :: '\n' :: rest => '\n' :: unifyLines rest
  | c :: rest => (if c = '\r' || c = '\u0085' then '\n' else c) :: unifyLines rest

/-- The characters of a text without the mark in front, if all of them may stand there. -/
def chars? (s : String) : Option (List Char) :=
  let cs := match s.toList with
    | '\ufeff' :: cs => cs
    | cs => cs
  if cs.all isPrintable then some (unifyLines cs) else none

/-- Whether a line that begins with a percent sign may stand in front of a document. -/
def isDirective (line : List Char) : Bool :=
  let words := ((String.ofList (line.takeWhile (· != '#'))).split isBlank).toList.map (·.toString)
  match words.filter (· != "") with
  | ["%YAML", version] => version == "1.1" || version == "1.2"
  | "%TAG" :: args => args.length == 2
  | _ => false

/-- Moves over the lines in front of a document, and says whether there are any. -/
def directives? : Nat → Bool → Cursor → Option (Bool × Cursor)
  | 0, _, _ => none
  | fuel + 1, seen, cur =>
    let cur := cur.toToken false
    if cur.column = 0 && cur.begins '%' then
      let line := cur.rest.takeWhile (· != '\n')
      if isDirective line then directives? fuel true (cur.advance line.length true) else none
    else some (seen, cur)

/-- Whether nothing follows but ends of documents. -/
def isDone : Nat → Cursor → Bool
  | 0, _ => false
  | fuel + 1, cur =>
    let cur := cur.toToken false
    cur.rest.isEmpty ||
      (cur.column = 0 && cur.begins '.' && beginsMarker cur.rest &&
        isDone fuel (cur.advance 3 false))

/-- The value that a text holds. -/
def read? (s : String) : Option Yaml := do
  let cs ← chars? s
  let fuel := 8 * cs.length + 8
  let (seen, cur) ← directives? fuel false ⟨cs, ⟨0, 0, 0⟩, true, []⟩
  let isMarked := cur.column = 0 && cur.begins '-' && beginsMarker cur.rest
  if (seen && !isMarked) || (cur.atEnd && !isMarked && !cur.rest.isEmpty) then none
  else
    let cur := if isMarked then cur.advance 3 false else cur
    let (v, cur) ← node? fuel 0 0 {} cur
    if isDone fuel cur then some v else none

end BslLint.Yaml
