import BslLint.Data.Yaml.Property
import BslLint.Data.Yaml.Text

/-!
# Values on a line of YAML

Inside of brackets neither lines nor columns matter, but for a key, which must end on the line that
it begins on. A sequence in brackets may have an item that is a mapping with one member and no
braces.
-/

namespace BslLint.Yaml

/-- An entry in brackets: a value, and what it is the key of. -/
abbrev FlowEntry := Yaml × Option Yaml

/-- An entry as the item of a sequence. -/
def FlowEntry.item : FlowEntry → Yaml
  | (v, none) => v
  | (key, some value) => .mapping none [(key, value)]

/-- An entry as a member of a mapping. -/
def FlowEntry.member (e : FlowEntry) : Yaml × Yaml := (e.1, e.2.getD empty)

mutual

/-- A value inside of brackets. -/
def flowNode? : Nat → Cursor → Option (Yaml × Cursor)
  | 0, _ => none
  | fuel + 1, cur => do
    let (ps, cur) ← Properties.read? true (Cursor.toToken true) (cur.toToken true)
    if cur.column = 0 && beginsMarker cur.rest then none
    else flowContent? fuel ps cur

/-- A value behind its name and its tag. -/
def flowContent? : Nat → Properties → Cursor → Option (Yaml × Cursor)
  | 0, _, _ => none
  | fuel + 1, ps, cur => do
    match cur.rest with
    | [] => none
    | c :: rest =>
      if c = '*' then (if ps.isEmpty then alias? cur else none)
      else if c = '[' then
        let (entries, cur) ← flowEntries? fuel ']' (cur.advance 1 true)
        return ps.on (.sequence none (entries.map FlowEntry.item)) cur
      else if c = '\x7b' then
        let (entries, cur) ← flowEntries? fuel '\x7d' (cur.advance 1 true)
        return ps.on (.mapping none (entries.map FlowEntry.member)) cur
      else if c = '\'' || c = '"' then
        let (v, cur) ← quoted? cur
        return ps.on v cur
      else if beginsPlain true (c :: rest) then
        let (v, cur) ← plain? true 0 cur
        return ps.on v cur
      else if !ps.isEmpty && [',', ':', ']', '\x7d'].contains c then return ps.on empty cur
      else none

/-- The entries up to a closing bracket, which is moved over. -/
def flowEntries? : Nat → Char → Cursor → Option (List FlowEntry × Cursor)
  | 0, _, _ => none
  | fuel + 1, closing, cur => do
    let cur := cur.toToken true
    if cur.begins closing then return ([], cur.advance 1 false)
    else
      let (entry, cur) ← flowEntry? fuel closing cur
      let cur := cur.toToken true
      if cur.begins closing then return ([entry], cur.advance 1 false)
      else if cur.begins ',' then
        let (entries, cur) ← flowEntries? fuel closing (cur.advance 1 true)
        return (entry :: entries, cur)
      else none

/-- One entry. After a question mark a key may have several lines. -/
def flowEntry? : Nat → Char → Cursor → Option (FlowEntry × Cursor)
  | 0, _, _ => none
  | fuel + 1, closing, cur => do
    let start := cur.place
    let isExplicit := cur.begins '?'
    let (key, cur) ←
      if isExplicit then flowPart? fuel closing (cur.advance 1 false) else flowNode? fuel cur
    let cur := cur.toToken true
    if cur.begins ':' && (isExplicit || cur.endsKey start) then
      let (value, cur) ← flowPart? fuel closing (cur.advance 1 false)
      return ((key, some value), cur)
    else return ((key, if isExplicit then some empty else none), cur)

/-- A key or a value, either of which may be left out. -/
def flowPart? : Nat → Char → Cursor → Option (Yaml × Cursor)
  | 0, _, _ => none
  | fuel + 1, closing, cur =>
    let cur := cur.toToken true
    if cur.begins closing || cur.begins ',' || cur.begins ':' then some (empty, cur)
    else flowNode? fuel cur

end

/-- A value other than a block: an alias, a scalar or a value in brackets. The lines of a plain
scalar begin at column `least` or further on. -/
def inline? (least : Nat) (ps : Properties) (cur : Cursor) : Option (Yaml × Cursor) :=
  if beginsPlain false cur.rest then
    (plain? false least cur).map fun (v, cur) ↦ ps.on v cur
  else if [',', ':', ']', '\x7d'].any cur.begins then none
  else flowContent? (5 * cur.rest.length + 5) ps cur

end BslLint.Yaml
