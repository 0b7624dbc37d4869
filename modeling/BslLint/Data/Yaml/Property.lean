import BslLint.Data.Yaml.Cursor

/-!
# Names and tags in a YAML text

In front of a value there may be a name for it, after an ampersand, and a tag that says what it is
to be, after an exclamation mark, in any order and each once. An asterisk and the name stand for a
value that was given the name before.

A tag with two exclamation marks in front is one of those that the format itself knows.
-/

namespace BslLint.Yaml

/-- The name and the tag of a value. -/
structure Properties where
  /-- The name. -/
  anchor : Option String := none
  /-- The tag, which is empty where a lone exclamation mark stands. -/
  tag : Option String := none

/-- Whether a character may stand in a name. -/
def isNameChar (c : Char) : Bool := c.isAlphanum || c == '_' || c == '-'

/-- Whether a name may end before a text. -/
def endsName : List Char → Bool
  | [] => true
  | c :: rest =>
    beginsBlank (c :: rest) || ['?', ':', ',', ']', '\x7d', '%', '@', '\x60'].contains c

/-- The name at the beginning of a text. -/
def name? (cs : List Char) : Option String :=
  let name := cs.takeWhile isNameChar
  if name.isEmpty || !endsName (cs.drop name.length) then none else some (String.ofList name)

/-- Whether a character may stand in a tag. -/
def isTagChar (c : Char) : Bool := isNameChar c || ";/?:@&=+$.!~*'()%".toList.contains c

/-- What the tags of the format begin with. -/
def coreTag (name : String) : String := "tag:yaml.org,2002:" ++ name

/-- The tag at the beginning of a text, behind its first exclamation mark, and its length. -/
def tag? (inFlow : Bool) (cs : List Char) : Option (String × Nat) :=
  let body := cs.takeWhile isTagChar
  let rest := cs.drop body.length
  if !beginsBlank rest && !(inFlow && rest.head? == some ',') then none
  else match body with
    | [] => some ("", 0)
    | '!' :: name =>
      if name.isEmpty || name.contains '!' then none
      else some (coreTag (String.ofList name), body.length)
    | name => if name.contains '!' then none else some ("!" ++ String.ofList name, body.length)

/-- Whether a name or a tag for a value follows. -/
def Cursor.atProperty (cur : Cursor) : Bool := cur.begins '&' || cur.begins '!'

namespace Properties

/-- Whether there is neither a name nor a tag. -/
def isEmpty (ps : Properties) : Bool := ps.anchor.isNone && ps.tag.isNone

/-- Reads one more of the two. -/
def next? (inFlow : Bool) (ps : Properties) (cur : Cursor) : Option (Properties × Cursor) :=
  match cur.rest with
  | '&' :: rest => do
    let name ← name? rest
    if ps.anchor.isSome then none
    else some ({ ps with anchor := some name }, cur.advance (name.length + 1) false)
  | '!' :: rest => do
    let (tag, n) ← tag? inFlow rest
    if ps.tag.isSome then none
    else some ({ ps with tag := some tag }, cur.advance (n + 1) false)
  | _ => none

/-- Reads what there is of the two, moving over white space behind each. -/
def read? (inFlow : Bool) (move : Cursor → Cursor) (cur : Cursor) :
    Option (Properties × Cursor) := do
  if cur.atProperty then
    let (ps, cur) ← next? inFlow {} cur
    let cur := move cur
    if cur.atProperty then
      let (ps, cur) ← ps.next? inFlow cur
      return (ps, move cur)
    else return (ps, cur)
  else return ({}, cur)

/-- Gives a value its name and its tag. -/
def on (ps : Properties) (v : Yaml) (cur : Cursor) : Yaml × Cursor :=
  let v := match ps.tag with
    | none | some "" => v
    | some tag => v.withTag (some tag)
  match ps.anchor with
  | none => (v, cur)
  | some name => (v, { cur with anchors := (name, v) :: cur.anchors })

end Properties

/-- The value that a name stands for. -/
def alias? (cur : Cursor) : Option (Yaml × Cursor) := do
  let name ← name? (cur.rest.drop 1)
  return (← cur.anchors.lookup name, cur.advance (name.length + 1) false)

end BslLint.Yaml
