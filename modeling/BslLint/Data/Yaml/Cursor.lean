import BslLint.Data.Yaml.Basic

/-!
# Moving over a YAML text

A `Cursor` is the rest of a text together with the place where it begins. In this format the column
matters, and it matters whether a key may begin at a place: after a new line it may, and after a
value on the same line it may not.

`Cursor.toToken` moves over white space, new lines and comments. A tab counts as white space only
where no key may begin.
-/

namespace BslLint.Yaml

/-- A place in a text, by line, column, and number of characters before it. -/
structure Place where
  line : Nat
  column : Nat
  index : Nat
  deriving DecidableEq, Repr

/-- The place after one more character. -/
def Place.step (p : Place) (c : Char) : Place :=
  if c = '\n' then ⟨p.line + 1, 0, p.index + 1⟩ else ⟨p.line, p.column + 1, p.index + 1⟩

/-- The rest of a text and what is known about its beginning. -/
structure Cursor where
  /-- The rest of the text. -/
  rest : List Char
  /-- Where it begins. -/
  place : Place
  /-- Whether a key may begin there. -/
  keyAllowed : Bool
  /-- The values that names have been given to, the latest first. -/
  anchors : List (String × Yaml)

/-- White space inside of a line. -/
def isBlank (c : Char) : Bool := c == ' ' || c == '\t'

/-- Whether a text is at its end, or begins with white space or a new line. -/
def beginsBlank : List Char → Bool
  | [] => true
  | c :: _ => isBlank c || c == '\n'

/-- Whether a text begins with a mark between documents. -/
def beginsMarker : List Char → Bool
  | '-' :: '-' :: '-' :: rest => beginsBlank rest
  | '.' :: '.' :: '.' :: rest => beginsBlank rest
  | _ => false

/-- Moves over white space, new lines and comments. -/
def skip (inFlow inComment keyAllowed : Bool) (place : Place) (anchors : List (String × Yaml)) :
    List Char → Cursor
  | [] => ⟨[], place, keyAllowed, anchors⟩
  | c :: rest =>
    if c = '\n' then skip inFlow false (keyAllowed || !inFlow) (place.step c) anchors rest
    else if inComment then skip inFlow true keyAllowed (place.step c) anchors rest
    else if c = ' ' || (c = '\t' && (inFlow || !keyAllowed)) then
      skip inFlow false keyAllowed (place.step c) anchors rest
    else if c = '#' then skip inFlow true keyAllowed (place.step c) anchors rest
    else ⟨c :: rest, place, keyAllowed, anchors⟩

namespace Cursor

/-- The column where the rest begins. -/
def column (cur : Cursor) : Nat := cur.place.column

/-- Moves to the next thing that is not white space or a comment. -/
def toToken (inFlow : Bool) (cur : Cursor) : Cursor :=
  skip inFlow false cur.keyAllowed cur.place cur.anchors cur.rest

/-- Moves over white space inside of a line. -/
def overBlanks (cur : Cursor) : Cursor :=
  let blanks := cur.rest.takeWhile isBlank
  { cur with
    rest := cur.rest.drop blanks.length
    place := blanks.foldl Place.step cur.place }

/-- Whether nothing of the document follows. -/
def atEnd (cur : Cursor) : Bool :=
  cur.rest.isEmpty || (cur.column = 0 && beginsMarker cur.rest)

/-- Whether the rest begins with a character that white space follows. -/
def atIndicator (c : Char) (cur : Cursor) : Bool :=
  match cur.rest with
  | d :: rest => d == c && beginsBlank rest
  | [] => false

/-- Whether the rest begins with a character. -/
def begins (c : Char) (cur : Cursor) : Bool := cur.rest.head? == some c

/-- Moves over some characters, behind which a key is allowed or not. -/
def advance (n : Nat) (keyAllowed : Bool) (cur : Cursor) : Cursor :=
  { cur with
    rest := cur.rest.drop n
    place := (cur.rest.take n).foldl Place.step cur.place
    keyAllowed }

/-- Whether a key that began at a place can end here: it is on one line and not too long. -/
def endsKey (start : Place) (cur : Cursor) : Bool :=
  start.line = cur.place.line && cur.place.index ≤ start.index + 1024

end Cursor

end BslLint.Yaml
