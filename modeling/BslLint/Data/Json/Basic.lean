/-!
# JSON values

The values of the JSON data format, and how they are written. An object keeps its members in the
order in which they were given, repetitions included; who reads an object decides what a repetition
means.

There are two written forms. The compact one has no white space at all; the other puts every item on
a line of its own, two spaces deeper than what holds it.
-/

namespace BslLint

/-- A JSON value. Numbers that are written without a point and without an exponent are integers as
long as they fit into 64 bits. -/
inductive Json where
  | null
  | bool (b : Bool)
  | int (n : Int)
  | float (x : Float)
  | str (s : String)
  | arr (items : List Json)
  | obj (members : List (String × Json))
  deriving Repr, Inhabited

namespace Json

/-! ### Strings -/

/-- A digit of a hexadecimal number, in small letters. -/
def hexDigit (n : Nat) : Char := "0123456789abcdef".toList.getD n '0'

/-- A character inside of a string. Quotes, backslashes and control characters are escaped, the
latter by a letter where they have one; the delete character is no control character here. -/
def escape (c : Char) : List Char :=
  match c with
  | '"' => ['\\', '"']
  | '\\' => ['\\', '\\']
  | '\n' => ['\\', 'n']
  | '\r' => ['\\', 'r']
  | '\t' => ['\\', 't']
  | '\x08' => ['\\', 'b']
  | '\x0c' => ['\\', 'f']
  | c =>
    if c.toNat < 32 then
      ['\\', 'u', '0', '0', hexDigit (c.toNat / 16), hexDigit (c.toNat % 16)]
    else [c]

/-- A string in its quotes. -/
def quote (s : String) : String :=
  String.ofList ('"' :: s.toList.flatMap escape ++ ['"'])

/-! ### Values -/

/-- A number that is no integer. Only finite ones can be written; the others are null. The digits
are chosen by `digits`. -/
def writeFloat (digits : Float → String) (x : Float) : String :=
  if x.isFinite then digits x else "null"

/-- A new line that begins with two spaces for every level. -/
def newLine (level : Nat) : String := String.ofList ('\n' :: List.replicate (2 * level) ' ')

section

variable (digits : Float → String)

mutual

/-- A value on a single line, without white space. -/
def compact : Json → String
  | null => "null"
  | bool b => if b then "true" else "false"
  | int n => toString n
  | float x => writeFloat digits x
  | str s => quote s
  | arr items => "[" ++ ",".intercalate (compactItems items) ++ "]"
  | obj members => "\x7b" ++ ",".intercalate (compactMembers members) ++ "\x7d"

/-- The items of an array, each on a single line. -/
def compactItems : List Json → List String
  | [] => []
  | v :: vs => compact v :: compactItems vs

/-- The members of an object, each on a single line. -/
def compactMembers : List (String × Json) → List String
  | [] => []
  | (k, v) :: vs => (quote k ++ ":" ++ compact v) :: compactMembers vs

end

mutual

/-- A value over several lines, the first of which begins at some level. Empty arrays and objects
stay on one line. -/
def pretty (level : Nat) : Json → String
  | null => "null"
  | bool b => if b then "true" else "false"
  | int n => toString n
  | float x => writeFloat digits x
  | str s => quote s
  | arr [] => "[]"
  | arr (v :: vs) =>
    "[" ++ newLine (level + 1) ++
      ("," ++ newLine (level + 1)).intercalate (prettyItems (level + 1) (v :: vs)) ++
      newLine level ++ "]"
  | obj [] => "\x7b\x7d"
  | obj (m :: ms) =>
    "\x7b" ++ newLine (level + 1) ++
      ("," ++ newLine (level + 1)).intercalate (prettyMembers (level + 1) (m :: ms)) ++
      newLine level ++ "\x7d"

/-- The items of an array, each beginning at some level. -/
def prettyItems (level : Nat) : List Json → List String
  | [] => []
  | v :: vs => pretty level v :: prettyItems level vs

/-- The members of an object, each beginning at some level. -/
def prettyMembers (level : Nat) : List (String × Json) → List String
  | [] => []
  | (k, v) :: vs => (quote k ++ ": " ++ pretty level v) :: prettyMembers level vs

end

end

/-! ### Members -/

/-- The value of the first member of a name. -/
def get? (name : String) : Json → Option Json
  | obj members => (members.find? (·.1 == name)).map (·.2)
  | _ => none

end Json

end BslLint
