import BslLint.Data.Yaml.Cursor
import BslLint.Text.Number

/-!
# Scalars in a YAML text

The four notations of scalars: plain, in quotes, in apostrophes, and in a block of lines. In the
first three, lines are folded: a single new line becomes a space, of several new lines one is left
out, and the white space around them does not count. `Gap` is what has been seen since the last
character that counts.
-/

namespace BslLint.Yaml

/-- White space between characters that count. -/
inductive Gap where
  /-- White space on one line, the last character first. -/
  | blanks (cs : List Char)
  /-- Some new lines. -/
  | breaks (n : Nat)
  /-- Some new lines after one that was escaped. -/
  | continued (n : Nat)

namespace Gap

/-- The gap before anything has been seen. -/
def none : Gap := blanks []

/-- The gap with one more character of white space. -/
def blank (c : Char) : Gap → Gap
  | blanks cs => blanks (c :: cs)
  | gap => gap

/-- The gap with one more new line. -/
def newLine : Gap → Gap
  | blanks _ => breaks 1
  | breaks n => breaks (n + 1)
  | continued n => continued (n + 1)

/-- Whether there are new lines in the gap. -/
def hasBreaks : Gap → Bool
  | blanks _ => false
  | _ => true

/-- What stands for the gap in the text, last character first. -/
def folded : Gap → List Char
  | blanks cs => cs
  | breaks 1 => [' ']
  | breaks n => List.replicate (n - 1) '\n'
  | continued n => List.replicate n '\n'

end Gap

/-! ### Plain scalars -/

/-- The characters that have a meaning inside of brackets. -/
def isFlowIndicator (c : Char) : Bool := [',', '[', ']', '\x7b', '\x7d'].contains c

/-- Whether a plain scalar ends before a character, given what follows. -/
def endsPlain (inFlow : Bool) (c : Char) (rest : List Char) : Bool :=
  (c == ':' && beginsBlank rest) || (inFlow && isFlowIndicator c)

/-- Whether a colon makes a plain scalar in brackets invalid. -/
def isBadColon (inFlow : Bool) (c : Char) (rest : List Char) : Bool :=
  inFlow && c == ':' && match rest with
    | d :: _ => isFlowIndicator d || d == '?'
    | [] => false

/-- The text of a plain scalar, last character first, and what follows. Its lines begin at column
`least` or further on. -/
def plainBody? (inFlow : Bool) (least : Nat) (text : List Char) (gap : Gap) (boundary : Bool)
    (place : Place) : List Char → Option (List Char × List Char × Place × Bool)
  | [] => some (text, [], place, gap.hasBreaks)
  | c :: rest =>
    if isBlank c then
      if gap.hasBreaks && place.column < least && c = '\t' then none
      else plainBody? inFlow least text (gap.blank c) true (place.step c) rest
    else if c = '\n' then plainBody? inFlow least text gap.newLine true (place.step c) rest
    else if boundary && (c = '#' || (!inFlow && place.column < least) ||
        (place.column = 0 && beginsMarker (c :: rest))) then
      some (text, c :: rest, place, gap.hasBreaks)
    else if isBadColon inFlow c rest then none
    else if endsPlain inFlow c rest then some (text, c :: rest, place, gap.hasBreaks)
    else plainBody? inFlow least (c :: (gap.folded ++ text)) .none false (place.step c) rest

/-- A plain scalar. -/
def plain? (inFlow : Bool) (least : Nat) (cur : Cursor) : Option (Yaml × Cursor) := do
  let (text, rest, place, fresh) ← plainBody? inFlow least [] .none false cur.place cur.rest
  return (.scalar true none (String.ofList text.reverse),
    { cur with rest, place, keyAllowed := fresh })

/-- The characters that no plain scalar begins with. -/
def isIndicator (c : Char) : Bool :=
  ['-', '?', ':', ',', '[', ']', '\x7b', '\x7d', '#', '&', '*', '!', '|', '>', '\'', '"', '%', '@',
    '\x60'].contains c

/-- Whether a plain scalar begins here. -/
def beginsPlain (inFlow : Bool) : List Char → Bool
  | [] => false
  | c :: rest =>
    !(isIndicator c || isBlank c) || (c == '-' && !beginsBlank rest) ||
      (!inFlow && (c == '?' || c == ':') && !beginsBlank rest)

/-! ### Quoted scalars -/

/-- The text of a scalar in apostrophes, last character first, and what follows. -/
def singleBody? (text : List Char) (gap : Gap) (place : Place) :
    List Char → Option (List Char × List Char × Place)
  | [] => none
  | '\'' :: '\'' :: rest =>
    singleBody? ('\'' :: (gap.folded ++ text)) .none ((place.step '\'').step '\'') rest
  | c :: rest =>
    if place.column = 0 && beginsMarker (c :: rest) then none
    else if c = '\'' then some (gap.folded ++ text, rest, place.step c)
    else if isBlank c then singleBody? text (gap.blank c) (place.step c) rest
    else if c = '\n' then singleBody? text gap.newLine (place.step c) rest
    else singleBody? (c :: (gap.folded ++ text)) .none (place.step c) rest

/-- The character of an escape by one letter. -/
def letterEscape? : Char → Option Char
  | '0' => some '\x00'
  | 'a' => some '\x07'
  | 'b' => some '\x08'
  | 't' | '\t' => some '\t'
  | 'n' => some '\n'
  | 'v' => some '\x0b'
  | 'f' => some '\x0c'
  | 'r' => some '\x0d'
  | 'e' => some '\x1b'
  | ' ' => some ' '
  | '"' => some '"'
  | '/' => some '/'
  | '\\' => some '\\'
  | 'N' => some '\u0085'
  | '_' => some '\u00a0'
  | 'L' => some '\u2028'
  | 'P' => some '\u2029'
  | _ => none

/-- The character of an escape by number. -/
def numberEscape? (ds : List Char) : Option Char := do Text.scalar? (← Text.hexNumber? ds)

/-- The text of a scalar in quotes, last character first, and what follows. -/
def doubleBody? (text : List Char) (gap : Gap) (place : Place) :
    List Char → Option (List Char × List Char × Place)
  | [] => none
  | '\\' :: '\n' :: rest => doubleBody? (gap.folded ++ text) (.continued 0) (place.step '\n') rest
  | '\\' :: 'x' :: a :: b :: rest => do
    let c ← numberEscape? [a, b]
    doubleBody? (c :: (gap.folded ++ text)) .none
      ⟨place.line, place.column + 4, place.index + 4⟩ rest
  | '\\' :: 'u' :: a :: b :: c :: d :: rest => do
    let c ← numberEscape? [a, b, c, d]
    doubleBody? (c :: (gap.folded ++ text)) .none
      ⟨place.line, place.column + 6, place.index + 6⟩ rest
  | '\\' :: 'U' :: a :: b :: c :: d :: e :: f :: g :: h :: rest => do
    let c ← numberEscape? [a, b, c, d, e, f, g, h]
    doubleBody? (c :: (gap.folded ++ text)) .none
      ⟨place.line, place.column + 10, place.index + 10⟩ rest
  | '\\' :: e :: rest => do
    let c ← letterEscape? e
    doubleBody? (c :: (gap.folded ++ text)) .none
      ⟨place.line, place.column + 2, place.index + 2⟩ rest
  | c :: rest =>
    if place.column = 0 && beginsMarker (c :: rest) then none
    else if c = '"' then some (gap.folded ++ text, rest, place.step c)
    else if isBlank c then doubleBody? text (gap.blank c) (place.step c) rest
    else if c = '\n' then doubleBody? text gap.newLine (place.step c) rest
    else doubleBody? (c :: (gap.folded ++ text)) .none (place.step c) rest

/-- A scalar in quotes or in apostrophes. -/
def quoted? (cur : Cursor) : Option (Yaml × Cursor) := do
  let (text, rest, place) ← match cur.rest with
    | '\'' :: rest => singleBody? [] .none (cur.place.step '\'') rest
    | '"' :: rest => doubleBody? [] .none (cur.place.step '"') rest
    | _ => none
  return (.scalar false none (String.ofList text.reverse),
    { cur with rest, place, keyAllowed := false })

/-! ### Blocks of lines -/

/-- What becomes of the new lines at the end of a block. -/
inductive Chomping where
  | strip
  | clip
  | keep
  deriving DecidableEq

/-- The header of a block: what becomes of its end, how far it is indented, and what follows on the
line. -/
def blockHeader : List Char → Chomping × Option Nat × List Char
  | cs =>
    let digit? (cs : List Char) : Option Nat × List Char := match cs with
      | d :: rest => if '1' ≤ d && d ≤ '9' then (some (d.toNat - 48), rest) else (none, cs)
      | [] => (none, [])
    let sign? (cs : List Char) : Option Chomping × List Char := match cs with
      | '+' :: rest => (some .keep, rest)
      | '-' :: rest => (some .strip, rest)
      | cs => (none, cs)
    match sign? cs with
    | (some chomping, rest) => let (n, rest) := digit? rest; (chomping, n, rest)
    | (none, _) =>
      let (n, rest) := digit? cs
      let (chomping, rest) := sign? rest
      (chomping.getD .clip, n, rest)

/-- Moves over empty lines and the indentation of the line after them. The answer has the number of
empty lines and the greatest column that was seen. -/
def emptyLines? (indent : Option Nat) (lines greatest : Nat) (place : Place) :
    List Char → Option (Nat × Nat × Place × List Char)
  | [] => some (lines, max greatest place.column, place, [])
  | c :: rest =>
    let within := match indent with
      | some n => place.column < n
      | none => true
    if within && c = ' ' then emptyLines? indent lines greatest (place.step c) rest
    else if within && c = '\t' then none
    else if c = '\n' then
      emptyLines? indent (lines + 1) (max greatest place.column) (place.step c) rest
    else some (lines, max greatest place.column, place, c :: rest)

/-- The lines of a block, last character first. `ended` says that a new line has ended the line
before, `lines` is the number of empty lines after that, and `indented` says whether that line began
with white space. -/
def blockLines? (literal : Bool) (indent : Nat) (chomping : Chomping) :
    Nat → List Char → Bool → Nat →
    Bool → Place → List Char → Option (List Char × Place × List Char)
  | 0, _, _, _, _, _, _ => none
  | fuel + 1, text, ended, lines, indented, place, rest =>
    match rest with
    | c :: _ =>
      if place.column ≠ indent then finish text ended lines place rest
      else do
        let nowIndented := isBlank c
        let between :=
          if !literal && ended && !indented && !nowIndented then
            (if lines = 0 then [' '] else List.replicate lines '\n')
          else List.replicate (lines + if ended then 1 else 0) '\n'
        let line := rest.takeWhile (· != '\n')
        let place := line.foldl Place.step place
        let text := line.reverse ++ between ++ text
        match rest.dropWhile (· != '\n') with
        | [] => finish text false 0 place []
        | _ :: rest =>
          let (lines, _, place, rest) ← emptyLines? (some indent) 0 0 (place.step '\n') rest
          blockLines? literal indent chomping fuel text true lines nowIndented place rest
    | [] => finish text ended lines place []
where
  /-- Ends a block. -/
  finish (text : List Char) (ended : Bool) (lines : Nat) (place : Place) (rest : List Char) :
      Option (List Char × Place × List Char) :=
    let kept := match chomping with
      | .strip => 0
      | .clip => if ended then 1 else 0
      | .keep => lines + if ended then 1 else 0
    some (List.replicate kept '\n' ++ text, place, rest)

/-- A scalar in a block of lines, whose lines begin at column `least` or further on. -/
def block? (least : Nat) (cur : Cursor) : Option (Yaml × Cursor) := do
  let (literal, rest) ← match cur.rest with
    | '|' :: rest => some (true, rest)
    | '>' :: rest => some (false, rest)
    | _ => none
  let (chomping, given, rest) := blockHeader rest
  let rest := rest.dropWhile isBlank
  let rest := match rest with
    | '#' :: rest => rest.dropWhile (· != '\n')
    | rest => rest
  let start : Place :=
    ⟨cur.place.line + 1, 0, cur.place.index + (cur.rest.length - rest.length) + 1⟩
  let rest ← match rest with
    | [] => some []
    | '\n' :: rest => some rest
    | _ => none
  let indent := given.map fun n ↦ if 0 < least then least - 1 + n else n
  let (lines, greatest, place, rest) ← emptyLines? indent 0 0 start rest
  let indent := indent.getD (max greatest (max least 1))
  let (text, place, rest) ←
    blockLines? literal indent chomping (rest.length + 1) [] false lines false place rest
  return (.scalar false none (String.ofList text.reverse),
    { cur with rest, place, keyAllowed := true })

end BslLint.Yaml
