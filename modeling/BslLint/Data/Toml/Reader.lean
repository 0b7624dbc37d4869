import BslLint.Data.Toml.Scalar
import BslLint.Data.Toml.Section
import BslLint.Data.Toml.Writer

/-!
# Reading TOML

`Toml.read?` reads a document and gives its table. It accepts the grammar of version 1.0 of the
format: strings in four notations, dotted keys, arrays over several lines, tables inside of a line
and under headings. Arrays and tables in brackets may be nested 79 levels deep, and a key has at
most 79 parts.
-/

namespace BslLint.Toml

namespace Reader

/-! ### White space and comments -/

/-- White space inside of a line. -/
def isBlank (c : Char) : Bool := c == ' ' || c == '\t'

/-- A text without the white space of the line in front. -/
def skipBlank (cs : List Char) : List Char := cs.dropWhile isBlank

/-- Whether a character may stand in a string or a comment. -/
def isPlain (c : Char) : Bool := c == '\t' || (32 ≤ c.toNat && c.toNat ≠ 127)

/-- A text without the rest of its first line, where only a comment may be. -/
def endLine? (cs : List Char) : Option (List Char) :=
  let cs := skipBlank cs
  let cs := match cs with
    | '#' :: rest => rest.dropWhile isPlain
    | cs => cs
  match cs with
  | [] => some []
  | '\n' :: rest => some rest
  | '\x0d' :: '\n' :: rest => some rest
  | _ => none

/-- A text without white space, new lines and comments in front. -/
def skipLines (comment : Bool) : List Char → List Char
  | [] => []
  | '\n' :: rest => skipLines false rest
  | '\x0d' :: '\n' :: rest => skipLines false rest
  | c :: rest =>
    if comment then (if isPlain c then skipLines true rest else c :: rest)
    else if isBlank c then skipLines false rest
    else if c = '#' then skipLines true rest
    else c :: rest

/-! ### Strings -/

/-- The character of an escape by one letter. -/
def letterEscape? : Char → Option Char
  | 'b' => some '\x08'
  | 't' => some '\t'
  | 'n' => some '\n'
  | 'f' => some '\x0c'
  | 'r' => some '\x0d'
  | '"' => some '"'
  | '\\' => some '\\'
  | _ => none

/-- The character of an escape by number. -/
def numberEscape? (ds : List Char) : Option Char := do Text.scalar? (← Text.hexNumber? ds)

/-- Puts a character before the characters of a string that is read further on. -/
def before (c : Char) (rest : Option (List Char × List Char)) : Option (List Char × List Char) :=
  rest.map fun (cs, rest) ↦ (c :: cs, rest)

/-- The characters of a string on one line after its opening quote, and what follows the closing
one. -/
def quotedBody? : List Char → Option (List Char × List Char)
  | [] => none
  | '"' :: rest => some ([], rest)
  | '\\' :: 'u' :: a :: b :: c :: d :: rest => do
    before (← numberEscape? [a, b, c, d]) (quotedBody? rest)
  | '\\' :: 'U' :: a :: b :: c :: d :: e :: f :: g :: h :: rest => do
    before (← numberEscape? [a, b, c, d, e, f, g, h]) (quotedBody? rest)
  | '\\' :: c :: rest => do before (← letterEscape? c) (quotedBody? rest)
  | c :: rest => if isPlain c then before c (quotedBody? rest) else none

/-- The characters of a string on one line in apostrophes, and what follows. -/
def literalBody? : List Char → Option (List Char × List Char)
  | [] => none
  | '\'' :: rest => some ([], rest)
  | c :: rest => if isPlain c then before c (literalBody? rest) else none

/-- What happens to white space in a string over several lines. -/
inductive Folding where
  /-- It belongs to the string. -/
  | kept
  /-- A backslash has come before it, and a new line has to follow. -/
  | lineEnd
  /-- It is left out. -/
  | dropped
  deriving DecidableEq

/-- Goes on with a string after `quotes` quotes in a row: one or two of them belong to it, and the
last three of three to five end it, before the text `here`. -/
def afterQuotes (quote : Char) (quotes : Nat) (here : List Char)
    (goOn : Unit → Option (List Char × List Char)) : Option (List Char × List Char) :=
  if quotes < 3 then
    (goOn ()).map fun (cs, rest) ↦ (List.replicate quotes quote ++ cs, rest)
  else if quotes ≤ 5 then some (List.replicate (quotes - 3) quote, here)
  else none

/-- The characters of a string over several lines after `quotes` quotes in a row, and what follows
the string. Only in quotes, not in apostrophes, are there escapes. -/
def tripleBody? (quote : Char) (folding : Folding) (quotes : Nat) :
    List Char → Option (List Char × List Char)
  | [] => afterQuotes quote quotes [] fun _ ↦ none
  | '\x0d' :: '\n' :: rest =>
    afterQuotes quote quotes ('\x0d' :: '\n' :: rest) fun _ ↦
      if folding = .kept then before '\n' (tripleBody? quote .kept 0 rest)
      else tripleBody? quote .dropped 0 rest
  | '\\' :: 'u' :: a :: b :: c :: d :: rest =>
    afterQuotes quote quotes ('\\' :: 'u' :: a :: b :: c :: d :: rest) fun _ ↦
      if folding = .lineEnd then none
      else if quote = '"' then do
        before (← numberEscape? [a, b, c, d]) (tripleBody? quote .kept 0 rest)
      else before '\\' (tripleBody? quote .kept 0 ('u' :: a :: b :: c :: d :: rest))
  | '\\' :: 'U' :: a :: b :: c :: d :: e :: f :: g :: h :: rest =>
    afterQuotes quote quotes ('\\' :: 'U' :: a :: b :: c :: d :: e :: f :: g :: h :: rest) fun _ ↦
      if folding = .lineEnd then none
      else if quote = '"' then do
        before (← numberEscape? [a, b, c, d, e, f, g, h]) (tripleBody? quote .kept 0 rest)
      else
        before '\\' (tripleBody? quote .kept 0
          ('U' :: a :: b :: c :: d :: e :: f :: g :: h :: rest))
  | '\\' :: c :: rest =>
    afterQuotes quote quotes ('\\' :: c :: rest) fun _ ↦
      if folding = .lineEnd then none
      else if quote ≠ '"' then before '\\' (tripleBody? quote .kept 0 (c :: rest))
      else
        match letterEscape? c with
        | some d => before d (tripleBody? quote .kept 0 rest)
        | none => tripleBody? quote .lineEnd 0 (c :: rest)
  | c :: rest =>
    if c = quote && folding ≠ .lineEnd then tripleBody? quote .kept (quotes + 1) rest
    else
      afterQuotes quote quotes (c :: rest) fun _ ↦
        if c = '\n' then
          if folding = .kept then before '\n' (tripleBody? quote .kept 0 rest)
          else tripleBody? quote .dropped 0 rest
        else if isBlank c && folding ≠ .kept then tripleBody? quote folding 0 rest
        else if folding = .lineEnd || !isPlain c then none
        else before c (tripleBody? quote .kept 0 rest)

/-- A text without a new line in front. -/
def skipNewLine : List Char → List Char
  | '\n' :: rest => rest
  | '\x0d' :: '\n' :: rest => rest
  | cs => cs

/-- A string as a value. -/
def asString (read : List Char × List Char) : Toml × List Char :=
  (.str (String.ofList read.1), read.2)

/-! ### Keys -/

/-- A part of a key at the front of a text, and what follows. -/
def keyPart? : List Char → Option (String × List Char)
  | '"' :: rest => (quotedBody? rest).map fun (cs, rest) ↦ (String.ofList cs, rest)
  | '\'' :: rest => (literalBody? rest).map fun (cs, rest) ↦ (String.ofList cs, rest)
  | cs =>
    let key := cs.takeWhile isBareKeyChar
    if key.isEmpty then none else some (String.ofList key, cs.dropWhile isBareKeyChar)

/-- The parts of a key before the last one, the last one, and what follows. A key has at most
`parts` parts. -/
def key? : Nat → List Char → Option (List String × String × List Char)
  | 0, _ => none
  | parts + 1, cs => do
    let (part, rest) ← keyPart? (skipBlank cs)
    match skipBlank rest with
    | '.' :: rest =>
      let (path, key, rest) ← key? parts rest
      return (part :: path, key, rest)
    | rest => return ([], part, rest)

/-- The most parts that a key may have. -/
def maxParts : Nat := 79

/-! ### Values -/

/-- Whether a character may stand in a number or a date. -/
def isScalarChar (c : Char) : Bool := isBareKeyChar c || c == '+' || c == '.' || c == ':'

/-- Whether a time of day seems to follow a day after a space. -/
def timeFollows : List Char → Bool
  | ' ' :: a :: b :: ':' :: _ => Text.isDigit a && Text.isDigit b
  | _ => false

/-- The characters of a number or a date at the front of a text, and what follows. -/
def scalarChars (cs : List Char) : List Char × List Char :=
  let (word, rest) := cs.span isScalarChar
  match date? word, timeFollows rest with
  | some (_, []), true =>
    let (more, rest) := (rest.drop 1).span isScalarChar
    (word ++ ' ' :: more, rest)
  | _, _ => (word, rest)

mutual

/-- A value at the front of a text, and what follows. It may hold values `depth` levels deep; `fuel`
bounds the characters read. -/
def value? : Nat → Nat → List Char → Option (Toml × List Char)
  | 0, _, _ => none
  | fuel + 1, depth, cs =>
    match cs with
    | '"' :: '"' :: '"' :: rest => (tripleBody? '"' .kept 0 (skipNewLine rest)).map asString
    | '\'' :: '\'' :: '\'' :: rest => (tripleBody? '\'' .kept 0 (skipNewLine rest)).map asString
    | '"' :: rest => (quotedBody? rest).map asString
    | '\'' :: rest => (literalBody? rest).map asString
    | '[' :: rest =>
      match depth with
      | 0 => none
      | depth + 1 => (items? fuel depth rest).map fun (vs, rest) ↦ (.array vs, rest)
    | '\x7b' :: rest =>
      match depth with
      | 0 => none
      | depth + 1 => do
        let (lines, rest) ← match skipBlank rest with
          | '\x7d' :: rest => some ([], rest)
          | rest => entries? fuel depth rest
        return (← ofLines? lines, rest)
    | cs => do
      let (word, rest) := scalarChars cs
      return (← scalar? word, rest)

/-- The items of an array up to its closing bracket. -/
def items? : Nat → Nat → List Char → Option (List Toml × List Char)
  | 0, _, _ => none
  | fuel + 1, depth, cs =>
    match skipLines false cs with
    | ']' :: rest => some ([], rest)
    | cs => do
      let (v, rest) ← value? fuel depth cs
      match skipLines false rest with
      | ']' :: rest => return ([v], rest)
      | ',' :: rest =>
        let (vs, rest) ← items? fuel depth rest
        return (v :: vs, rest)
      | _ => none

/-- The entries of a table inside of a line up to its closing brace, at least one. -/
def entries? : Nat → Nat → List Char → Option (List Line × List Char)
  | 0, _, _ => none
  | fuel + 1, depth, cs => do
    let (path, key, rest) ← key? maxParts cs
    match rest with
    | '=' :: rest =>
      let (v, rest) ← value? fuel depth (skipBlank rest)
      match skipBlank rest with
      | '\x7d' :: rest => return ([.entry path key v], rest)
      | ',' :: rest =>
        let (lines, rest) ← entries? fuel depth rest
        return (.entry path key v :: lines, rest)
      | _ => none
    | _ => none

end

/-- How many levels deep values may be nested. -/
def maxDepth : Nat := 79

/-! ### Documents -/

/-- The piece of a document at the front of a text, and what follows it in its line. -/
def line? (cs : List Char) : Option (Line × List Char) :=
  match cs with
  | '[' :: '[' :: rest => do
    let (path, key, rest) ← key? maxParts rest
    match rest with
    | ']' :: ']' :: rest => return (.rowHeading path key, rest)
    | _ => none
  | '[' :: rest => do
    let (path, key, rest) ← key? maxParts rest
    match rest with
    | ']' :: rest => return (.heading path key, rest)
    | _ => none
  | cs => do
    let (path, key, rest) ← key? maxParts cs
    match rest with
    | '=' :: rest =>
      let (v, rest) ← value? (2 * rest.length + 2) maxDepth (skipBlank rest)
      return (.entry path key v, rest)
    | _ => none

/-- The pieces of a document; `fuel` bounds the lines read. -/
def lines? : Nat → List Char → Option (List Line)
  | 0, cs => if cs.isEmpty then some [] else none
  | fuel + 1, cs =>
    match endLine? cs with
    | some [] => some []
    | some rest => lines? fuel rest
    | none => do
      let (line, rest) ← line? (skipBlank cs)
      return line :: (← lines? fuel (← endLine? rest))

end Reader

/-- The table that a document holds. -/
def read? (text : String) : Option Toml := do
  let cs := match text.toList with
    | '\uFEFF' :: rest => rest
    | cs => cs
  ofLines? (← Reader.lines? (cs.length + 1) cs)

end BslLint.Toml
