import BslLint.Data.Json.Basic
import BslLint.Text.Number

/-!
# Reading JSON

`Json.read?` reads a text that holds one JSON value and nothing else but white space. It accepts
exactly the grammar of the format: no trailing commas, no comments, no control characters inside of
strings, no half of a surrogate pair, no leading zeros. Values may be nested 127 levels deep.

A number with a point or an exponent, or one that does not fit into 64 bits, is read by scaling: as
many leading digits as fit into a 64-bit word are taken as an integer, which is then multiplied or
divided by a power of ten in double precision. That is not always the double next to the decimal
number.
-/

namespace BslLint.Json

namespace Reader

/-- White space between the tokens of the format. -/
def isBlank (c : Char) : Bool := c == ' ' || c == '\n' || c == '\t' || c == '\r'

/-- A text without the white space in front. -/
def skipBlank (cs : List Char) : List Char := cs.dropWhile isBlank

/-! ### Strings -/

/-- The value of four hexadecimal digits. -/
def unit? (a b c d : Char) : Option Nat := Text.hexNumber? [a, b, c, d]

/-- The character that two halves of a surrogate pair stand for. -/
def surrogatePair? (high low : Nat) : Option Char :=
  if 0xDC00 ≤ low && low < 0xE000 then
    some (Char.ofNat (0x10000 + (high - 0xD800) * 0x400 + (low - 0xDC00)))
  else none

/-- The characters of a string after its opening quote, and what follows the closing one. -/
def stringBody? : List Char → Option (List Char × List Char)
  | [] => none
  | '"' :: rest => some ([], rest)
  | '\\' :: 'u' :: a :: b :: c :: d :: rest => do
    let n ← unit? a b c d
    if 0xD800 ≤ n && n < 0xDC00 then
      match rest with
      | '\\' :: 'u' :: e :: f :: g :: h :: rest =>
        let ch ← surrogatePair? n (← unit? e f g h)
        let (cs, rest) ← stringBody? rest
        return (ch :: cs, rest)
      | _ => none
    else if 0xDC00 ≤ n && n < 0xE000 then none
    else
      let (cs, rest) ← stringBody? rest
      return (Char.ofNat n :: cs, rest)
  | '\\' :: c :: rest => do
    let ch ← match c with
      | '"' => some '"'
      | '\\' => some '\\'
      | '/' => some '/'
      | 'b' => some '\x08'
      | 'f' => some '\x0c'
      | 'n' => some '\n'
      | 'r' => some '\r'
      | 't' => some '\t'
      | _ => none
    let (cs, rest) ← stringBody? rest
    return (ch :: cs, rest)
  | '\\' :: [] => none
  | c :: rest => do
    if c.toNat < 32 then none
    else
      let (cs, rest) ← stringBody? rest
      return (c :: cs, rest)

/-! ### Numbers -/

/-- The largest number of 64 bits. -/
def maxWord : Nat := 0xFFFFFFFFFFFFFFFF

/-- Takes digits to a number as long as it fits into a word; the answer says how many digits were
left out. -/
def accumulate (start : Nat) (digits : List Char) : Nat × Nat :=
  digits.foldl (fun (n, dropped) c ↦
    if 0 < dropped then (n, dropped + 1)
    else
      let m := n * 10 + (c.toNat - 48)
      if maxWord < m then (n, 1) else (m, 0)) (start, 0)

/-- A power of ten in double precision. -/
def pow10 (n : Nat) : Float := Float.ofScientific 1 false n

/-- A whole number scaled by a power of ten, none if that is too large. -/
def scale? (significand : Nat) (exponent : Int) : Option Float :=
  let f := Float.ofNat significand
  if 0 ≤ exponent then
    if 308 < exponent then if significand = 0 then some f else none
    else
      let g := f * pow10 exponent.toNat
      if g.isInf then none else some g
  else
    let e := exponent.natAbs
    if e ≤ 308 then some (f / pow10 e)
    else if e ≤ 616 then some (f / pow10 308 / pow10 (e - 308))
    else if e ≤ 924 then some (f / pow10 308 / pow10 308 / pow10 (e - 616))
    else some 0

/-- The digits at the front of a text and what follows. -/
def digits (cs : List Char) : List Char × List Char := cs.span Text.isDigit

/-- The exponent behind a number: none if it is malformed, zero if there is none. -/
def exponent? (cs : List Char) : Option ((Bool × Nat × Bool) × List Char) :=
  match cs with
  | e :: rest =>
    if e = 'e' || e = 'E' then
      let (negative, rest) := match rest with
        | '+' :: rest => (false, rest)
        | '-' :: rest => (true, rest)
        | rest => (false, rest)
      let (ds, rest) := digits rest
      if ds.isEmpty then none else some ((negative, Text.digitsValue ds, true), rest)
    else some ((false, 0, false), cs)
  | [] => some ((false, 0, false), cs)

/-- The fraction behind a number: none if the point has no digit behind it. -/
def fraction? (cs : List Char) : Option ((List Char × Bool) × List Char) :=
  match cs with
  | '.' :: rest =>
    let (ds, rest) := digits rest
    if ds.isEmpty then none else some ((ds, true), rest)
  | _ => some (([], false), cs)

/-- A number from its parts. -/
def assemble? (negative : Bool) (whole fraction : List Char) (pointed : Bool)
    (exponent : Bool × Nat × Bool) : Option Json :=
  let (significand, dropped) := accumulate 0 whole
  let (expNegative, expValue, scaled) := exponent
  if !pointed && !scaled && dropped = 0 then
    if !negative then some (.int significand)
    else if significand = 0 then some (.float (-0.0))
    else if significand ≤ 0x8000000000000000 then some (.int (-significand))
    else some (.float (-(Float.ofNat significand)))
  else
    let (significand, unused) := accumulate significand fraction
    let used := fraction.length - unused
    let shift : Int := (dropped : Int) - used
    if 0x7FFFFFFF < expValue then
      if significand ≠ 0 && !expNegative then none
      else some (.float (if negative then -0.0 else 0.0))
    else
      let e : Int := if expNegative then shift - expValue else shift + expValue
      (scale? significand e).map fun x ↦ .float (if negative then -x else x)

/-- A number at the front of a text. -/
def number? (cs : List Char) : Option (Json × List Char) := do
  let (negative, cs) := match cs with
    | '-' :: rest => (true, rest)
    | cs => (false, cs)
  let (whole, rest) := digits cs
  if whole.isEmpty then none
  else if whole.head? = some '0' && 1 < whole.length then none
  else
    let ((fraction, pointed), rest) ← fraction? rest
    let (exponent, rest) ← exponent? rest
    return (← assemble? negative whole fraction pointed exponent, rest)

/-! ### Values -/

/-- A word of the format at the front of a text. -/
def word? (word : String) (value : Json) (cs : List Char) : Option (Json × List Char) :=
  if word.toList.isPrefixOf cs then some (value, cs.drop word.length) else none

mutual

/-- A value at the front of a text without white space there. It may hold values `depth` levels
deep; `fuel` bounds the characters read. -/
def value? : Nat → Nat → List Char → Option (Json × List Char)
  | 0, _, _ => none
  | fuel + 1, depth, cs =>
    match cs with
    | 'n' :: _ => word? "null" .null cs
    | 't' :: _ => word? "true" (.bool true) cs
    | 'f' :: _ => word? "false" (.bool false) cs
    | '"' :: rest => do
      let (s, rest) ← stringBody? rest
      return (.str (String.ofList s), rest)
    | '[' :: rest =>
      match depth with
      | 0 => none
      | depth + 1 =>
        match skipBlank rest with
        | ']' :: rest => some (.arr [], rest)
        | rest => do
          let (items, rest) ← items? fuel depth rest
          return (.arr items, rest)
    | '\x7b' :: rest =>
      match depth with
      | 0 => none
      | depth + 1 =>
        match skipBlank rest with
        | '\x7d' :: rest => some (.obj [], rest)
        | rest => do
          let (members, rest) ← members? fuel depth rest
          return (.obj members, rest)
    | _ => number? cs

/-- The items of an array up to its closing bracket, at least one. -/
def items? : Nat → Nat → List Char → Option (List Json × List Char)
  | 0, _, _ => none
  | fuel + 1, depth, cs => do
    let (v, rest) ← value? fuel depth cs
    match skipBlank rest with
    | ']' :: rest => return ([v], rest)
    | ',' :: rest =>
      let (vs, rest) ← items? fuel depth (skipBlank rest)
      return (v :: vs, rest)
    | _ => none

/-- The members of an object up to its closing brace, at least one. -/
def members? : Nat → Nat → List Char → Option (List (String × Json) × List Char)
  | 0, _, _ => none
  | fuel + 1, depth, cs =>
    match cs with
    | '"' :: rest => do
      let (k, rest) ← stringBody? rest
      match skipBlank rest with
      | ':' :: rest =>
        let (v, rest) ← value? fuel depth (skipBlank rest)
        match skipBlank rest with
        | '\x7d' :: rest => return ([(String.ofList k, v)], rest)
        | ',' :: rest =>
          let (vs, rest) ← members? fuel depth (skipBlank rest)
          return ((String.ofList k, v) :: vs, rest)
        | _ => none
      | _ => none
    | _ => none

end

end Reader

/-- The value that a text holds. -/
def read? (text : String) : Option Json := do
  let cs := text.toList
  let (v, rest) ← Reader.value? (2 * cs.length + 2) 127 (Reader.skipBlank cs)
  if (Reader.skipBlank rest).isEmpty then some v else none

end BslLint.Json
