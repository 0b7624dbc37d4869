import BslLint.Data.Decimal
import BslLint.Text.Number

/-!
# Plain scalars of YAML

What a plain scalar stands for. Digits with a needless zero in front are no number but a text, and
so is a number that no double comes near to. Integers may be given to base 16, 8 or 2.
-/

namespace BslLint.Yaml

/-- What a plain scalar stands for. -/
inductive Plain where
  | null
  | bool (b : Bool)
  | int (n : Int)
  | float (x : Float)
  | text
  deriving Repr

/-- Whether a text is a word for nothing. -/
def isNullWord (s : String) : Bool := ["null", "Null", "NULL", "~"].contains s

/-- The truth value that a text is a word for. -/
def bool? (s : String) : Option Bool :=
  if ["true", "True", "TRUE"].contains s then some true
  else if ["false", "False", "FALSE"].contains s then some false
  else none

/-- Whether a text is a row of digits with a needless zero in front. -/
def isPaddedDigits (cs : List Char) : Bool :=
  let cs := match cs with
    | '-' :: ds => ds
    | '+' :: ds => ds
    | ds => ds
  match cs with
  | '0' :: d :: ds => (d :: ds).all Text.isDigit
  | _ => false

/-- The number of digits to a base, of which there is at least one. -/
def inBase? (base : Nat) (ds : List Char) : Option Nat :=
  if ds.isEmpty then none
  else ds.foldlM (fun n c ↦ ((Text.hexValue? c).filter (· < base)).map (base * n + ·)) 0

/-- A number without a sign, with a prefix for its base. -/
def prefixed? : List Char → Option Nat
  | '0' :: 'x' :: ds => inBase? 16 ds
  | '0' :: 'o' :: ds => inBase? 8 ds
  | '0' :: 'b' :: ds => inBase? 2 ds
  | _ => none

/-- A number that is not negative. -/
def natural? (cs : List Char) : Option Nat :=
  let body := match cs with
    | '+' :: ds => ds
    | ds => ds
  match prefixed? body with
  | some n => some n
  | none => if isPaddedDigits cs then none else Text.natural? body

/-- An integer. -/
def integer? (cs : List Char) : Option Int :=
  match natural? cs, cs with
  | some n, _ => some n
  | none, '-' :: ds =>
    match prefixed? ds with
    | some n => some (-n)
    | none => if isPaddedDigits cs then none else (Text.natural? ds).map fun n ↦ -n
  | none, _ => none

/-- The exponent that ends a number. -/
def exponent? : List Char → Option Int
  | [] => some 0
  | e :: cs =>
    if e = 'e' || e = 'E' then
      match cs with
      | '-' :: ds => (Text.natural? ds).map fun n ↦ -n
      | '+' :: ds => (Text.natural? ds).map Int.ofNat
      | ds => (Text.natural? ds).map Int.ofNat
    else none

/-- A decimal number without a sign. -/
def decimal? (cs : List Char) : Option Float := do
  let whole := cs.takeWhile Text.isDigit
  let (fraction, rest) := match cs.dropWhile Text.isDigit with
    | '.' :: rest => (rest.takeWhile Text.isDigit, rest.dropWhile Text.isDigit)
    | rest => ([], rest)
  if whole.isEmpty && fraction.isEmpty then none
  else
    let x := Decimal.nearest (Text.digitsValue (whole ++ fraction))
      ((← exponent? rest) - fraction.length)
    if x.isInf then none else some x

/-- A floating-point number. -/
def float? (cs : List Char) : Option Float :=
  let s := String.ofList cs
  let body := match cs with
    | '+' :: ds => ds
    | ds => ds
  if [".inf", ".Inf", ".INF"].contains (String.ofList body) then some (1 / 0)
  else if ["-.inf", "-.Inf", "-.INF"].contains s then some (-1 / 0)
  else if [".nan", ".NaN", ".NAN"].contains s then some (0 / 0)
  else match cs with
    | '-' :: ds => (decimal? ds).map fun x ↦ -x
    | _ => decimal? body

/-- What a plain scalar stands for. -/
def plain (s : String) : Plain :=
  if s.isEmpty || isNullWord s then .null
  else
    match bool? s with
    | some b => .bool b
    | none =>
      let cs := s.toList
      match (integer? cs).filter (fun (n : Int) ↦ -Nat.pow 2 127 ≤ n && n < Nat.pow 2 128) with
      | some n => .int n
      | none =>
        if isPaddedDigits cs then .text
        else match float? cs with
          | some x => .float x
          | none => .text

end BslLint.Yaml
