import BslLint.Data.Decimal
import BslLint.Data.Toml.Basic
import BslLint.Text.Number

/-!
# Reading numbers and dates of TOML

A number or a date is read as a whole: `Toml.scalar?` is given all characters up to the next one
that can be in none of them, and accepts them or not.

Digits may be grouped by single underscores. An integer does not begin with a needless zero, and it
fits into 64 bits. A float has a fraction or an exponent. A day exists in its month; a minute may
have a second number 60.
-/

namespace BslLint.Toml

/-! ### Numbers -/

/-- Digits without the underscores between them, of which there is at most one at a time. -/
def ungrouped? (isDigit : Char → Bool) : List Char → Option (List Char)
  | [] => none
  | [c] => if isDigit c then some [c] else none
  | c :: '_' :: rest => if isDigit c then (ungrouped? isDigit rest).map (c :: ·) else none
  | c :: rest => if isDigit c then (ungrouped? isDigit rest).map (c :: ·) else none

/-- Whether a number begins with a zero that could be left out. -/
def hasNeedlessZero : List Char → Bool
  | '0' :: _ :: _ => true
  | _ => false

/-- The digits of a whole number. -/
def whole? (cs : List Char) : Option (List Char) := do
  let ds ← ungrouped? Text.isDigit cs
  if hasNeedlessZero ds then none else some ds

/-- Whether there is a minus sign, and what follows the sign, if there is one. -/
def signed : List Char → Bool × List Char
  | '-' :: cs => (true, cs)
  | '+' :: cs => (false, cs)
  | cs => (false, cs)

/-- An integer that fits into 64 bits. -/
def inRange? (n : Int) : Option Int := if Text.fitsInt64 n then some n else none

/-- The value of a digit of a base. -/
def digitIn? (base : Nat) (c : Char) : Option Nat :=
  (Text.hexValue? c).filter (· < base)

/-- A number of a base, without a sign. -/
def inBase? (base : Nat) (cs : List Char) : Option Int := do
  let ds ← ungrouped? (fun c ↦ (digitIn? base c).isSome) cs
  inRange? (← ds.foldlM (fun (n : Nat) c ↦ (digitIn? base c).map (base * n + ·)) 0)

/-- An integer. -/
def integer? : List Char → Option Int
  | '0' :: 'x' :: ds => inBase? 16 ds
  | '0' :: 'o' :: ds => inBase? 8 ds
  | '0' :: 'b' :: ds => inBase? 2 ds
  | cs => do
    let (negative, cs) := signed cs
    let n : Int := Text.digitsValue (← whole? cs)
    inRange? (if negative then -n else n)

/-- Whether a character may stand among grouped digits. -/
def isGrouped (c : Char) : Bool := Text.isDigit c || c == '_'

/-- The exponent that ends a float. -/
def exponent? : List Char → Option Int
  | e :: cs =>
    if e = 'e' || e = 'E' then do
      let (negative, cs) := signed cs
      let n : Int := Text.digitsValue (← ungrouped? Text.isDigit cs)
      return if negative then -n else n
    else none
  | [] => none

/-- A float without its sign. -/
def unsignedFloat? (cs : List Char) : Option Float :=
  if cs = ['i', 'n', 'f'] then some (1 / 0)
  else if cs = ['n', 'a', 'n'] then some (0 / 0)
  else do
    let ds ← whole? (cs.takeWhile isGrouped)
    match cs.dropWhile isGrouped with
    | '.' :: rest =>
      let fs ← ungrouped? Text.isDigit (rest.takeWhile isGrouped)
      let e ← match rest.dropWhile isGrouped with
        | [] => some 0
        | rest => exponent? rest
      return Decimal.nearest (Text.digitsValue (ds ++ fs)) (e - fs.length)
    | rest => return Decimal.nearest (Text.digitsValue ds) (← exponent? rest)

/-- A float. A number that is too large for a double is accepted with a minus sign only. -/
def float? (cs : List Char) : Option Float := do
  let (negative, body) := signed cs
  let x ← unsignedFloat? body
  if negative then some (-x)
  else if x.isInf && body ≠ ['i', 'n', 'f'] then none
  else some x

/-! ### Dates -/

/-- The number of two digits, up to some greatest one. -/
def twoDigits? (max : Nat) (a b : Char) : Option Nat := (Text.natural? [a, b]).filter (· ≤ max)

/-- Whether a year has a day more in February. -/
def isLeapYear (year : Nat) : Bool := year % 4 = 0 && (year % 100 != 0 || year % 400 = 0)

/-- The number of days of a month. -/
def daysInMonth (year month : Nat) : Nat :=
  if month = 2 then (if isLeapYear year then 29 else 28)
  else if [4, 6, 9, 11].contains month then 30
  else 31

/-- A day at the front of a text, and what follows. -/
def date? : List Char → Option (Date × List Char)
  | a :: b :: c :: d :: '-' :: e :: f :: '-' :: g :: h :: rest => do
    let year ← Text.natural? [a, b, c, d]
    let month ← (twoDigits? 12 e f).filter (0 < ·)
    let day ← (twoDigits? (daysInMonth year month) g h).filter (0 < ·)
    return (⟨year, month, day⟩, rest)
  | _ => none

/-- A fraction of a second in nanoseconds; digits after the ninth are left out. -/
def nanoseconds (ds : List Char) : Nat :=
  let ds := ds.take 9
  Text.digitsValue (ds ++ List.replicate (9 - ds.length) '0')

/-- A time of day at the front of a text, and what follows. -/
def time? : List Char → Option (Time × List Char)
  | a :: b :: ':' :: c :: d :: ':' :: e :: f :: rest => do
    let hour ← twoDigits? 23 a b
    let minute ← twoDigits? 59 c d
    let second ← twoDigits? 60 e f
    match rest with
    | '.' :: rest =>
      let ds := rest.takeWhile Text.isDigit
      if ds.isEmpty then none
      else some (⟨hour, minute, second, nanoseconds ds⟩, rest.dropWhile Text.isDigit)
    | rest => some (⟨hour, minute, second, 0⟩, rest)
  | _ => none

/-- The offset that a text is. -/
def offset? : List Char → Option Offset
  | ['Z'] | ['z'] => some .utc
  | [s, a, b, ':', c, d] => do
    let n := (← twoDigits? 23 a b) * 60 + (← twoDigits? 59 c d)
    if s = '+' then some (.minutes n) else if s = '-' then some (.minutes (-n)) else none
  | _ => none

/-- A date, a time, or both. -/
def datetime? (cs : List Char) : Option Datetime :=
  match date? cs with
  | some (day, []) => some ⟨some day, none, none⟩
  | some (day, t :: rest) =>
    if t = 'T' || t = 't' || t = ' ' then do
      let (time, rest) ← time? rest
      match rest with
      | [] => return ⟨some day, some time, none⟩
      | rest => return ⟨some day, some time, some (← offset? rest)⟩
    else none
  | none =>
    match time? cs with
    | some (time, []) => some ⟨none, some time, none⟩
    | _ => none

/-! ### Scalars -/

/-- What is neither a string nor holds other values. -/
def scalar? (cs : List Char) : Option Toml :=
  if cs = ['t', 'r', 'u', 'e'] then some (.bool true)
  else if cs = ['f', 'a', 'l', 's', 'e'] then some (.bool false)
  else
    match datetime? cs with
    | some d => some (.datetime d)
    | none =>
      match integer? cs with
      | some n => some (.int n)
      | none => (float? cs).map .float

end BslLint.Toml
