/-!
# Decimal texts of doubles

A finite double is a whole number times a power of two, and every real number near enough to it is
read as that double. The decimal text of a double is the shortest one among those, and of the
shortest ones the nearest. `Decimal.shortest` finds it: for one digit, two digits and so on it tries
the two neighbours of the value among the decimal numbers of that length, all in exact arithmetic on
natural numbers. Seventeen digits always suffice.

Two ways of writing the digits are used: `Decimal.positional` never writes an exponent, and
`Decimal.general` does where the number is very large or very small.
-/

namespace BslLint.Decimal

/-- The whole number and the power of two that a positive finite double is the product of. -/
def decode (x : Float) : Nat × Int :=
  let bits : Nat := x.toBits.toNat
  let exponent : Nat := bits / Nat.pow 2 52 % 2048
  let fraction : Nat := bits % Nat.pow 2 52
  if exponent = 0 then (fraction, -1074) else (fraction + Nat.pow 2 52, (exponent : Int) - 1075)

/-- A fraction with a positive denominator. -/
structure Ratio where
  /-- Above the line. -/
  num : Nat
  /-- Below the line. -/
  den : Nat

/-- A whole number times a power of two. -/
def Ratio.ofBinary (m : Nat) (q : Int) : Ratio :=
  if 0 ≤ q then ⟨m * Nat.pow 2 q.toNat, 1⟩ else ⟨m, Nat.pow 2 q.natAbs⟩

/-- A whole number times a power of ten. -/
def Ratio.ofDecimal (d : Nat) (k : Int) : Ratio :=
  if 0 ≤ k then ⟨d * Nat.pow 10 k.toNat, 1⟩ else ⟨d, Nat.pow 10 k.natAbs⟩

/-- Whether one fraction is less than another. -/
def Ratio.lt (r s : Ratio) : Bool := r.num * s.den < s.num * r.den

/-- The distance between two fractions. -/
def Ratio.dist (r s : Ratio) : Ratio :=
  let a := r.num * s.den
  let b := s.num * r.den
  ⟨(a - b) + (b - a), r.den * s.den⟩

/-- How many decimal digits a number has, zero having none. -/
def digitCount (n : Nat) : Nat := if n = 0 then 0 else (Nat.toDigits 10 n).length

/-- The exponent of the leading decimal digit of a positive fraction that is at least `10 ^ -400`.
-/
def leading (r : Ratio) : Int := (digitCount (r.num * Nat.pow 10 400 / r.den) : Int) - 401

/-- Whether a decimal number is read as the double `m * 2 ^ q`. The interval of such numbers reaches
half way to the neighbouring doubles; the lower one is nearer where `m` is a power of two. The ends
belong to the interval of an even `m`. -/
def readsAs (m : Nat) (q : Int) (r : Ratio) : Bool :=
  let low :=
    if m = Nat.pow 2 52 && -1074 < q then Ratio.ofBinary (4 * m - 1) (q - 2)
    else Ratio.ofBinary (2 * m - 1) (q - 1)
  let high := Ratio.ofBinary (2 * m + 1) (q - 1)
  if m % 2 = 0 then !r.lt low && !high.lt r else low.lt r && r.lt high

/-- The neighbour of a value, among the multiples of `10 ^ k`, that is read as the double; of two
the nearer one, and the lower one if they are equally near. -/
def onGrid? (m : Nat) (q k : Int) : Option Nat :=
  let v := Ratio.ofBinary m q
  let low :=
    if 0 ≤ k then v.num / (v.den * Nat.pow 10 k.toNat) else v.num * Nat.pow 10 k.natAbs / v.den
  let below := Ratio.ofDecimal low k
  let above := Ratio.ofDecimal (low + 1) k
  match readsAs m q below && 0 < low, readsAs m q above with
  | true, true => if (v.dist above).lt (v.dist below) then some (low + 1) else some low
  | true, false => some low
  | false, true => some (low + 1)
  | false, false => none

/-- Drops zeros from the end of a number and counts them in the exponent. -/
def trimZeros : Nat → Nat → Int → Nat × Int
  | 0, d, k => (d, k)
  | fuel + 1, d, k => if d % 10 = 0 && d ≠ 0 then trimZeros fuel (d / 10) (k + 1) else (d, k)

/-- Tries finer and finer grids, `fuel` of them at most. -/
def search : Nat → Nat → Int → Int → Nat × Int
  | 0, m, _, _ => (m, 0)
  | fuel + 1, m, q, k =>
    match onGrid? m q k with
    | some d => trimZeros 20 d k
    | none => search fuel m q (k - 1)

/-- The digits of a positive finite double as a number, and the power of ten to scale it by. -/
def shortest (x : Float) : Nat × Int :=
  let (m, q) := decode x
  search 18 m q (leading (.ofBinary m q))

/-- The digits of a natural number. -/
def digitsOf (n : Nat) : List Char := Nat.toDigits 10 n

/-- Digits with a point among them: `point` of the digits stand before it, and zeros fill up what is
missing on either side. -/
def withPoint (ds : List Char) (point : Int) : List Char × List Char :=
  if point ≤ 0 then (['0'], List.replicate point.natAbs '0' ++ ds)
  else
    let n := point.toNat
    (ds.take n ++ List.replicate (n - ds.length) '0', ds.drop n)

/-- The text of a positive finite double without an exponent; a whole number gets `.0`. -/
def positionalAbs (x : Float) : List Char :=
  let (d, k) := shortest x
  let ds := digitsOf d
  let (whole, fraction) := withPoint ds (ds.length + k)
  whole ++ '.' :: (if fraction.isEmpty then ['0'] else fraction)

/-- Texts of infinity, and of what is not a number. -/
structure Names where
  /-- How infinity is written. -/
  infinity : String
  /-- How a value that is not a number is written. -/
  notANumber : String

/-- Puts a sign in front of the text of the absolute value, and names what has no digits. -/
def signed (names : Names) (abs : Float → List Char) (x : Float) : String :=
  if x.isNaN then names.notANumber
  else
    let negative := x.toBits.toNat / Nat.pow 2 63 = 1
    let y := x.abs
    let body :=
      if y.isInf then names.infinity.toList
      else if y == 0 then ['0', '.', '0']
      else abs y
    String.ofList (if negative then '-' :: body else body)

/-- The text of a double without an exponent. -/
def positional (names : Names) : Float → String := signed names positionalAbs

/-- The text of a positive finite double: without an exponent from `0.0001` up to, but not
including, `10 ^ 16`, and with one outside of these bounds. -/
def generalAbs (x : Float) : List Char :=
  let (d, k) := shortest x
  let ds := digitsOf d
  let e : Int := ds.length + k - 1
  if -5 < e && e < 16 then positionalAbs x
  else
    let mantissa := match ds with
      | first :: [] => [first]
      | first :: rest => first :: '.' :: rest
      | [] => []
    let sign := if e < 0 then ['-'] else []
    mantissa ++ 'e' :: sign ++ digitsOf e.natAbs

/-- The text of a double, with an exponent where the number is very large or very small. -/
def general (names : Names) : Float → String := signed names generalAbs

/-- The double next to a number times a power of ten. What lies far outside of the range of doubles
is zero or infinity. -/
def nearest (digits : Nat) (exponent : Int) : Float :=
  let size : Int := (digitsOf digits).length + exponent
  if digits = 0 || size < -400 then 0
  else if 400 < size then 1 / 0
  else Float.ofScientific digits (exponent < 0) exponent.natAbs

end BslLint.Decimal
