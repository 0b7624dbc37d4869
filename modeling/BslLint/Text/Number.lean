/-!
# Numbers in texts

Digits here are those of ASCII, and an integer has 64 bits and may have a sign in front.
-/

namespace BslLint.Text

/-- Whether a character is a decimal digit. -/
def isDigit (c : Char) : Bool := '0' ≤ c && c ≤ '9'

/-- The number that some decimal digits stand for. -/
def digitsValue (ds : List Char) : Nat := ds.foldl (fun n c ↦ 10 * n + (c.toNat - 48)) 0

/-- The number that a text of nothing but decimal digits stands for. -/
def natural? (cs : List Char) : Option Nat :=
  if cs.isEmpty || !cs.all isDigit then none else some (digitsValue cs)

/-- Whether a number fits into 64 bits with a sign. -/
def fitsInt64 (n : Int) : Bool := -Nat.pow 2 63 ≤ n && n < Nat.pow 2 63

/-- The number of 64 bits that a text of digits, with or without a sign, stands for. -/
def integer? (cs : List Char) : Option Int := do
  let n : Int ← match cs with
    | '-' :: ds => (natural? ds).map fun n ↦ -(n : Int)
    | '+' :: ds => (natural? ds).map Int.ofNat
    | ds => (natural? ds).map Int.ofNat
  if fitsInt64 n then some n else none

/-- The value of a hexadecimal digit. -/
def hexValue? (c : Char) : Option Nat :=
  if isDigit c then some (c.toNat - 48)
  else if 'a' ≤ c && c ≤ 'f' then some (c.toNat - 87)
  else if 'A' ≤ c && c ≤ 'F' then some (c.toNat - 55)
  else none

/-- The number that some hexadecimal digits stand for. -/
def hexNumber? (ds : List Char) : Option Nat :=
  ds.foldlM (fun n c ↦ (hexValue? c).map (16 * n + ·)) 0

/-- The character of a number, none for halves of surrogate pairs and for numbers that are too
large. -/
def scalar? (n : Nat) : Option Char :=
  if h : n.isValidChar then some (Char.ofNatAux n h) else none

end BslLint.Text
