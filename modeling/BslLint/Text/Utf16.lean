import BslLint.Text.Number

/-!
# Texts in units of 16 bits

A character takes one unit, or two of them that are otherwise not used. What is no text is read as
far as possible, with a replacement character for each unit that has lost its other half, and one
for bytes at the end that make no unit.
-/

namespace BslLint.Text

/-- What stands for something that could not be read. -/
def replacement : Char := '\ufffd'

/-- Which byte of a unit comes first. -/
inductive ByteOrder where
  /-- The lower one. -/
  | little
  /-- The higher one. -/
  | big
  deriving DecidableEq, Repr

namespace Utf16

/-! ### Writing -/

/-- The units of a character. -/
def units (c : Char) : List Nat :=
  let n := c.toNat
  if n < 0x10000 then [n]
  else [0xd800 + (n - 0x10000) / 0x400, 0xdc00 + (n - 0x10000) % 0x400]

/-- The bytes of a unit. -/
def bytes (order : ByteOrder) (unit : Nat) : List UInt8 :=
  let low := (unit % 0x100).toUInt8
  let high := (unit / 0x100).toUInt8
  match order with
  | .little => [low, high]
  | .big => [high, low]

/-- The bytes of a text. -/
def encode (order : ByteOrder) (cs : List Char) : List UInt8 :=
  (cs.flatMap units).flatMap (bytes order)

/-! ### Reading -/

/-- The unit that two bytes make. -/
def unit (order : ByteOrder) (a b : UInt8) : Nat :=
  match order with
  | .little => a.toNat + 0x100 * b.toNat
  | .big => 0x100 * a.toNat + b.toNat

/-- Whether a unit is the first half of a character. -/
def isHigh (unit : Nat) : Bool := 0xd800 ≤ unit && unit < 0xdc00

/-- Whether a unit is the second half of a character. -/
def isLow (unit : Nat) : Bool := 0xdc00 ≤ unit && unit < 0xe000

/-- What is read of a unit that does not follow a first half: a character, or the first half of
one. -/
def begin (unit : Nat) : List Char × Option Nat :=
  if isHigh unit then ([], some unit)
  else if isLow unit then ([replacement], none)
  else ([Char.ofNat unit], none)

/-- The character of two halves. -/
def joined (high low : Nat) : Char :=
  Char.ofNat (0x10000 + 0x400 * (high - 0xd800) + (low - 0xdc00))

/-- The text of some bytes that may follow the first half of a character. -/
def decode (order : ByteOrder) : Option Nat → List UInt8 → List Char
  | none, [] => []
  | some _, [] => [replacement]
  | _, [_] => [replacement]
  | none, a :: b :: rest =>
    let (cs, half) := begin (unit order a b)
    cs ++ decode order half rest
  | some high, a :: b :: rest =>
    let low := unit order a b
    if isLow low then joined high low :: decode order none rest
    else
      let (cs, half) := begin low
      replacement :: (cs ++ decode order half rest)

end Utf16

end BslLint.Text
