import BslLint.Text.Utf16

/-!
# Texts in units of 8 bits

A character takes one to four bytes. What is almost a text is read as far as possible: bytes that
cannot begin a character, and bytes that begin one without ending it, are read as one replacement
character each time; the byte that did not fit may begin a character of its own.
-/

namespace BslLint.Text.Utf8

/-- The bytes of a text. -/
def encode (cs : List Char) : List UInt8 := cs.flatMap String.utf8EncodeChar

/-- A character that has begun. -/
structure Pending where
  /-- The number of bytes that are still to come. -/
  missing : Nat
  /-- The least value of the next byte. -/
  low : Nat
  /-- The greatest value of the next byte. -/
  high : Nat
  /-- The number that has been read so far. -/
  value : Nat

/-- What is read of a byte that may begin a character: a character, or the beginning of one. -/
def begin (b : Nat) : List Char × Option Pending :=
  if b < 0x80 then ([Char.ofNat b], none)
  else if 0xc2 ≤ b && b < 0xe0 then ([], some ⟨1, 0x80, 0xbf, b - 0xc0⟩)
  else if 0xe0 ≤ b && b < 0xf0 then
    ([], some ⟨2, if b = 0xe0 then 0xa0 else 0x80, if b = 0xed then 0x9f else 0xbf, b - 0xe0⟩)
  else if 0xf0 ≤ b && b < 0xf5 then
    ([], some ⟨3, if b = 0xf0 then 0x90 else 0x80, if b = 0xf4 then 0x8f else 0xbf, b - 0xf0⟩)
  else ([replacement], none)

/-- What is read of a byte that goes on with a character. -/
def Pending.next (p : Pending) (b : Nat) : List Char × Option Pending :=
  let value := 0x40 * p.value + (b - 0x80)
  if p.missing ≤ 1 then ([Char.ofNat value], none)
  else ([], some ⟨p.missing - 1, 0x80, 0xbf, value⟩)

/-- What is read of a byte that may follow the beginning of a character. -/
def step (pending : Option Pending) (b : Nat) : List Char × Option Pending :=
  match pending with
  | none => begin b
  | some p =>
    if p.low ≤ b && b ≤ p.high then p.next b
    else
      let (cs, pending) := begin b
      (replacement :: cs, pending)

/-- The text of some bytes, as far as they are one. -/
def lossy : Option Pending → List UInt8 → List Char
  | none, [] => []
  | some _, [] => [replacement]
  | pending, b :: rest =>
    let (cs, pending) := step pending b.toNat
    cs ++ lossy pending rest

end BslLint.Text.Utf8
