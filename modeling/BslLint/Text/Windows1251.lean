/-!
# Texts in Windows-1251

A byte is a character. The first 128 are those of ASCII, the last 64 the letters of the Russian
alphabet but one in their order, and what is between them is a table. A byte that no character has
been given to stands for the control character of the same number.
-/

namespace BslLint.Text.Windows1251

/-- The numbers of the characters from byte 128 to byte 191. -/
def table : List Nat :=
  [
    0x0402, 0x0403, 0x201a, 0x0453, 0x201e, 0x2026, 0x2020, 0x2021,
    0x20ac, 0x2030, 0x0409, 0x2039, 0x040a, 0x040c, 0x040b, 0x040f,
    0x0452, 0x2018, 0x2019, 0x201c, 0x201d, 0x2022, 0x2013, 0x2014,
    0x0098, 0x2122, 0x0459, 0x203a, 0x045a, 0x045c, 0x045b, 0x045f,
    0x00a0, 0x040e, 0x045e, 0x0408, 0x00a4, 0x0490, 0x00a6, 0x00a7,
    0x0401, 0x00a9, 0x0404, 0x00ab, 0x00ac, 0x00ad, 0x00ae, 0x0407,
    0x00b0, 0x00b1, 0x0406, 0x0456, 0x0491, 0x00b5, 0x00b6, 0x00b7,
    0x0451, 0x2116, 0x0454, 0x00bb, 0x0458, 0x0405, 0x0455, 0x0457
  ]

/-- The number of the character of a byte. -/
def number (b : UInt8) : Nat :=
  let n := b.toNat
  if n < 0x80 then n else if n < 0xc0 then table.getD (n - 0x80) 0 else 0x410 + (n - 0xc0)

/-- The character of a byte. -/
def char (b : UInt8) : Char := Char.ofNat (number b)

/-- The byte of a character. -/
def byte? (c : Char) : Option UInt8 :=
  ((List.range 256).map (·.toUInt8)).find? fun b ↦ char b == c

/-- The bytes of a text, if all of its characters have one. -/
def encode? (cs : List Char) : Option (List UInt8) := cs.mapM byte?

/-- The text of some bytes. -/
def decode (bytes : List UInt8) : List Char := bytes.map char

end BslLint.Text.Windows1251
