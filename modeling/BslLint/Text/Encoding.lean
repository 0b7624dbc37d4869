import BslLint.Text.Utf8
import BslLint.Text.Windows1251

/-!
# Bytes as texts

A file does not say how its text is written. A mark at the beginning tells of units of 16 bits and
their byte order. Without one, bytes that are a text in units of 8 bits are taken for it, and all
others for Windows-1251, unless a mark says that they were meant to be in units of 8 bits.

The mark is no part of the text. Of several marks the encodings with units of 16 bits and the
damaged text with units of 8 bits take away two.
-/

namespace BslLint.Text

/-- The character that tells of the order of bytes. -/
def mark : Char := '\ufeff'

/-- A text without a mark in front. Of several marks only the first is taken away. -/
def withoutMark (text : String) : String :=
  match text.toList with
  | c :: rest => if c = mark then String.ofList rest else text
  | [] => text

/-- How a text is written in bytes. -/
inductive Encoding where
  | utf8
  /-- Units of 8 bits that are not all valid. -/
  | damagedUtf8
  | utf16 (order : ByteOrder)
  | windows1251
  deriving DecidableEq, Repr

/-- Whether some bytes are a text in units of 8 bits. -/
def isUtf8 (bytes : List UInt8) : Bool := (bytes.toByteArray).validateUTF8

/-- How some bytes seem to be written. -/
def Encoding.ofBytes (bytes : List UInt8) : Encoding :=
  match bytes with
  | 0xff :: 0xfe :: _ => .utf16 .little
  | 0xfe :: 0xff :: _ => .utf16 .big
  | _ =>
    if isUtf8 bytes then .utf8
    else match bytes with
      | 0xef :: 0xbb :: 0xbf :: _ => .damagedUtf8
      | _ => .windows1251

/-- The text of some bytes that are written in a way, with a mark for bytes if there is one. -/
def Encoding.decode (e : Encoding) (bytes : List UInt8) : String :=
  match e with
  | .utf8 => (String.fromUTF8? bytes.toByteArray).getD ""
  | .damagedUtf8 => String.ofList (Utf8.lossy none (bytes.drop 3))
  | .utf16 order => String.ofList (Utf16.decode order none (bytes.drop 2))
  | .windows1251 => String.ofList (Windows1251.decode bytes)

/-- The text of some bytes. -/
def decode (bytes : List UInt8) : String := withoutMark ((Encoding.ofBytes bytes).decode bytes)

end BslLint.Text
