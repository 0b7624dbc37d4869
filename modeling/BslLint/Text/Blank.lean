/-!
# White space, lines and cases

The white space here is that of the Unicode property `White_Space`. A line ends at its line feed, so
a text that ends with one does not have an empty line behind it.
-/

namespace BslLint.Text

/-- Whether a character is white space. -/
def isBlank (c : Char) : Bool :=
  let n := c.toNat
  (9 ≤ n && n ≤ 13) || n == 32 || n == 0x85 || n == 0xA0 || n == 0x1680 ||
    (0x2000 ≤ n && n ≤ 0x200A) || n == 0x2028 || n == 0x2029 || n == 0x202F || n == 0x205F ||
    n == 0x3000

/-- A text without the white space around it. -/
def trim (cs : List Char) : List Char :=
  ((cs.dropWhile isBlank).reverse.dropWhile isBlank).reverse

/-- The number of lines of a text. -/
def lineCount (cs : List Char) : Nat :=
  match cs.getLast? with
  | none => 0
  | some c => cs.count '\n' + if c = '\n' then 0 else 1

/-- A text with its ASCII capitals made small. -/
def lowerAscii (s : String) : String := String.ofList (s.toList.map Char.toLower)

end BslLint.Text
