/-!
# Positions in a text

A `Position` says where a character stands: its line, its column on that line, and how many bytes
of UTF-8 come before it. Lines and columns count from one and a column is a character, not a byte,
so a Cyrillic name has the column an editor shows. Only a line feed ends a line; a carriage return
is a character like any other.

Positions are never computed from offsets: a text is read from its front and the position is moved
over what has been read by `Position.advance`. Hence `advance_append`, which is what makes it
meaningful to move over a text piece by piece.
-/

namespace BslLint

/-- A place in a text, in front of some character or at the end. -/
structure Position where
  /-- The line, counted from one. -/
  line : Nat
  /-- The column in characters, counted from one. -/
  column : Nat
  /-- The bytes of UTF-8 before the place. -/
  offset : Nat
  deriving DecidableEq, Repr, Inhabited

namespace Position

/-- Where every text begins. -/
def start : Position := ⟨1, 1, 0⟩

/-- The place after one more character. -/
def step (p : Position) (c : Char) : Position :=
  if c = '\n' then ⟨p.line + 1, 1, p.offset + c.utf8Size⟩
  else ⟨p.line, p.column + 1, p.offset + c.utf8Size⟩

/-- The place after all the characters of a text. -/
def advance (p : Position) (text : List Char) : Position :=
  text.foldl step p

@[simp]
theorem advance_nil (p : Position) : p.advance [] = p := rfl

@[simp]
theorem advance_cons (p : Position) (c : Char) (text : List Char) :
    p.advance (c :: text) = (p.step c).advance text := rfl

/-- Moving over two texts one after the other is moving over both at once. -/
theorem advance_append (p : Position) (s t : List Char) :
    p.advance (s ++ t) = (p.advance s).advance t :=
  List.foldl_append

/-- Places are ordered by line, then by column, then by offset. -/
def le (p q : Position) : Bool :=
  p.line < q.line || (p.line == q.line &&
    (p.column < q.column || (p.column == q.column && p.offset ≤ q.offset)))

/-- A place as a reader is told it: line and column. -/
def render (p : Position) : String :=
  s!"{p.line}:{p.column}"

end Position

/-- A stretch of text, from the place in front of its first character to the one after its last. -/
structure Span where
  /-- Where the stretch begins. -/
  start : Position
  /-- Where it has ended. -/
  stop : Position
  deriving DecidableEq, Repr, Inhabited

/-- The empty stretch at a place. -/
def Span.point (p : Position) : Span := ⟨p, p⟩

/-- A stretch as an offset and a length in bytes, in 32-bit words. -/
structure PackedSpan where
  /-- The bytes before the stretch. -/
  start : UInt32
  /-- The bytes in it. -/
  length : UInt32
  deriving DecidableEq, Repr

/-- The bytes before the end of the stretch. -/
def PackedSpan.stop (s : PackedSpan) : UInt32 := s.start + s.length

end BslLint
