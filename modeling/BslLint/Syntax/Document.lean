import BslLint.Syntax.Tree

/-!
# Documents

A `Document` is a text together with the trees that stand for it and the errors found in it. What
the trees cover is told by ranges of tokens; the text of a range reaches from its first token to its
last and includes whatever stands between them, so it is cut out of the source and not put together
from tokens.

A parsed document has one tree. One that is put together by hand may have several, and the first of
them is the root.
-/

namespace BslLint

/-- An error in the text of a document. -/
structure SyntaxError where
  /-- What is wrong. -/
  message : String
  /-- Where it is wrong. -/
  span : Span
  deriving DecidableEq, Repr

/-- A text and the trees that stand for it. -/
structure Document where
  /-- The text. -/
  source : String
  /-- The trees, the root first. -/
  trees : List Tree
  /-- The errors found, in the order of the places where they begin. -/
  errors : List SyntaxError
  /-- The tokens of all trees. -/
  tokens : Array Token := (Tree.tokensAll trees).toArray
  /-- The tokens are those of the trees. -/
  toList_tokens : tokens.toList = Tree.tokensAll trees := by rfl

namespace Document

variable (d : Document)

/-- The topmost node of the first tree. -/
def root : Node := ⟨0, 0, d.trees.headD (.node .file [])⟩

/-- The number of nodes of all trees. -/
def size : Nat := Tree.sizeAll d.trees

/-- Whether there are no tokens. -/
def isEmpty : Bool := d.tokens.isEmpty

/-- Whether there are errors. -/
def hasErrors : Bool := !d.errors.isEmpty

/-- The first token of a range and the last. -/
def ends? (r : TokenRange) : Option (Token × Token) :=
  if r.isEmpty then none
  else do
    let first ← d.tokens[r.first]?
    let last ← d.tokens[r.stop - 1]?
    return (first, last)

/-- The texts of the tokens of a range. -/
def tokenTexts (r : TokenRange) : List String :=
  ((d.tokens.extract r.first r.stop).map (·.text)).toList

/-- The text from the first token of a range to the last. -/
def rangeText (r : TokenRange) : String :=
  match d.ends? r with
  | some (first, last) =>
    String.Pos.Raw.extract d.source ⟨first.start.offset⟩ ⟨last.stop.offset⟩
  | none => ""

/-- The stretch of text from the first token of a range to the last, none for an empty range. -/
def rangeSpan? (r : TokenRange) : Option Span :=
  (d.ends? r).map fun (first, last) ↦ ⟨first.start, last.stop⟩

/-- The text of a node. -/
def text (n : Node) : String := d.rangeText n.range

/-- The stretch of text that a node takes up. -/
def span? (n : Node) : Option Span := d.rangeSpan? n.range

end Document

end BslLint
