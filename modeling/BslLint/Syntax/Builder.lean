import BslLint.Syntax.Document

/-!
# Putting trees together by hand

A `Builder` takes the beginnings and ends of nodes and the tokens between them in the order of the
text. It keeps the nodes that have begun and not ended, the innermost first, each with the children
it has so far, the last child first. A tree is finished when the node that no other one holds ends;
what comes afterwards begins another tree.

Nothing can go wrong: an end without a beginning is passed over, and nodes that are still open at
the end are closed.
-/

namespace BslLint

/-- A node that has begun and not ended. -/
structure OpenNode where
  /-- What the node stands for. -/
  kind : NodeKind
  /-- Its children so far, the last first. -/
  children : List Tree

/-- Trees in the making. -/
structure Builder where
  /-- The finished trees, the last first. -/
  done : List Tree := []
  /-- The nodes that have begun and not ended, the innermost first. -/
  open_ : List OpenNode := []
  /-- The errors noted, the last first. -/
  errors : List SyntaxError := []

namespace Builder

/-- The number of nodes that are open. -/
def depth (b : Builder) : Nat := b.open_.length

/-- The number of nodes begun so far. -/
def size (b : Builder) : Nat :=
  Tree.sizeAll b.done + totalOf (b.open_.map fun n ↦ Tree.sizeAll n.children + 1)

/-- Puts a tree below the innermost open node, or beside the finished trees. -/
def attach (b : Builder) (t : Tree) : Builder :=
  match b.open_ with
  | [] => { b with done := t :: b.done }
  | n :: ns => { b with open_ := { n with children := t :: n.children } :: ns }

/-- Begins a node. -/
def start (b : Builder) (kind : NodeKind) : Builder := { b with open_ := ⟨kind, []⟩ :: b.open_ }

/-- Ends the innermost open node. -/
def finish (b : Builder) : Builder :=
  match b.open_ with
  | [] => b
  | n :: ns => { b with open_ := ns }.attach (.node n.kind n.children.reverse)

/-- Adds a token. -/
def token (b : Builder) (t : Token) : Builder := b.attach (.leaf t)

/-- Notes an error. -/
def error (b : Builder) (e : SyntaxError) : Builder := { b with errors := e :: b.errors }

/-- The trees, from the first to the last, when all open nodes have been ended. -/
def trees (b : Builder) : List Tree :=
  (Nat.repeat finish b.depth b).done.reverse

/-- The finished document. Without any node its root is an empty file. -/
def build (b : Builder) (source : String) : Document where
  source := source
  trees := if b.trees.isEmpty then [.node .file []] else b.trees
  errors := b.errors.reverse.mergeSort fun e f ↦ e.span.start.le f.span.start

end Builder

end BslLint
