import BslLint.Fingerprint.Canonical
import BslLint.Fingerprint.Sha1
import BslLint.Syntax.Document

/-!
# Blocks of code

A module is divided into blocks: the part with the variables of the module, each procedure and each
function, and the code of the module itself. A `Block` knows the lines it reaches over and has a
fingerprint, the hash of the canonical form of its tree.
-/

namespace BslLint

/-- The fingerprint of a tree. -/
def Tree.fingerprint (t : Tree) : String := Sha1.ofText t.canonical

/-- A block of code. -/
structure Block where
  /-- The node of the block. -/
  node : Node
  /-- The line where the block begins. -/
  firstLine : Nat
  /-- The line where the block ends. -/
  lastLine : Nat
  deriving Repr

namespace Block

/-- The fingerprint of a block. -/
def fingerprint (b : Block) : String := b.node.tree.fingerprint

/-- Whether a line is one of the block's. -/
def containsLine (b : Block) (line : Nat) : Bool := b.firstLine ≤ line && line ≤ b.lastLine

/-- The block of a node, none if the node has no tokens. -/
def ofNode? (d : Document) (n : Node) : Option Block :=
  (d.span? n).map fun s ↦ ⟨n, s.start.line, s.stop.line⟩

/-- The nodes of the blocks in a part of a module. -/
def nodesOfPart (part : Node) : List Node :=
  match part.kind with
  | .moduleVars => [part]
  | .subs => part.childrenOfKind .sub
  | .fileCodeBlock => (part.childOfKind? .codeBlock).toList
  | _ => []

end Block

/-- The blocks of a document in their order. -/
def Document.blocks (d : Document) : List Block :=
  (d.root.children.flatMap Block.nodesOfPart).filterMap (Block.ofNode? d)

end BslLint
