import BslLint.Syntax.Document

/-!
# Traversals

Two ways through a tree. `Node.preorder` lists a node and all below it, each before its children;
it keeps a list of nodes that are still to be seen and always takes the first. `Node.walk` follows
the tree itself and carries a state along: it asks a visitor on the way down whether to go on, to
leave out what is below, or to stop for good, and tells it on the way up that a node is done.
-/

namespace BslLint

/-! ### Listing -/

/-- The nodes of a list and all below them, each node before its children. -/
def Node.preorderAll : List Node → List Node
  | [] => []
  | n :: pending => n :: preorderAll (n.children ++ pending)
termination_by pending => totalOf (pending.map size)
decreasing_by
  have := n.totalOf_size_children_lt
  simp only [List.map_append, totalOf_append, List.map_cons, totalOf_cons]
  omega

/-- A node and all below it, each node before its children. -/
def Node.preorder (n : Node) : List Node := preorderAll [n]

/-- The nodes of all trees of a document, each node before its children. -/
def Document.nodes (d : Document) : List Node := Node.preorderAll (Node.place 0 0 d.trees)

/-- The number of nodes of a kind in all trees of a document. -/
def Document.countKind (d : Document) (k : NodeKind) : Nat :=
  d.nodes.countP (·.kind = k)

/-! ### Walking -/

/-- What a visitor wants to happen next. -/
inductive Control where
  /-- Go on with the children of the node. -/
  | continue_
  /-- Go on behind the node. -/
  | skipChildren
  /-- Do not go on. -/
  | stop
  deriving DecidableEq, Repr

/-- Someone who is led through a tree. -/
structure Visitor (σ : Type) where
  /-- What happens on the way down to a node. -/
  enter : Node → σ → Control × σ
  /-- What happens on the way up from a node. -/
  leave : Node → σ → σ

namespace Visitor

variable {σ : Type} (v : Visitor σ)

mutual

/-- Leads the visitor through a tree that has its place. The answer says whether the visitor never
asked to stop. -/
def walkTree (id first : Nat) : Tree → σ → Bool × σ
  | .leaf t, s =>
    match v.enter ⟨id, first, .leaf t⟩ s with
    | (.stop, s) => (false, s)
    | (_, s) => (true, v.leave ⟨id, first, .leaf t⟩ s)
  | .node k cs, s =>
    match v.enter ⟨id, first, .node k cs⟩ s with
    | (.stop, s) => (false, s)
    | (.skipChildren, s) => (true, v.leave ⟨id, first, .node k cs⟩ s)
    | (.continue_, s) =>
      match walkTrees (id + 1) first cs s with
      | (false, s) => (false, s)
      | (true, s) => (true, v.leave ⟨id, first, .node k cs⟩ s)

/-- Leads the visitor through trees that stand one behind the other. -/
def walkTrees (id first : Nat) : List Tree → σ → Bool × σ
  | [], s => (true, s)
  | c :: cs, s =>
    match walkTree id first c s with
    | (false, s) => (false, s)
    | (true, s) => walkTrees (id + c.size) (first + c.width) cs s

end

end Visitor

/-- Leads a visitor through a node and all below it. The answer says whether the visitor never
asked to stop. -/
def Node.walk {σ : Type} (n : Node) (v : Visitor σ) (s : σ) : Bool × σ :=
  v.walkTree n.id n.first n.tree s

end BslLint
