import BslLint.Syntax.Kind
import BslLint.Token.Basic

/-!
# Syntax trees

A `Tree` has tokens for leaves and rules of the grammar for inner nodes. It knows nothing of where
it stands: two procedures with the same tokens are the same tree up to the positions inside these
tokens.

A `Node` is a tree at its place in a larger one. The place is given by two numbers, the `id`, which
counts the nodes that come before in preorder, and `first`, which counts the tokens that do. Both
follow from the shape of what comes before, so `Node.children` finds them by adding up sizes and
widths, and no numbering is ever stored.

`Node.size_lt_of_mem_children` is what a recursion over nodes ends by.
-/

namespace BslLint

/-- The total of some numbers. -/
def totalOf : List Nat → Nat
  | [] => 0
  | n :: ns => n + totalOf ns

@[simp]
theorem totalOf_nil : totalOf [] = 0 := rfl

@[simp]
theorem totalOf_cons (n : Nat) (ns : List Nat) : totalOf (n :: ns) = n + totalOf ns := rfl

@[simp]
theorem totalOf_append (ms ns : List Nat) : totalOf (ms ++ ns) = totalOf ms + totalOf ns := by
  induction ms with
  | nil => simp
  | cons m ms ih => simp [ih, Nat.add_assoc]

/-- No number of a list is greater than the total. -/
theorem le_totalOf_of_mem {n : Nat} {ns : List Nat} (h : n ∈ ns) : n ≤ totalOf ns := by
  induction ns with
  | nil => simp at h
  | cons m ms ih =>
    rcases List.mem_cons.1 h with rfl | h
    · exact Nat.le_add_right _ _
    · exact Nat.le_trans (ih h) (Nat.le_add_left _ _)

/-- A syntax tree. -/
inductive Tree where
  /-- A token. -/
  | leaf (token : Token)
  /-- A node of some kind with its children from left to right. -/
  | node (kind : NodeKind) (children : List Tree)
  deriving Repr, Inhabited

namespace Tree

/-- The kind of a tree's topmost node. -/
def kind : Tree → NodeKind
  | leaf _ => .token
  | node k _ => k

/-- The trees directly below the topmost node. -/
def children : Tree → List Tree
  | leaf _ => []
  | node _ cs => cs

/-- The token, if the tree is a leaf. -/
def token? : Tree → Option Token
  | leaf t => some t
  | node _ _ => none

mutual

/-- The number of nodes of a tree, leaves included. -/
def size : Tree → Nat
  | leaf _ => 1
  | node _ cs => sizeAll cs + 1

/-- The number of nodes of a list of trees. -/
def sizeAll : List Tree → Nat
  | [] => 0
  | c :: cs => size c + sizeAll cs

end

mutual

/-- The tokens of a tree from left to right. -/
def tokens : Tree → List Token
  | leaf t => [t]
  | node _ cs => tokensAll cs

/-- The tokens of a list of trees from left to right. -/
def tokensAll : List Tree → List Token
  | [] => []
  | c :: cs => tokens c ++ tokensAll cs

end

mutual

/-- The number of tokens of a tree. -/
def width : Tree → Nat
  | leaf _ => 1
  | node _ cs => widthAll cs

/-- The number of tokens of a list of trees. -/
def widthAll : List Tree → Nat
  | [] => 0
  | c :: cs => width c + widthAll cs

end

@[simp]
theorem tokensAll_append (cs ds : List Tree) :
    tokensAll (cs ++ ds) = tokensAll cs ++ tokensAll ds := by
  induction cs with
  | nil => rfl
  | cons c cs ih => simp [tokensAll, ih]

end Tree

/-- The tokens from one place up to another in the list of all tokens. -/
structure TokenRange where
  /-- The number of tokens before the range. -/
  first : Nat
  /-- The number of tokens before the end of the range. -/
  stop : Nat
  deriving DecidableEq, Repr, Inhabited

namespace TokenRange

/-- The empty range at a place. -/
def emptyAt (i : Nat) : TokenRange := ⟨i, i⟩

/-- Whether the range holds no token. -/
def isEmpty (r : TokenRange) : Bool := r.stop ≤ r.first

/-- The number of tokens in the range. -/
def length (r : TokenRange) : Nat := r.stop - r.first

/-- The least range that holds both. An empty range has no say in it. -/
def cover (r s : TokenRange) : TokenRange :=
  if r.isEmpty then s
  else if s.isEmpty then r
  else ⟨min r.first s.first, max r.stop s.stop⟩

end TokenRange

/-- A tree at its place in a larger one. -/
structure Node where
  /-- The number of nodes before this one, in preorder. -/
  id : Nat
  /-- The number of tokens before this node. -/
  first : Nat
  /-- The node and all below it. -/
  tree : Tree
  deriving Repr, Inhabited

namespace Node

/-- What the node stands for. -/
def kind (n : Node) : NodeKind := n.tree.kind

/-- The tokens of the node. -/
def range (n : Node) : TokenRange := ⟨n.first, n.first + n.tree.width⟩

/-- The number of nodes from this one downwards. -/
def size (n : Node) : Nat := n.tree.size

/-- The kind of token that the node is, if it is a leaf. -/
def tokenKind? (n : Node) : Option Token.Kind := n.tree.token?.map (·.kind)

/-- Gives the trees of a list their places, one after the other from a given place on. -/
def place (id first : Nat) : List Tree → List Node
  | [] => []
  | c :: cs => ⟨id, first, c⟩ :: place (id + c.size) (first + c.width) cs

/-- The nodes directly below. -/
def children (n : Node) : List Node := place (n.id + 1) n.first n.tree.children

/-- The children of a kind. -/
def childrenOfKind (n : Node) (k : NodeKind) : List Node := n.children.filter (·.kind = k)

/-- The first child of a kind. -/
def childOfKind? (n : Node) (k : NodeKind) : Option Node := n.children.find? (·.kind = k)

/-- The first child that is a token of a kind. -/
def childToken? (n : Node) (k : Token.Kind) : Option Node :=
  n.children.find? (·.tokenKind? = some k)

/-- The sizes of placed trees add up to that of the list. -/
theorem totalOf_size_place (id first : Nat) (cs : List Tree) :
    totalOf ((place id first cs).map size) = Tree.sizeAll cs := by
  induction cs generalizing id first with
  | nil => rfl
  | cons c cs ih => simp [place, Tree.sizeAll, ih, size]

/-- All that stands below a node is smaller than the node. -/
theorem totalOf_size_children_lt (n : Node) : totalOf (n.children.map size) < n.size := by
  rw [children, totalOf_size_place]
  cases h : n.tree <;> simp [size, h, Tree.children, Tree.size, Tree.sizeAll]

/-- **A child is smaller than its parent.** -/
theorem size_lt_of_mem_children {c n : Node} (h : c ∈ n.children) : c.size < n.size :=
  Nat.lt_of_le_of_lt (le_totalOf_of_mem (List.mem_map_of_mem h)) n.totalOf_size_children_lt

theorem mem_children_of_childOfKind? {c n : Node} {k : NodeKind} (h : n.childOfKind? k = some c) :
    c ∈ n.children :=
  List.mem_of_find?_eq_some h

theorem size_pos (n : Node) : 0 < n.size :=
  Nat.lt_of_le_of_lt (Nat.zero_le _) n.totalOf_size_children_lt

end Node

end BslLint
