import BslLint.Syntax.Document

/-!
# Trees as they are stored

A parser does not make trees. It calls for them: it begins a node, adds tokens, ends the node, notes
an error (`Call`). A `TreeBuilder` answers these calls by filling an `Arena`, a row of cells with
one cell for each node. The place of a cell in the row is the number of its node.

A cell holds no children. It knows its first child and its next sibling, and the children of a node
are found by going from the one to the other (`Arena.children`). For a child to be linked in one
step the builder keeps the last child of every node in a table beside the arena, and the nodes that
are open on a stack.

Nothing here keeps the links from going round in a circle or the table from naming the wrong node;
`Arena.children` and `Arena.preorder` therefore stop at the number of cells. That what a builder
links is a forest, and that both go to their end, is proved in `BslLint.Proofs.Syntax.Linking`.
-/

namespace BslLint

/-! ### Cells and their links -/

/-- A node as it is stored. -/
structure Cell where
  /-- What the node stands for. -/
  kind : NodeKind
  /-- The first of its children. -/
  firstChild : Option Nat := none
  /-- The node behind it below the same parent. -/
  nextSibling : Option Nat := none
  /-- The tokens of the node. -/
  range : TokenRange
  deriving DecidableEq, Repr, Inhabited

section

variable {σ α : Type}

/-- The items come from a state one after the other, and behind the last there is none. -/
def Enumerates (next : σ → Option (α × σ)) : σ → List α → Prop
  | s, [] => next s = none
  | s, x :: xs => ∃ s', next s = some (x, s') ∧ Enumerates next s' xs

/-- The items that come from a state, `bound` at most. -/
def collect (next : σ → Option (α × σ)) : Nat → σ → List α
  | 0, _ => []
  | bound + 1, s =>
    match next s with
    | none => []
    | some (x, s') => x :: collect next bound s'

end

/-- A row of cells. -/
structure Arena where
  /-- The cells, that of the node `i` at the place `i`. -/
  cells : Array Cell := #[]
  deriving DecidableEq, Repr

namespace Arena

variable (a : Arena)

/-- The number of nodes. -/
def size : Nat := a.cells.size

/-- The cell of a node. -/
def cell (i : Nat) : Cell := a.cells.getD i default

/-- Puts a cell behind the others. -/
def push (c : Cell) : Arena := ⟨a.cells.push c⟩

/-- Changes the cell of a node. -/
def modify (i : Nat) (f : Cell → Cell) : Arena := ⟨a.cells.modify i f⟩

/-- Goes on to the next sibling. -/
def nextChild : Option Nat → Option (Nat × Option Nat)
  | none => none
  | some i => some (i, (a.cell i).nextSibling)

/-- The children of a node from left to right. -/
def children (i : Nat) : List Nat := collect a.nextChild a.size (a.cell i).firstChild

/-- Takes the first of the nodes that are to be seen and puts its children in its place. -/
def nextInPreorder : List Nat → Option (Nat × List Nat)
  | [] => none
  | i :: pending => some (i, a.children i ++ pending)

/-- A node and all below it, each node before its children. -/
def preorder (i : Nat) : List Nat := collect a.nextInPreorder a.size [i]

end Arena

/-! ### Calls -/

namespace TreeBuilder

/-- What a builder is asked to do, where errors are of the type `ε`. -/
inductive Call (ε : Type) where
  /-- Begin a node. -/
  | start (kind : NodeKind)
  /-- End the innermost open node. -/
  | finish
  /-- Add a token. -/
  | token (t : Token)
  /-- Note an error. -/
  | error (e : ε)
  deriving DecidableEq, Repr

namespace Call

variable {ε δ : Type}

/-- The call with another token or another error. -/
def map (f : Token → Token) (g : ε → δ) : Call ε → Call δ
  | start kind => start kind
  | finish => finish
  | token t => token (f t)
  | error e => error (g e)

/-- The token that is added. -/
def token? : Call ε → Option Token
  | token t => some t
  | _ => none

/-- The error that is noted. -/
def error? : Call ε → Option ε
  | error e => some e
  | _ => none

end Call

/-- The calls ask for the trees from left to right, each node begun before what is below it and
ended behind it, and somewhere among them they note the errors in their order. -/
inductive Makes {ε : Type} : List (Call ε) → List Tree → List ε → Prop where
  | nothing : Makes [] [] []
  | token (t : Token) : Makes [.token t] [.leaf t] []
  | error (e : ε) : Makes [.error e] [] [e]
  | append {xs ys : List (Call ε)} {cs ds : List Tree} {es fs : List ε} (hx : Makes xs cs es)
    (hy : Makes ys ds fs) : Makes (xs ++ ys) (cs ++ ds) (es ++ fs)
  | node (k : NodeKind) {xs : List (Call ε)} {cs : List Tree} {es : List ε} (h : Makes xs cs es) :
    Makes (.start k :: (xs ++ [.finish])) [.node k cs] es

end TreeBuilder

/-! ### Building -/

/-- A stored tree with its text. -/
structure SyntaxTree where
  /-- The nodes. -/
  arena : Arena
  /-- The topmost node. -/
  root : Nat
  /-- The text. -/
  source : String
  /-- The tokens of the text. -/
  tokens : Array Token
  /-- The errors found, in the order of the places where they begin. -/
  errors : List SyntaxError

/-- A stored tree in the making. -/
structure TreeBuilder where
  /-- The nodes begun so far. -/
  arena : Arena := {}
  /-- The nodes that have begun and not ended, the innermost first. -/
  stack : List Nat := []
  /-- The last child so far of every node. -/
  lastChild : Array (Option Nat) := #[]
  /-- The first node begun. -/
  root? : Option Nat := none
  /-- The text. -/
  source : String
  /-- The tokens added so far. -/
  tokens : Array Token := #[]
  /-- The errors noted so far. -/
  errors : Array SyntaxError := #[]

namespace TreeBuilder

variable (b : TreeBuilder)

/-- Links a node below the innermost open one, behind the last child that this one has. -/
def attach (id : Nat) : TreeBuilder :=
  match b.stack with
  | [] => b
  | parent :: _ =>
    { b with
      arena := match b.lastChild.getD parent none with
        | none => b.arena.modify parent fun c ↦ { c with firstChild := some id }
        | some last => b.arena.modify last fun c ↦ { c with nextSibling := some id }
      lastChild := b.lastChild.setIfInBounds parent (some id) }

/-- Puts a cell into the arena and its node below the innermost open one. The first node is the
root. -/
def add (c : Cell) : TreeBuilder :=
  let id := b.arena.size
  let b := attach { b with arena := b.arena.push c, lastChild := b.lastChild.push none } id
  { b with root? := b.root?.or (some id) }

/-- Begins a node, as yet without tokens. -/
def start (kind : NodeKind) : TreeBuilder :=
  { b.add { kind, range := .emptyAt b.tokens.size } with stack := b.arena.size :: b.stack }

/-- Ends the innermost open node, which covers the tokens up to here. -/
def finish : TreeBuilder :=
  match b.stack with
  | [] => b
  | id :: stack =>
    { b with
      arena := b.arena.modify id fun c ↦ { c with range := { c.range with stop := b.tokens.size } }
      stack }

/-- Adds a token and a leaf for it. -/
def token (t : Token) : TreeBuilder :=
  add { b with tokens := b.tokens.push t }
    { kind := .token, range := ⟨b.tokens.size, b.tokens.size + 1⟩ }

/-- Notes an error. -/
def error (e : SyntaxError) : TreeBuilder := { b with errors := b.errors.push e }

/-- Does what is asked. -/
def call : Call SyntaxError → TreeBuilder
  | .start kind => b.start kind
  | .finish => b.finish
  | .token t => b.token t
  | .error e => b.error e

/-- The builder after some calls. -/
def after (source : String) (calls : List (Call SyntaxError)) : TreeBuilder :=
  calls.foldl call { source }

theorem length_stack_finish (h : b.stack ≠ []) : b.finish.stack.length < b.stack.length := by
  unfold finish
  split <;> simp_all

/-- Ends all nodes that are open. -/
def close (b : TreeBuilder) : TreeBuilder :=
  if b.stack = [] then b else b.finish.close
termination_by b.stack.length
decreasing_by exact b.length_stack_finish ‹_›

/-- The finished tree. Without any node its root is an empty file. -/
def build : SyntaxTree :=
  let b := b.close
  let errors := b.errors.toList.mergeSort fun e f ↦ e.span.start.le f.span.start
  match b.root? with
  | some root => { b with root, errors }
  | none => { b with
      arena := b.arena.push { kind := .file, range := .emptyAt 0 }
      root := b.arena.size
      errors }

end TreeBuilder

end BslLint
