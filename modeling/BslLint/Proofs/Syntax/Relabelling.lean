import BslLint.Proofs.Fingerprint.Canonical
import BslLint.Proofs.Syntax.Preorder
import BslLint.Proofs.Token.Places

/-!
# Trees with other tokens

`Tree.relabel f` puts `f t` in place of every token `t` of a tree. The arrangement of a tree does
not depend on its tokens, so numbers, ranges, children and listings are those of the tree before,
with the tokens replaced. If `f` changes no kind and no text, the tree stays the same up to
isomorphism.
-/

namespace BslLint

variable {f : Token → Token}

namespace Tree

variable (f)

mutual

/-- The tree with `f t` in place of the token `t`. -/
def relabel : Tree → Tree
  | leaf t => leaf (f t)
  | node k cs => node k (relabelAll cs)

/-- The trees with `f t` in place of the token `t`. -/
def relabelAll : List Tree → List Tree
  | [] => []
  | c :: cs => relabel c :: relabelAll cs

end

/-- Trees are relabelled one by one. -/
@[simp]
theorem relabelAll_append (cs ds : List Tree) :
    relabelAll f (cs ++ ds) = relabelAll f cs ++ relabelAll f ds := by
  induction cs with
  | nil => rfl
  | cons c cs ih => rw [List.cons_append, relabelAll, ih, relabelAll, List.cons_append]

@[simp]
theorem kind_relabel (t : Tree) : (t.relabel f).kind = t.kind := by
  cases t <;> rfl

@[simp]
theorem children_relabel (t : Tree) : (t.relabel f).children = relabelAll f t.children := by
  cases t <;> rfl

/-- The tokens are those that were put in. -/
theorem tokensAll_relabelAll (cs : List Tree) :
    tokensAll (relabelAll f cs) = (tokensAll cs).map f := by
  induction cs using forest_induction with
  | nil => rfl
  | leaf t cs ih => rw [relabelAll, tokensAll, ih]; rfl
  | node k cs ds ih =>
    rw [relabelAll_append, tokensAll_append, tokensAll_append] at ih
    exact ih

/-- No node comes or goes, -/
@[simp]
theorem sizeAll_relabelAll (cs : List Tree) : sizeAll (relabelAll f cs) = sizeAll cs := by
  induction cs using forest_induction with
  | nil => rfl
  | leaf t cs ih => rw [relabelAll, sizeAll, ih]; rfl
  | node k cs ds ih =>
    rw [relabelAll_append, sizeAll_append, sizeAll_append] at ih
    rw [relabelAll, relabel, sizeAll, size, sizeAll, size]
    omega

@[simp]
theorem size_relabel (t : Tree) : (t.relabel f).size = t.size := by
  cases t with
  | leaf t => rfl
  | node k cs => rw [relabel, size, size, sizeAll_relabelAll]

theorem tokens_relabel (t : Tree) : (t.relabel f).tokens = t.tokens.map f := by
  cases t with
  | leaf t => rfl
  | node k cs => exact tokensAll_relabelAll f cs

/-- and no token. -/
@[simp]
theorem width_relabel (t : Tree) : (t.relabel f).width = t.width := by
  rw [← length_tokens, ← length_tokens, tokens_relabel, List.length_map]

variable {f}

mutual

/-- Where a token is replaced by one of its kind and text, the tree is the same up to places. -/
theorem isomorphic_relabel (hf : ∀ t, (f t).sign = t.sign) : (t : Tree) → t.Isomorphic (t.relabel f)
  | leaf t => (Prod.mk.inj (hf t)).imp Eq.symm Eq.symm
  | node _ cs => ⟨rfl, allIsomorphic_relabelAll hf cs⟩

/-- Tokens of the same kind with the same text make no difference. -/
theorem allIsomorphic_relabelAll (hf : ∀ t, (f t).sign = t.sign) :
    (cs : List Tree) → AllIsomorphic cs (relabelAll f cs)
  | [] => trivial
  | c :: cs => ⟨isomorphic_relabel hf c, allIsomorphic_relabelAll hf cs⟩

end

end Tree

namespace Node

variable (f)

/-- The node with `f t` in place of the token `t`. -/
def relabel (n : Node) : Node := { n with tree := n.tree.relabel f }

@[simp]
theorem id_relabel (n : Node) : (n.relabel f).id = n.id := rfl

@[simp]
theorem kind_relabel (n : Node) : (n.relabel f).kind = n.kind := n.tree.kind_relabel f

@[simp]
theorem size_relabel (n : Node) : (n.relabel f).size = n.size := n.tree.size_relabel f

@[simp]
theorem range_relabel (n : Node) : (n.relabel f).range = n.range := by
  rw [range, range, relabel, Tree.width_relabel]

/-- So the nodes keep their numbers and their ranges. -/
theorem place_relabelAll (id first : Nat) (cs : List Tree) :
    place id first (Tree.relabelAll f cs) = (place id first cs).map (relabel f) := by
  induction cs generalizing id first with
  | nil => rfl
  | cons c cs ih =>
    rw [Tree.relabelAll, place, place, Tree.size_relabel, Tree.width_relabel, ih]
    rfl

@[simp]
theorem children_relabel (n : Node) : (n.relabel f).children = n.children.map (relabel f) := by
  rw [children, relabel, Tree.children_relabel, place_relabelAll, children]

/-- and so may listing, -/
theorem preorderAll_map_relabel (ns : List Node) :
    preorderAll (ns.map (relabel f)) = (preorderAll ns).map (relabel f) := by
  fun_induction preorderAll ns with
  | case1 => rw [List.map_nil, preorderAll]
  | case2 n pending ih =>
    rw [List.map_cons, preorderAll_cons, children_relabel, ← List.map_append, ih, List.map_cons]

theorem preorder_relabel (n : Node) :
    (n.relabel f).preorder = n.preorder.map (relabel f) := preorderAll_map_relabel f [n]

/-- looking for children of a kind, -/
@[simp]
theorem childrenOfKind_relabel (n : Node) (k : NodeKind) :
    (n.relabel f).childrenOfKind k = (n.childrenOfKind k).map (relabel f) := by
  simp only [childrenOfKind, children_relabel, List.filter_map, Function.comp_def, kind_relabel]

/-- for the first of them, -/
@[simp]
theorem childOfKind?_relabel (n : Node) (k : NodeKind) :
    (n.relabel f).childOfKind? k = (n.childOfKind? k).map (relabel f) := by
  simp only [childOfKind?, children_relabel, List.find?_map, Function.comp_def, kind_relabel]

variable {f} (hf : ∀ t, (f t).kind = t.kind)

include hf

/-- for a token among them, -/
theorem tokenKind?_relabel (n : Node) : (n.relabel f).tokenKind? = n.tokenKind? := by
  obtain ⟨id, first, tree⟩ := n
  cases tree with
  | leaf t => exact congrArg some (hf t)
  | node k cs => rfl

/-- and for a token of a kind. -/
theorem childToken?_relabel (n : Node) (k : Token.Kind) :
    (n.relabel f).childToken? k = (n.childToken? k).map (relabel f) := by
  simp only [childToken?, children_relabel, List.find?_map, Function.comp_def,
    tokenKind?_relabel hf]

end Node

end BslLint
