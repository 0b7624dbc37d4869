import BslLint.Syntax.Traversal
import Mathlib.Data.List.Nodup
import Mathlib.Data.List.Perm.Basic
import Mathlib.Logic.Relation

/-!
# The numbering of nodes

A node does not store its number: `Node.place` computes it from what stands before. Here the numbers
are shown to be those of the listing in preorder, and the listing to be a tree: every node but the
first hangs below exactly one other, and all hang below the first.

Everything is proved of a list of trees, with `Tree.forest_induction`, because that is what the
listing works on: it opens the first tree of the list and puts its children in front of the rest.
`preorderAll_place_leaf` and `preorderAll_place_node` are its two steps, and no later proof looks at
the nodes that wait.

From where a tree stands, the tokens of a document go on with those of the tree and with all that
comes behind. `Tree.outlookAll` lists trees together with these tokens, and does so along the trees;
`Node.map_preorderAll_place` finds the same at the places of nodes.
-/

namespace BslLint

namespace Tree

/-- The nodes of trees one behind the other add up, -/
@[simp]
theorem sizeAll_append (cs ds : List Tree) : sizeAll (cs ++ ds) = sizeAll cs + sizeAll ds := by
  induction cs with
  | nil => simp [sizeAll]
  | cons c cs ih => simp only [List.cons_append, sizeAll, ih, Nat.add_assoc]

/-- Opens the first tree of a list again and again, until none is left. -/
theorem forest_induction {motive : List Tree → Prop} (nil : motive [])
    (leaf : ∀ t cs, motive cs → motive (.leaf t :: cs))
    (node : ∀ k cs ds, motive (cs ++ ds) → motive (.node k cs :: ds)) : ∀ cs, motive cs
  | [] => nil
  | .leaf t :: cs => leaf t cs (forest_induction nil leaf node cs)
  | .node k cs :: ds => node k cs ds (forest_induction nil leaf node (cs ++ ds))
termination_by cs => sizeAll cs
decreasing_by
  · simp only [sizeAll, size]
    omega
  · rw [sizeAll_append, sizeAll, size]
    omega

/-- and so do their tokens. -/
@[simp]
theorem widthAll_append (cs ds : List Tree) : widthAll (cs ++ ds) = widthAll cs + widthAll ds := by
  induction cs with
  | nil => simp [widthAll]
  | cons c cs ih => simp only [List.cons_append, widthAll, ih, Nat.add_assoc]

/-- The width of trees is the number of their tokens. -/
theorem length_tokensAll (cs : List Tree) : (tokensAll cs).length = widthAll cs := by
  induction cs using forest_induction with
  | nil => rfl
  | leaf t cs ih => rw [tokensAll, tokens, widthAll, width, List.length_append, ih]; rfl
  | node k cs ds ih =>
    rw [tokensAll_append, List.length_append, widthAll_append] at ih
    rw [tokensAll, tokens, widthAll, width, List.length_append, ih]

theorem length_tokens (t : Tree) : t.tokens.length = t.width := by
  have h := length_tokensAll [t]
  rwa [tokensAll, tokensAll, List.append_nil, widthAll, widthAll, Nat.add_zero] at h

/-- `t.Within u` says that `t` is `u` or stands somewhere below its top. -/
inductive Within (t : Tree) : Tree → Prop where
  | refl : Within t t
  | child {k : NodeKind} {cs : List Tree} {c : Tree} (hmem : c ∈ cs) (h : Within t c) :
    Within t (.node k cs)

/-- All trees within those of a list have a property. -/
def Everywhere (P : Tree → Prop) (cs : List Tree) : Prop := ∀ c ∈ cs, ∀ t, t.Within c → P t

namespace Everywhere

variable {P : Tree → Prop} {cs ds : List Tree}

theorem nil : Everywhere P [] := fun _ h ↦ absurd h List.not_mem_nil

theorem append (hcs : Everywhere P cs) (hds : Everywhere P ds) : Everywhere P (cs ++ ds) :=
  fun c hc ↦ (List.mem_append.1 hc).elim (hcs c) (hds c)

theorem leaf {t : Token} (h : P (.leaf t)) : Everywhere P [.leaf t] := by
  intro c hc u hu
  obtain rfl := List.mem_singleton.1 hc
  cases hu
  exact h

theorem node {k : NodeKind} (h : P (.node k cs)) (hcs : Everywhere P cs) :
    Everywhere P [.node k cs] := by
  intro c hc u hu
  obtain rfl := List.mem_singleton.1 hc
  cases hu with
  | refl => exact h
  | child hmem hu => exact hcs _ hmem u hu

/-- A weaker property holds wherever the stronger does. -/
theorem mono {Q : Tree → Prop} (hPQ : ∀ t, P t → Q t) (h : Everywhere P cs) : Everywhere Q cs :=
  fun c hc t ht ↦ hPQ t (h c hc t ht)

theorem cons_leaf_iff {t : Token} :
    Everywhere P (.leaf t :: cs) ↔ P (.leaf t) ∧ Everywhere P cs :=
  ⟨fun h ↦ ⟨h _ List.mem_cons_self _ .refl, fun c hc ↦ h c (List.mem_cons_of_mem _ hc)⟩,
    fun h ↦ (leaf h.1).append h.2⟩

/-- It holds within both lists or not within the list of both. -/
theorem append_iff : Everywhere P (cs ++ ds) ↔ Everywhere P cs ∧ Everywhere P ds :=
  ⟨fun h ↦
    ⟨fun c hc ↦ h c (List.mem_append_left _ hc), fun c hc ↦ h c (List.mem_append_right _ hc)⟩,
    fun h ↦ h.1.append h.2⟩

/-- To hold within a node is to hold of it and within its children. -/
theorem cons_node_iff {k : NodeKind} :
    Everywhere P (.node k cs :: ds) ↔
      P (.node k cs) ∧ Everywhere P cs ∧ Everywhere P ds := by
  constructor
  · intro h
    refine ⟨h _ List.mem_cons_self _ .refl, fun c hc u hu ↦ ?_, fun c hc ↦ ?_⟩
    · exact h _ List.mem_cons_self u (.child hc hu)
    · exact h c (List.mem_cons_of_mem _ hc)
  · rintro ⟨h, hcs, hds⟩
    exact (node h hcs).append hds

theorem of_cons_leaf {t : Token} (h : Everywhere P (.leaf t :: cs)) : Everywhere P cs :=
  (cons_leaf_iff.1 h).2

theorem of_cons_node {k : NodeKind} (h : Everywhere P (.node k cs :: ds)) :
    Everywhere P (cs ++ ds) :=
  append_iff.2 (cons_node_iff.1 h).2

/-- If only leaves pass for tokens, an inner node is of another kind. -/
theorem kind_ne_token {k : NodeKind}
    (h : Everywhere (fun t ↦ t.kind = .token → ∃ x, t = .leaf x) (.node k cs :: ds)) :
    k ≠ .token := by
  intro hk
  obtain ⟨x, hx⟩ := h _ List.mem_cons_self _ .refl hk
  exact nomatch hx

end Everywhere

end Tree

namespace Node

/-! ### The steps of the listing -/

/-- Trees that stand behind others are placed behind all their nodes and tokens. -/
theorem place_append (id first : Nat) (cs ds : List Tree) :
    place id first (cs ++ ds) =
      place id first cs ++ place (id + Tree.sizeAll cs) (first + Tree.widthAll cs) ds := by
  induction cs generalizing id first with
  | nil => rfl
  | cons c cs ih =>
    rw [List.cons_append, place, place, ih, Tree.sizeAll, Tree.widthAll, Nat.add_assoc,
      Nat.add_assoc, List.cons_append]

/-- The children of a node come before the nodes that are still to be listed. -/
theorem preorderAll_cons (n : Node) (pending : List Node) :
    preorderAll (n :: pending) = n :: preorderAll (n.children ++ pending) := by
  rw [preorderAll]

/-- A token in front is listed, and the other trees move up by one node and one token. -/
theorem preorderAll_place_leaf (id first : Nat) (t : Token) (cs : List Tree) :
    preorderAll (place id first (.leaf t :: cs)) =
      ⟨id, first, .leaf t⟩ :: preorderAll (place (id + 1) (first + 1) cs) := by
  rw [place, preorderAll_cons]
  rfl

/-- A node in front is listed, and its children take its place. -/
theorem preorderAll_place_node (id first : Nat) (k : NodeKind) (cs ds : List Tree) :
    preorderAll (place id first (.node k cs :: ds)) =
      ⟨id, first, .node k cs⟩ :: preorderAll (place (id + 1) first (cs ++ ds)) := by
  rw [place, preorderAll_cons, place_append, Tree.size, Tree.width,
    show id + (Tree.sizeAll cs + 1) = id + 1 + Tree.sizeAll cs by omega]
  rfl

/-- Nodes one behind the other are listed one behind the other. -/
theorem preorderAll_append (ns ms : List Node) :
    preorderAll (ns ++ ms) = preorderAll ns ++ preorderAll ms := by
  fun_induction preorderAll ns with
  | case1 => rfl
  | case2 n pending ih =>
    rw [List.cons_append, preorderAll_cons, List.cons_append, ← ih, List.append_assoc]

/-! ### Numbers, tokens and ranges -/

/-- The numbers of the nodes in the listing are consecutive. -/
theorem map_id_preorderAll_place (id first : Nat) (cs : List Tree) :
    (preorderAll (place id first cs)).map Node.id = List.range' id (Tree.sizeAll cs) := by
  induction cs using Tree.forest_induction generalizing id first with
  | nil => simp [place, preorderAll, Tree.sizeAll]
  | leaf t cs ih =>
    rw [preorderAll_place_leaf, List.map_cons, ih, Tree.sizeAll, Tree.size, Nat.add_comm 1,
      List.range'_succ]
  | node k cs ds ih =>
    rw [preorderAll_place_node, List.map_cons, ih, Tree.sizeAll_append, Tree.sizeAll, Tree.size,
      Nat.add_right_comm, List.range'_succ]

/-- No node is listed twice, because no number is. -/
theorem nodup_preorderAll_place (id first : Nat) (cs : List Tree) :
    (preorderAll (place id first cs)).Nodup := by
  refine List.Nodup.of_map Node.id ?_
  rw [map_id_preorderAll_place]
  exact List.nodup_range'

/-- An inner node is none of the tokens listed. -/
theorem filter_token_cons {k : NodeKind} (hk : k ≠ .token) (id first : Nat) (cs : List Tree)
    (ns : List Node) :
    (⟨id, first, .node k cs⟩ :: ns).filter (·.kind = .token) = ns.filter (·.kind = .token) :=
  List.filter_cons_of_neg fun h ↦ hk (of_decide_eq_true h)

/-- Where no inner node passes for a token, the nodes of the kind of tokens are the leaves. They
hold the tokens from left to right. -/
theorem map_tree_filter_token (id first : Nat) {cs : List Tree}
    (h : Tree.Everywhere (fun t ↦ t.kind = .token → ∃ x, t = .leaf x) cs) :
    ((preorderAll (place id first cs)).filter (·.kind = .token)).map Node.tree =
      (Tree.tokensAll cs).map Tree.leaf := by
  induction cs using Tree.forest_induction generalizing id first with
  | nil => simp [place, preorderAll, Tree.tokensAll]
  | leaf t cs ih =>
    rw [preorderAll_place_leaf, List.filter_cons_of_pos (by rfl), List.map_cons,
      ih _ _ h.of_cons_leaf, Tree.tokensAll, Tree.tokens, List.singleton_append, List.map_cons]
  | node k cs ds ih =>
    rw [preorderAll_place_node, filter_token_cons h.kind_ne_token,
      ih _ _ h.of_cons_node, Tree.tokensAll_append, Tree.tokensAll, Tree.tokens]

/-- The leaves cover one token each, one after the other. -/
theorem map_range_filter_token (id first : Nat) {cs : List Tree}
    (h : Tree.Everywhere (fun t ↦ t.kind = .token → ∃ x, t = .leaf x) cs) :
    ((preorderAll (place id first cs)).filter (·.kind = .token)).map range =
      (List.range' first (Tree.widthAll cs)).map fun i ↦ ⟨i, i + 1⟩ := by
  induction cs using Tree.forest_induction generalizing id first with
  | nil => simp [place, preorderAll, Tree.widthAll]
  | leaf t cs ih =>
    rw [preorderAll_place_leaf, List.filter_cons_of_pos (by rfl), List.map_cons,
      ih _ _ h.of_cons_leaf, Tree.widthAll, Tree.width, Nat.add_comm 1, List.range'_succ,
      List.map_cons]
    rfl
  | node k cs ds ih =>
    rw [preorderAll_place_node, filter_token_cons h.kind_ne_token,
      ih _ _ h.of_cons_node, Tree.widthAll_append, Tree.widthAll, Tree.width]

end Node

/-- Ranges that follow each other without a gap, from the first end of a range to the last. -/
def TokenRange.Tiled (r : TokenRange) : List TokenRange → Prop
  | [] => r.first = r.stop
  | s :: ss => s.first = r.first ∧ s.first ≤ s.stop ∧ Tiled ⟨s.stop, r.stop⟩ ss

/-- Trees that stand one behind the other cover their tokens without a gap. -/
theorem Node.tiled_place (id first : Nat) (cs : List Tree) :
    TokenRange.Tiled ⟨first, first + Tree.widthAll cs⟩
      ((Node.place id first cs).map Node.range) := by
  induction cs generalizing id first with
  | nil => exact (Nat.add_zero first).symm
  | cons c cs ih =>
    refine ⟨rfl, Nat.le_add_right _ _, ?_⟩
    have h := ih (id + c.size) (first + c.width)
    rwa [Nat.add_assoc] at h

/-- What an inner node covers is what its children cover, one behind the other. -/
theorem Node.tiled_range_children {n : Node} (h : ∀ x, n.tree ≠ .leaf x) :
    n.range.Tiled (n.children.map range) := by
  obtain ⟨id, first, tree⟩ := n
  cases tree with
  | leaf x => exact absurd rfl (h x)
  | node k cs => exact tiled_place (id + 1) first cs

namespace Node

/-! ### Parents -/

/-- `c` stands directly below `p`. -/
def ChildOf (c p : Node) : Prop := c ∈ p.children

/-- The nodes of a listing are those that it begins with and the children of its nodes, each
counted once. -/
theorem perm_preorderAll (ns : List Node) :
    (ns ++ (preorderAll ns).flatMap children).Perm (preorderAll ns) := by
  fun_induction preorderAll ns with
  | case1 => exact List.Perm.refl _
  | case2 n pending ih =>
    rw [List.cons_append, List.flatMap_cons]
    refine List.Perm.cons n (List.Perm.trans ?_ ih)
    rw [← List.append_assoc]
    exact List.Perm.append_right _ List.perm_append_comm

/-- Every node of a listing comes down from one that the listing begins with. -/
theorem exists_reflTransGen_of_mem_preorderAll {m : Node} {ns : List Node}
    (h : m ∈ preorderAll ns) : ∃ n ∈ ns, Relation.ReflTransGen (flip ChildOf) n m := by
  fun_induction preorderAll ns with
  | case1 => exact absurd h List.not_mem_nil
  | case2 n pending ih =>
    rcases List.mem_cons.1 h with rfl | h
    · exact ⟨m, List.mem_cons_self, .refl⟩
    · obtain ⟨n', hn', hm⟩ := ih h
      rcases List.mem_append.1 hn' with hn' | hn'
      · exact ⟨n, List.mem_cons_self, .head hn' hm⟩
      · exact ⟨n', List.mem_cons_of_mem _ hn', hm⟩

/-- To place trees is to give them numbers, and they stay the same trees. -/
theorem tree_mem_of_mem_place {n : Node} {id first : Nat} {cs : List Tree}
    (h : n ∈ place id first cs) : n.tree ∈ cs := by
  induction cs generalizing id first with
  | nil => exact absurd h List.not_mem_nil
  | cons c cs ih =>
    rcases List.mem_cons.1 h with rfl | h
    · exact List.mem_cons_self
    · exact List.mem_cons_of_mem _ (ih h)

theorem tree_mem_of_childOf {c p : Node} (h : c.ChildOf p) : c.tree ∈ p.tree.children :=
  tree_mem_of_mem_place h

/-- What stands within a child stands within the parent. -/
theorem within_of_childOf {c p : Node} (h : c.ChildOf p) {t : Tree} (ht : t.Within c.tree) :
    t.Within p.tree := by
  have hmem := tree_mem_of_childOf h
  rcases hp : p.tree with x | ⟨k, cs⟩ <;> rw [hp] at hmem
  · exact absurd hmem List.not_mem_nil
  · exact .child hmem ht

/-- What is listed stands within one of the nodes that the listing begins with. -/
theorem within_of_mem_preorderAll {m : Node} {ns : List Node} (h : m ∈ preorderAll ns) :
    ∃ n ∈ ns, m.tree.Within n.tree := by
  obtain ⟨n, hn, hm⟩ := exists_reflTransGen_of_mem_preorderAll h
  refine ⟨n, hn, ?_⟩
  clear hn
  induction hm using Relation.ReflTransGen.head_induction_on with
  | refl => exact .refl
  | head hc _ ih => exact within_of_childOf hc ih

/-- Every node of a document stands within one of its trees. -/
theorem within_of_mem_nodes {d : Document} {n : Node} (h : n ∈ d.nodes) :
    ∃ t ∈ d.trees, n.tree.Within t := by
  obtain ⟨m, hm, hnm⟩ := within_of_mem_preorderAll h
  exact ⟨m.tree, tree_mem_of_mem_place hm, hnm⟩

end Node

/-! ### What the trees of a document look at -/

namespace Tree

mutual

/-- A tree and all below it, each with the tokens from there on, where `ts` are those from the tree
itself on. -/
def outlook (ts : List Token) : Tree → List (Tree × List Token)
  | leaf t => [(leaf t, ts)]
  | node k cs => (node k cs, ts) :: outlookAll ts cs

/-- The trees of a list and all below them, each with the tokens from there on. -/
def outlookAll (ts : List Token) : List Tree → List (Tree × List Token)
  | [] => []
  | c :: cs => outlook ts c ++ outlookAll (ts.drop c.width) cs

end

/-- What stands behind some trees looks at the tokens that they leave. -/
theorem outlookAll_append (ts : List Token) (cs ds : List Tree) :
    outlookAll ts (cs ++ ds) = outlookAll ts cs ++ outlookAll (ts.drop (widthAll cs)) ds := by
  induction cs generalizing ts with
  | nil => rfl
  | cons c cs ih =>
    rw [List.cons_append, outlookAll, outlookAll, ih, widthAll, List.drop_drop, List.append_assoc]

/-- A single tree sees all the tokens. -/
theorem outlookAll_node (ts : List Token) (k : NodeKind) (cs : List Tree) :
    outlookAll ts [node k cs] = (node k cs, ts) :: outlookAll ts cs := by
  rw [outlookAll, outlookAll, outlook, List.append_nil]

end Tree

/-- **The nodes of a document see what its trees see.** -/
theorem Node.map_preorderAll_place (us : List Token) (id first : Nat) (cs : List Tree) :
    (preorderAll (place id first cs)).map (fun n ↦ (n.tree, us.drop n.first)) =
      Tree.outlookAll (us.drop first) cs := by
  induction cs using Tree.forest_induction generalizing id first with
  | nil => rw [place, preorderAll, List.map_nil, Tree.outlookAll]
  | leaf t cs ih =>
    rw [preorderAll_place_leaf, List.map_cons, ih, Tree.outlookAll, Tree.outlook, Tree.width,
      List.drop_drop, List.singleton_append]
  | node k cs ds ih =>
    rw [preorderAll_place_node, List.map_cons, ih, Tree.outlookAll_append, Tree.outlookAll,
      Tree.outlook, Tree.width, List.cons_append]

end BslLint
