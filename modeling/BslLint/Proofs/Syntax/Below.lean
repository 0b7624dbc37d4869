import BslLint.Proofs.Syntax.Preorder
import Mathlib.Data.List.Nodup
import Mathlib.Data.List.Pairwise

/-!
# What stands below a node

A node stands below another one if it is reached from it by going from nodes to their children.
Within one document this is told by the numbers of the two nodes alone, so it can be computed
without going anywhere (`Node.isBelow_iff_transGen`).
-/

namespace BslLint

namespace Node

/-- `m` stands below `n`, both being nodes of one document. -/
def IsBelow (m n : Node) : Prop := n.id < m.id ∧ m.id < n.id + n.size

instance (m n : Node) : Decidable (m.IsBelow n) := inferInstanceAs (Decidable (_ ∧ _))

/-- The numbers below a node of a list of trees lie among those of the list. -/
theorem ids_of_mem_place {id first : Nat} {cs : List Tree} {c : Node} (h : c ∈ place id first cs) :
    id ≤ c.id ∧ c.id + c.size ≤ id + Tree.sizeAll cs := by
  induction cs generalizing id first with
  | nil => exact absurd h List.not_mem_nil
  | cons t cs ih =>
    rw [Tree.sizeAll]
    rcases List.mem_cons.1 h with rfl | h
    · exact ⟨Nat.le_refl _, by simp only [size]; omega⟩
    · have := ih h
      omega

/-- A node counts itself and all below it. -/
theorem size_eq (n : Node) : n.size = Tree.sizeAll n.tree.children + 1 := by
  rcases h : n.tree with t | ⟨k, cs⟩ <;> simp [size, h, Tree.size, Tree.children, Tree.sizeAll]

/-- A child has its numbers among those of its parent. -/
theorem ids_of_childOf {c p : Node} (h : c.ChildOf p) :
    p.id < c.id ∧ c.id + c.size ≤ p.id + p.size := by
  have hids := ids_of_mem_place h
  have hsize := p.size_eq
  omega

/-- Going down leads to greater numbers, but not beyond those of the node. -/
theorem isBelow_of_transGen {m n : Node} (h : Relation.TransGen ChildOf m n) : m.IsBelow n := by
  induction h with
  | single h =>
    have hids := ids_of_childOf h
    have hpos := m.size_pos
    exact ⟨hids.1, by omega⟩
  | tail _ h ih =>
    have hids := ids_of_childOf h
    exact ⟨Nat.lt_trans hids.1 ih.1, Nat.lt_of_lt_of_le ih.2 hids.2⟩

/-- What is listed below a node stands below it. -/
theorem isBelow_of_mem_preorderAll_children {m n : Node} (h : m ∈ preorderAll n.children) :
    m.IsBelow n := by
  obtain ⟨c, hc, hcm⟩ := exists_reflTransGen_of_mem_preorderAll h
  exact isBelow_of_transGen (Relation.transGen_swap.1 (.head' hc hcm))

/-- The numbers of a listing begin where the places do. -/
theorem le_id_of_mem_preorderAll {id first : Nat} {cs : List Tree} {m : Node}
    (h : m ∈ preorderAll (place id first cs)) : id ≤ m.id := by
  have hid : m.id ∈ (preorderAll (place id first cs)).map Node.id := List.mem_map_of_mem h
  rw [map_id_preorderAll_place, List.mem_range'_1] at hid
  exact hid.1

/-- A listing holds all that stands below its nodes. -/
theorem mem_preorderAll_of_reflTransGen {ns : List Node} {m n : Node} (hn : n ∈ preorderAll ns)
    (h : Relation.ReflTransGen (flip ChildOf) n m) : m ∈ preorderAll ns := by
  induction h with
  | refl => exact hn
  | tail _ h ih =>
    exact (perm_preorderAll ns).subset (List.mem_append_right _ (List.mem_flatMap.2 ⟨_, ih, h⟩))

theorem mem_nodes_of_mem_children {d : Document} {n c : Node} (hn : n ∈ d.nodes)
    (hc : c ∈ n.children) : c ∈ d.nodes :=
  mem_preorderAll_of_reflTransGen hn (.single hc)

/-! ### Listing from a node on -/

section

variable {n c e : Node}

/-- The listing from a node on has its numbers. -/
theorem map_id_preorder (n : Node) : n.preorder.map id = List.range' n.id n.size := by
  have h := map_id_preorderAll_place n.id n.first [n.tree]
  rw [Tree.sizeAll, Tree.sizeAll, Nat.add_zero] at h
  exact h

theorem mem_preorder_self (n : Node) : n ∈ n.preorder := by
  rw [preorder, preorderAll_cons]
  exact List.mem_cons_self

/-- What is listed from a node on is reached by going from nodes to their children. -/
theorem reflTransGen_of_mem_preorder (h : e ∈ n.preorder) :
    Relation.ReflTransGen (flip ChildOf) n e := by
  obtain ⟨n', hn', hreach⟩ := exists_reflTransGen_of_mem_preorderAll h
  obtain rfl := List.mem_singleton.1 hn'
  exact hreach

/-- What is listed from a listed node on is listed. -/
theorem mem_preorder_trans (hc : c ∈ n.preorder) (he : e ∈ c.preorder) : e ∈ n.preorder :=
  mem_preorderAll_of_reflTransGen hc (reflTransGen_of_mem_preorder he)

theorem mem_preorder_of_mem_children (hc : c ∈ n.children) : c ∈ n.preorder :=
  mem_preorderAll_of_reflTransGen n.mem_preorder_self (.single hc)

theorem mem_nodes_of_mem_preorder {d : Document} (hn : n ∈ d.nodes) (he : e ∈ n.preorder) :
    e ∈ d.nodes :=
  mem_preorderAll_of_reflTransGen hn (reflTransGen_of_mem_preorder he)

/-- Nothing below a node is larger. -/
theorem size_le_of_mem_preorder (h : e ∈ n.preorder) : e.size ≤ n.size := by
  have hreach := reflTransGen_of_mem_preorder h
  clear h
  induction hreach with
  | refl => exact Nat.le_refl _
  | tail _ hchild ih => exact Nat.le_trans (Nat.le_of_lt (size_lt_of_mem_children hchild)) ih

end

/-! ### Nodes one behind the other -/

section

/-- Each node of a list ends before the next one begins. -/
def InOrder (ns : List Node) : Prop := ns.Pairwise fun m n ↦ m.id + m.size ≤ n.id

/-- Nodes that are placed one behind the other do not overlap. -/
theorem inOrder_place (id first : Nat) (cs : List Tree) : InOrder (place id first cs) := by
  induction cs generalizing id first with
  | nil => exact .nil
  | cons c cs ih => exact .cons (fun n hn ↦ (ids_of_mem_place hn).1) (ih _ _)

variable {m n : Node} {pending : List Node}

/-- What is listed from a node on has its numbers among those of the node. -/
theorem ids_of_mem_preorder (h : m ∈ n.preorder) : n.id ≤ m.id ∧ m.id + m.size ≤ n.id + n.size := by
  have hreach := reflTransGen_of_mem_preorder h
  clear h
  induction hreach with
  | refl => exact ⟨Nat.le_refl _, Nat.le_refl _⟩
  | tail _ hchild ih =>
    have hids := ids_of_childOf hchild
    omega

/-- The numbers below a node come behind its own. -/
theorem ids_of_mem_preorderAll_children (h : m ∈ preorderAll n.children) :
    n.id < m.id ∧ m.id + m.size ≤ n.id + n.size := by
  have hmem : m ∈ n.preorder := by
    rw [preorder, preorderAll_cons, List.append_nil]
    exact List.mem_cons_of_mem n h
  exact ⟨(isBelow_of_mem_preorderAll_children h).1, (ids_of_mem_preorder hmem).2⟩

/-- What is below the first node is listed before the others. -/
theorem preorderAll_eq_append (n : Node) (pending : List Node) :
    preorderAll (n :: pending) = n :: (preorderAll n.children ++ preorderAll pending) := by
  rw [preorderAll_cons, preorderAll_append]

/-- What is listed behind a node has greater numbers. -/
theorem InOrder.le_id (h : InOrder (n :: pending)) (hm : m ∈ preorderAll pending) :
    n.id + n.size ≤ m.id := by
  obtain ⟨p, hp, hreach⟩ := exists_reflTransGen_of_mem_preorderAll hm
  have hle := (List.pairwise_cons.1 h).1 p hp
  have hids := ids_of_mem_preorder
    (mem_preorderAll_of_reflTransGen p.mem_preorder_self hreach)
  omega

theorem InOrder.tail (h : InOrder (n :: pending)) : InOrder pending := (List.pairwise_cons.1 h).2

theorem inOrder_children (n : Node) : InOrder n.children := inOrder_place ..

end

/-- The topmost node is one of the document, if anything is below it. -/
theorem root_mem_nodes {d : Document} {n : Node} (h : n ∈ d.root.children) : d.root ∈ d.nodes := by
  rcases htrees : d.trees with - | ⟨t, ts⟩
  · rw [Document.root, htrees] at h
    exact nomatch h
  · rw [Document.root, Document.nodes, htrees, place, preorderAll_cons]
    exact List.mem_cons_self

/-- No two nodes of a document have one number. -/
theorem eq_of_id_eq {d : Document} {m n : Node} (hm : m ∈ d.nodes) (hn : n ∈ d.nodes)
    (h : m.id = n.id) : m = n := by
  have hids : (d.nodes.map Node.id).Nodup := by
    rw [Document.nodes, map_id_preorderAll_place]
    exact List.nodup_range'
  exact List.inj_on_of_nodup_map hids hm hn h

/-- No node of a document is a child twice. -/
theorem eq_of_childOf {d : Document} {c p q : Node} (hp : p ∈ d.nodes) (hq : q ∈ d.nodes)
    (hcp : c.ChildOf p) (hcq : c.ChildOf q) : p = q := by
  have honce : (d.nodes.flatMap children).Nodup :=
    ((perm_preorderAll _).nodup_iff.2 (nodup_preorderAll_place 0 0 d.trees)).of_append_right
  by_contra hne
  have : Std.Symm (Function.onFun List.Disjoint children) := ⟨fun _ _ h _ hx hy ↦ h hy hx⟩
  have hdisjoint : List.Disjoint p.children q.children :=
    (List.nodup_flatMap.1 honce).2.forall hp hq hne
  exact hdisjoint hcp hcq

/-- **A number tells where a node stands**: below another one it is larger, but not by as much as
the other one has nodes. -/
theorem isBelow_iff_transGen {d : Document} {m n : Node} (hm : m ∈ d.nodes) (hn : n ∈ d.nodes) :
    m.IsBelow n ↔ Relation.TransGen ChildOf m n := by
  refine ⟨fun ⟨hlt, hle⟩ ↦ ?_, isBelow_of_transGen⟩
  -- The numbers below `n` have no gaps, so a node there has the number of `m`, and no number is
  -- given twice in a document.
  have hmem : m.id ∈ (preorderAll n.children).map Node.id := by
    rw [children, map_id_preorderAll_place, List.mem_range'_1]
    have hsize := n.size_eq
    omega
  obtain ⟨m', hm', hid⟩ := List.mem_map.1 hmem
  obtain ⟨c, hc, hcm⟩ := exists_reflTransGen_of_mem_preorderAll hm'
  have hbelow : Relation.TransGen (flip ChildOf) n m' := .head' hc hcm
  obtain rfl : m' = m := eq_of_id_eq
    (mem_preorderAll_of_reflTransGen hn hbelow.to_reflTransGen) hm hid
  exact Relation.transGen_swap.1 hbelow

/-- So what is below a node by its number is listed from the node on, -/
theorem mem_preorder_of_isBelow {d : Document} {m n : Node} (hm : m ∈ d.nodes) (hn : n ∈ d.nodes)
    (h : m.IsBelow n) : m ∈ n.preorder :=
  mem_preorderAll_of_reflTransGen n.mem_preorder_self
    (Relation.transGen_swap.2 ((isBelow_iff_transGen hm hn).1 h)).to_reflTransGen

/-- and the other way round. -/
theorem isBelow_of_mem_preorder {m n : Node} (h : m ∈ n.preorder) (hne : m ≠ n) : m.IsBelow n := by
  rcases Relation.reflTransGen_iff_eq_or_transGen.1 (reflTransGen_of_mem_preorder h) with heq | h
  · exact absurd heq hne
  · exact isBelow_of_transGen (Relation.transGen_swap.1 h)

/-- Standing below is transitive. -/
theorem IsBelow.trans {d : Document} {a b c : Node} (ha : a ∈ d.nodes) (hb : b ∈ d.nodes)
    (hc : c ∈ d.nodes) (hab : a.IsBelow b) (hbc : b.IsBelow c) : a.IsBelow c :=
  isBelow_of_transGen (((isBelow_iff_transGen ha hb).1 hab).trans
    ((isBelow_iff_transGen hb hc).1 hbc))

end Node

end BslLint
