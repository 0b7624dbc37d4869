import BslLint.Proofs.Syntax.Below
import BslLint.Syntax.Arena

/-!
# How trees lie in an arena

Trees are laid out in preorder, one cell for each node (`Tree.slots`). In the row the cells of a
tree stand together, so that what a cell says is told by what stands in front of it: its number by
the cells, its range by the tokens among them. Only the link to the next sibling looks past the
tree.

A stored tree `Represents` a document if its arena is this row. Then a node of the document is found
at its number, with its kind and its range; going from sibling to sibling gives its children, and
the listing of the arena is that of the document. What is proved of the nodes of a document holds of
the cells and their links.
-/

namespace BslLint

/-! ### What comes from a state -/

section

variable {σ α : Type} {next : σ → Option (α × σ)}

/-- Items that come to an end are all collected, if the bound leaves room for them. -/
theorem Enumerates.collect_eq : ∀ {xs : List α} {s : σ} {bound : Nat}, Enumerates next s xs →
    xs.length ≤ bound → collect next bound s = xs
  | [], s, 0, _, _ => rfl
  | [], s, bound + 1, h, _ => by rw [collect, show next s = none from h]
  | x :: xs, s, bound + 1, ⟨s', hs, h⟩, hle => by
    rw [collect, hs]
    exact congrArg (x :: ·) (h.collect_eq (Nat.le_of_succ_le_succ hle))

end

/-! ### The row of cells -/

/-- A cell with the last child of its node. -/
abbrev Slot := Cell × Option Nat

namespace Tree

/-- The number of the first of some trees, or what stands behind them. -/
def firstId (next? : Option Nat) (id : Nat) : List Tree → Option Nat
  | [] => next?
  | _ :: _ => some id

/-- The number of the last of some trees. -/
def lastId (id : Nat) (cs : List Tree) : Option Nat :=
  if cs.isEmpty then none else some (id + sizeAll cs.dropLast)

mutual

/-- The cells of a tree whose topmost node has the number `id`, with `first` tokens before it and
the sibling `next?` behind it. -/
def slots (next? : Option Nat) (id first : Nat) : Tree → List Slot
  | leaf _ => [({ kind := .token, nextSibling := next?, range := ⟨first, first + 1⟩ }, none)]
  | node k cs =>
    ({ kind := k, firstChild := firstId none (id + 1) cs, nextSibling := next?,
       range := ⟨first, first + widthAll cs⟩ }, lastId (id + 1) cs) ::
      slotsAll true none (id + 1) first cs

/-- The cells of trees that stand one behind the other. They are siblings if they are `linked`, and
`next?` is the sibling behind the last. -/
def slotsAll (linked : Bool) (next? : Option Nat) (id first : Nat) : List Tree → List Slot
  | [] => []
  | c :: cs =>
    slots (if linked then firstId next? (id + c.size) cs else none) id first c ++
      slotsAll linked next? (id + c.size) (first + c.width) cs

end

variable (next? : Option Nat) (id first : Nat) (linked : Bool) (cs ds : List Tree) (c : Tree)

theorem firstId_append : firstId next? id (cs ++ ds) =
    firstId (firstId next? (id + sizeAll cs) ds) id cs := by
  cases cs <;> rfl

theorem lastId_append_singleton : lastId id (cs ++ [c]) = some (id + sizeAll cs) := by
  rw [lastId, List.dropLast_concat, if_neg (by simp)]

/-- The cells of two rows of trees stand one behind the other, with a link from the last tree of the
first to the first tree of the second. -/
theorem slotsAll_append : slotsAll linked next? id first (cs ++ ds) =
    slotsAll linked (firstId next? (id + sizeAll cs) ds) id first cs ++
      slotsAll linked next? (id + sizeAll cs) (first + widthAll cs) ds := by
  induction cs generalizing id first with
  | nil => rfl
  | cons c cs ih =>
    rw [List.cons_append, slotsAll, slotsAll, ih, firstId_append, sizeAll, widthAll, Nat.add_assoc,
      Nat.add_assoc, List.append_assoc]

theorem slotsAll_singleton : slotsAll true next? id first [c] = slots next? id first c := by
  rw [slotsAll, slotsAll, List.append_nil]
  rfl

mutual

theorem length_slots (next? : Option Nat) (id first : Nat) :
    ∀ t : Tree, (slots next? id first t).length = t.size
  | leaf _ => rfl
  | node k cs => by rw [slots, List.length_cons, length_slotsAll true none (id + 1) first cs, size]

/-- There are as many cells as nodes. -/
theorem length_slotsAll (linked : Bool) (next? : Option Nat) (id first : Nat) :
    ∀ cs : List Tree, (slotsAll linked next? id first cs).length = sizeAll cs
  | [] => rfl
  | c :: cs => by
    rw [slotsAll, List.length_append, length_slots _ id first c,
      length_slotsAll linked next? (id + c.size) (first + c.width) cs, sizeAll]

end

end Tree

/-! ### Finding a node in its row -/

namespace Node

/-- The cell of the node, with `next?` for the sibling behind. -/
def cell (n : Node) (next? : Option Nat) : Cell :=
  ⟨n.kind, n.children.head?.map Node.id, next?, n.range⟩

/-- The first of the cells of a node is its own, and the others are those below it. -/
theorem slots_eq (n : Node) (next? : Option Nat) : n.tree.slots next? n.id n.first =
    (n.cell next?, Tree.lastId (n.id + 1) n.tree.children) ::
      Tree.slotsAll true none (n.id + 1) n.first n.tree.children := by
  obtain ⟨id, first, t | ⟨k, _ | ⟨c, cs⟩⟩⟩ := n <;> rfl

/-- The cells of the node stand at its number in the row, with `next?` for the sibling behind. -/
def LiesIn (n : Node) (next? : Option Nat) (row : List Slot) : Prop :=
  ∃ us vs, row = us ++ (n.tree.slots next? n.id n.first ++ vs) ∧ us.length = n.id

/-- Every child is a node of its own. -/
theorem length_children_lt (n : Node) : n.children.length < n.size := by
  have hlisting := congrArg List.length n.map_id_preorder
  have hbelow := (perm_preorderAll n.children).length_eq
  rw [preorder, preorderAll_cons, List.append_nil, List.length_map, List.length_cons,
    List.length_range'] at hlisting
  rw [List.length_append] at hbelow
  omega

variable {n : Node} {row : List Slot} {next? : Option Nat}

/-- At the number of a node stands its own cell. -/
theorem LiesIn.getElem? (h : n.LiesIn next? row) : (row.map Prod.fst)[n.id]? = n.cell next? := by
  obtain ⟨us, vs, rfl, hid⟩ := h
  rw [slots_eq, List.cons_append, List.map_append, List.map_cons, ← hid,
    List.getElem?_append_right (Nat.le_of_eq (List.length_map _)), List.length_map, Nat.sub_self]
  rfl

/-- Trees of a row lie where they are placed. -/
theorem liesIn_of_mem_place {linked : Bool} {id first : Nat} {cs : List Tree} {us vs : List Slot}
    (h : row = us ++ (Tree.slotsAll linked next? id first cs ++ vs)) (hid : us.length = id) :
    ∀ n ∈ place id first cs, ∃ behind?, n.LiesIn behind? row := by
  induction cs generalizing id first us with
  | nil => exact nofun
  | cons c cs ih =>
    rw [Tree.slotsAll, List.append_assoc] at h
    refine List.forall_mem_cons.2 ⟨⟨_, us, _, h, hid⟩, ?_⟩
    rw [← List.append_assoc] at h
    refine ih h ?_
    rw [List.length_append, Tree.length_slots, hid]

/-- The cells of the children stand behind that of the node. -/
theorem LiesIn.exists_children (h : n.LiesIn next? row) : ∃ us vs,
    row = us ++ (Tree.slotsAll true none (n.id + 1) n.first n.tree.children ++ vs) ∧
      us.length = n.id + 1 := by
  obtain ⟨us, vs, hrow, hid⟩ := h
  rw [slots_eq, List.cons_append, ← List.singleton_append, ← List.append_assoc] at hrow
  exact ⟨_, vs, hrow, by rw [List.length_append, hid]; rfl⟩

/-- Where a node lies in the row, its children do. -/
theorem LiesIn.child {c : Node} (h : n.LiesIn next? row) (hc : c ∈ n.children) :
    ∃ behind?, c.LiesIn behind? row := by
  obtain ⟨us, vs, hrow, hid⟩ := h.exists_children
  exact liesIn_of_mem_place hrow hid c hc

end Node

/-! ### Stored trees that stand for documents -/

/-- The arena is the row of cells of the document, and the rest is the same. -/
structure SyntaxTree.Represents (t : SyntaxTree) (d : Document) : Prop where
  /-- The cells are those of the trees of the document. -/
  cells : t.arena.cells.toList = (Tree.slotsAll false none 0 0 d.trees).map Prod.fst
  /-- The root is the first node. -/
  root : t.root = d.root.id
  /-- The text is the same. -/
  source : t.source = d.source
  /-- The tokens are the same. -/
  tokens : t.tokens = d.tokens
  /-- The errors are the same. -/
  errors : t.errors = d.errors

namespace SyntaxTree.Represents

variable {t : SyntaxTree} {d : Document} {n : Node}

/-- The arena is as large as the document. -/
theorem size_eq (h : t.Represents d) : t.arena.size = d.size := by
  rw [Arena.size, ← Array.length_toList, h.cells, List.length_map, Tree.length_slotsAll]
  rfl

theorem map_id (h : t.Represents d) : d.nodes.map Node.id = List.range t.arena.size := by
  rw [Document.nodes, Node.map_id_preorderAll_place, ← List.range_eq_range', h.size_eq]
  rfl

theorem mem_nodes_iff (h : t.Represents d) (i : Nat) :
    (∃ n ∈ d.nodes, n.id = i) ↔ i < t.arena.size := by
  rw [← List.mem_map, h.map_id, List.mem_range]

/-- The number of a node is its place in the listing. -/
theorem getElem?_nodes (h : t.Represents d) (hn : n ∈ d.nodes) : d.nodes[n.id]? = some n := by
  have hlt : n.id < d.nodes.length := by
    rw [← List.length_map Node.id, h.map_id, List.length_range]
    exact (h.mem_nodes_iff n.id).1 ⟨n, hn, rfl⟩
  have hid : (d.nodes.map Node.id)[n.id]? = some n.id := by
    rw [h.map_id, List.getElem?_range ((h.mem_nodes_iff n.id).1 ⟨n, hn, rfl⟩)]
  rw [List.getElem?_map, List.getElem?_eq_getElem hlt, Option.map_some, Option.some.injEq] at hid
  rw [List.getElem?_eq_getElem hlt, Node.eq_of_id_eq (List.getElem_mem hlt) hn hid]

/-- There are no cells but those of the nodes. -/
theorem cells_eq (h : t.Represents d) :
    t.arena.cells.toList = d.nodes.map fun n ↦ t.arena.cell n.id := by
  rw [← Function.comp_def t.arena.cell, ← List.map_map, h.map_id]
  refine List.ext_getElem (by rw [List.length_map, List.length_range]; rfl) fun i hi _ ↦ ?_
  rw [List.getElem_map, List.getElem_range, Arena.cell, Array.getD_eq_getD_getElem?,
    ← Array.getElem?_toList, List.getElem?_eq_getElem hi]
  rfl

theorem id_lt (h : t.Represents d) (hn : n ∈ d.nodes) : n.id < t.arena.size :=
  (h.mem_nodes_iff n.id).1 ⟨n, hn, rfl⟩

/-- Every node of the document lies in the arena. -/
theorem exists_liesIn (hn : n ∈ d.nodes) :
    ∃ next?, n.LiesIn next? (Tree.slotsAll false none 0 0 d.trees) := by
  obtain ⟨top, htop, hreach⟩ := Node.exists_reflTransGen_of_mem_preorderAll hn
  have hrow : Tree.slotsAll false none 0 0 d.trees =
      [] ++ (Tree.slotsAll false none 0 0 d.trees ++ []) := by rw [List.append_nil, List.nil_append]
  clear hn
  induction hreach with
  | refl => exact Node.liesIn_of_mem_place hrow rfl top htop
  | tail _ hchild ih =>
    obtain ⟨_, hlies⟩ := ih
    exact hlies.child hchild

theorem cell_eq {next? : Option Nat} (h : t.Represents d)
    (hn : n.LiesIn next? (Tree.slotsAll false none 0 0 d.trees)) :
    t.arena.cell n.id = n.cell next? := by
  rw [Arena.cell, Array.getD_eq_getD_getElem?, ← Array.getElem?_toList, h.cells, hn.getElem?]
  rfl

/-- **A node is found at its number**, with its kind and its range. -/
theorem exists_cell_eq (h : t.Represents d) (hn : n ∈ d.nodes) :
    ∃ next?, t.arena.cell n.id = n.cell next? := by
  obtain ⟨next?, hlies⟩ := exists_liesIn hn
  exact ⟨next?, h.cell_eq hlies⟩

theorem kind_eq (h : t.Represents d) (hn : n ∈ d.nodes) : (t.arena.cell n.id).kind = n.kind := by
  obtain ⟨next?, hcell⟩ := h.exists_cell_eq hn
  rw [hcell, Node.cell]

theorem range_eq (h : t.Represents d) (hn : n ∈ d.nodes) : (t.arena.cell n.id).range = n.range := by
  obtain ⟨next?, hcell⟩ := h.exists_cell_eq hn
  rw [hcell, Node.cell]

/-- From a tree of a row the siblings lead to those behind it. -/
theorem enumerates_place (h : t.Represents d) {id first : Nat} {cs : List Tree} {us vs : List Slot}
    (hrow : Tree.slotsAll false none 0 0 d.trees =
      us ++ (Tree.slotsAll true none id first cs ++ vs)) (hid : us.length = id) :
    Enumerates t.arena.nextChild (Tree.firstId none id cs)
      ((Node.place id first cs).map Node.id) := by
  induction cs generalizing id first us with
  | nil => rfl
  | cons c cs ih =>
    rw [Tree.slotsAll, List.append_assoc] at hrow
    have hcell : t.arena.cell id = Node.cell ⟨id, first, c⟩ (Tree.firstId none (id + c.size) cs) :=
      h.cell_eq (n := ⟨id, first, c⟩) ⟨us, _, hrow, hid⟩
    rw [← List.append_assoc] at hrow
    refine ⟨Tree.firstId none (id + c.size) cs, ?_, ih hrow ?_⟩
    · rw [Tree.firstId, Arena.nextChild, hcell]
      rfl
    · rw [List.length_append, Tree.length_slots, hid]

/-- **From the first child the siblings lead through all children**, and to an end. -/
theorem enumerates_children (h : t.Represents d) (hn : n ∈ d.nodes) :
    Enumerates t.arena.nextChild (t.arena.cell n.id).firstChild (n.children.map Node.id) := by
  obtain ⟨next?, hlies⟩ := exists_liesIn hn
  obtain ⟨us, vs, hrow, hid⟩ := hlies.exists_children
  have hfirst : (n.cell next?).firstChild = Tree.firstId none (n.id + 1) n.tree.children := by
    show n.children.head?.map Node.id = _
    rw [Node.children]
    cases n.tree.children <;> rfl
  rw [h.cell_eq hlies, hfirst]
  exact h.enumerates_place hrow hid

/-- The nodes below a node have numbers of the document. -/
theorem ids_le (hn : n ∈ d.nodes) : n.id + n.size ≤ d.size := by
  obtain ⟨top, htop, hreach⟩ := Node.exists_reflTransGen_of_mem_preorderAll hn
  have htop := (Node.ids_of_mem_place htop).2
  have hids := (Node.ids_of_mem_preorder
    (Node.mem_preorderAll_of_reflTransGen top.mem_preorder_self hreach)).2
  show n.id + n.size ≤ Tree.sizeAll d.trees
  omega

/-- The links of a node lead to its children, from left to right. -/
theorem children_eq (h : t.Represents d) (hn : n ∈ d.nodes) :
    t.arena.children n.id = n.children.map Node.id := by
  refine (h.enumerates_children hn).collect_eq ?_
  have hle := n.length_children_lt
  have hids := ids_le hn
  rw [List.length_map, h.size_eq]
  omega

/-- The listing of the arena is that of the document, and comes to an end. -/
theorem enumerates_preorder (h : t.Represents d) (ns : List Node) (hns : ∀ n ∈ ns, n ∈ d.nodes) :
    Enumerates t.arena.nextInPreorder (ns.map Node.id) ((Node.preorderAll ns).map Node.id) := by
  fun_induction Node.preorderAll ns with
  | case1 => rfl
  | case2 n pending ih =>
    obtain ⟨hn, hpending⟩ := List.forall_mem_cons.1 hns
    refine ⟨_, rfl, ?_⟩
    rw [h.children_eq hn, ← List.map_append]
    exact ih fun c hc ↦ (List.mem_append.1 hc).elim (Node.mem_nodes_of_mem_children hn) (hpending c)

theorem preorder_eq (h : t.Represents d) (hn : n ∈ d.nodes) :
    t.arena.preorder n.id = n.preorder.map Node.id := by
  refine (h.enumerates_preorder [n] (List.forall_mem_singleton.2 hn)).collect_eq ?_
  have hids := ids_le hn
  rw [← Node.preorder, Node.map_id_preorder, List.length_range', h.size_eq]
  omega

/-! ### What the links make -/

section

variable {p q c : Nat}

/-- A child is a node with a greater number. -/
theorem lt_of_mem_children (h : t.Represents d) (hp : p < t.arena.size)
    (hc : c ∈ t.arena.children p) : p < c ∧ c < t.arena.size := by
  obtain ⟨n, hn, rfl⟩ := (h.mem_nodes_iff p).2 hp
  rw [h.children_eq hn] at hc
  obtain ⟨m, hm, rfl⟩ := List.mem_map.1 hc
  exact ⟨(Node.ids_of_childOf hm).1, h.id_lt (Node.mem_nodes_of_mem_children hn hm)⟩

/-- Numbers are linked as their nodes are. -/
theorem mem_children_iff (h : t.Represents d) {m : Node} (hn : n ∈ d.nodes) (hm : m ∈ d.nodes) :
    m.id ∈ t.arena.children n.id ↔ m.ChildOf n := by
  rw [h.children_eq hn]
  refine ⟨fun hmem ↦ ?_, List.mem_map_of_mem⟩
  obtain ⟨m', hm', hid⟩ := List.mem_map.1 hmem
  rwa [← Node.eq_of_id_eq (Node.mem_nodes_of_mem_children hn hm') hm hid]

/-- No node is a child of two. -/
theorem eq_of_mem_children (h : t.Represents d) (hp : p < t.arena.size) (hq : q < t.arena.size)
    (hcp : c ∈ t.arena.children p) (hcq : c ∈ t.arena.children q) : p = q := by
  obtain ⟨m, hm, rfl⟩ := (h.mem_nodes_iff c).2 (h.lt_of_mem_children hp hcp).2
  obtain ⟨a, ha, rfl⟩ := (h.mem_nodes_iff p).2 hp
  obtain ⟨b, hb, rfl⟩ := (h.mem_nodes_iff q).2 hq
  rw [Node.eq_of_childOf ha hb ((h.mem_children_iff ha hm).1 hcp)
    ((h.mem_children_iff hb hm).1 hcq)]

/-- Of two children of a node the left has the smaller number. -/
theorem pairwise_children (h : t.Represents d) (hp : p < t.arena.size) :
    (t.arena.children p).Pairwise (· < ·) := by
  obtain ⟨n, hn, rfl⟩ := (h.mem_nodes_iff p).2 hp
  rw [h.children_eq hn, List.pairwise_map]
  exact (Node.inOrder_children n).imp fun {c c'} hle ↦
    Nat.lt_of_lt_of_le (Nat.lt_add_of_pos_right c.size_pos) hle

theorem enumerates_preorder_self (h : t.Represents d) (hp : p < t.arena.size) :
    Enumerates t.arena.nextInPreorder [p] (t.arena.preorder p) := by
  obtain ⟨n, hn, rfl⟩ := (h.mem_nodes_iff p).2 hp
  rw [h.preorder_eq hn]
  exact h.enumerates_preorder [n] (List.forall_mem_singleton.2 hn)

end

end SyntaxTree.Represents

end BslLint
