import BslLint.Proofs.Expression.Phrases
import BslLint.Proofs.Expression.Priorities
import BslLint.Proofs.Syntax.Below

/-!
# Which operations stand in the expression of a node

A value is made of names, constants, accesses, calls and choices, and of the expressions inside of
it. So its operations stand in these expressions (`Expr.OnlyIn`), and an expression has no
operations but those that join pieces of its row and those that stand in its operands. Hence **every
operation in the expression of a node joins pieces of the row of one node**, the same or further
down, and the expression of that node is a part of the whole (`Node.exists_hosts_of_has`). This is
so for every tree, whether there are errors in it or not.
-/

namespace BslLint

namespace Expr

/-! ### Operations in the expressions inside -/

/-- Every operation of the expression stands in a part of it of which something is so. -/
def OnlyIn (E : Expr → Prop) (x : Expr) : Prop :=
  ∀ z, x.Has z → z.role? = some .operation → ∃ y, E y ∧ x.Has y ∧ y.Has z

variable {E E' : Expr → Prop} {x y : Expr} {xs : List Expr}

namespace OnlyIn

/-- What is so of the expression itself is so of one that has its operations. -/
theorem of (h : E x) : OnlyIn E x := fun _ hz _ ↦ ⟨x, h, .refl x, hz⟩

theorem mono (h : OnlyIn E x) (hE : ∀ y, E y → E' y) : OnlyIn E' x := by
  intro z hz hrole
  obtain ⟨y, hy, hxy, hyz⟩ := h z hz hrole
  exact ⟨y, hE y hy, hxy, hyz⟩

/-- What is no operation has the operations of what it is directly made of. -/
theorem of_direct (hx : x.role? ≠ some .operation) (h : ∀ y ∈ x.direct, OnlyIn E y) :
    OnlyIn E x := by
  intro z hz hrole
  obtain rfl | ⟨y, hy, hyz⟩ := has_iff.1 hz
  · exact absurd hrole hx
  · obtain ⟨w, hw, hyw, hwz⟩ := h y hy z hyz hrole
    exact ⟨w, hw, (has_of_mem_direct hy).trans hyw, hwz⟩

theorem terminal (symbol : Symbol) (o : Origin) : OnlyIn E (.terminal symbol o) :=
  of_direct nofun nofun

theorem call {kind : CallKind} {symbol : Symbol} {o o' : Origin} (h : ∀ x ∈ xs, OnlyIn E x) :
    OnlyIn E (.call kind (.terminal symbol o) xs o') :=
  of_direct nofun (List.forall_mem_cons.2 ⟨terminal symbol o, h⟩)

/-- An argument that was left out has no operations. -/
theorem trimmed (h : ∀ x ∈ xs, OnlyIn E x) : ∀ x ∈ trimmed xs, OnlyIn E x := by
  unfold Expr.trimmed
  split
  · split
    · exact nofun
    · exact h
  · exact h

end OnlyIn

/-- The expression that is found at a node, or further down. -/
def FoundFrom (inner : Node → Option Expr) (n : Node) (y : Expr) : Prop :=
  ∃ e ∈ n.preorder, inner e = some y

variable {inner : Node → Option Expr} {n c : Node}

/-- What is found from a child on is found from its parent on. -/
theorem FoundFrom.of_child (hc : c ∈ n.children) (h : FoundFrom inner c y) :
    FoundFrom inner n y := by
  obtain ⟨e, he, hy⟩ := h
  exact ⟨e, Node.mem_preorder_trans (Node.mem_preorder_of_mem_children hc) he, hy⟩

theorem OnlyIn.of_child (hc : c ∈ n.children) (h : OnlyIn (FoundFrom inner c) x) :
    OnlyIn (FoundFrom inner n) x :=
  h.mono fun _ hy ↦ hy.of_child hc

theorem onlyIn_inner (h : inner n = some x) : OnlyIn (FoundFrom inner n) x :=
  .of ⟨n, n.mem_preorder_self, h⟩

/-! ### Calls and choices -/

/-- Each function that makes an expression of a node takes its operations from below: arguments, -/
theorem onlyIn_argument? (h : argument? inner n = some x) : OnlyIn (FoundFrom inner n) x := by
  unfold argument? at h
  split at h
  next c hc => exact (onlyIn_inner h).of_child (Node.mem_children_of_find? hc)
  next =>
    obtain rfl := Option.some.inj h
    exact .terminal _ _

/-- lists of arguments, -/
theorem onlyIn_arguments? (h : arguments? inner n = some xs) :
    ∀ x ∈ xs, OnlyIn (FoundFrom inner n) x := by
  obtain ⟨list, ys, hlist, hys, rfl⟩ := of_arguments? h
  refine .trimmed fun y hy ↦ ?_
  obtain ⟨c, hc, hcy⟩ := exists_of_mem_right (mapM_eq_some_iff.1 hys) hy
  exact ((onlyIn_argument? hcy).of_child (List.mem_of_mem_filter hc)).of_child
    (Node.mem_children_of_find? hlist)

theorem onlyIn_methodCall? (h : methodCall? inner n = some x) : OnlyIn (FoundFrom inner n) x := by
  obtain ⟨name, word, doCall, args, -, -, hdoCall, hargs, rfl⟩ := of_methodCall? h
  exact .call fun y hy ↦
    (onlyIn_arguments? hargs y hy).of_child (Node.mem_children_of_find? hdoCall)

/-- the making of objects, where the type has none, -/
theorem onlyIn_newExpression? (h : newExpression? inner n = some x) :
    OnlyIn (FoundFrom inner n) x := by
  obtain ⟨callee, args, -, hargs, rfl⟩ := of_newExpression? h
  refine .call fun y hy ↦ ?_
  obtain rfl | ⟨doCall, hdoCall, hargs⟩ := of_optionalArguments? hargs
  · exact nomatch hy
  · exact (onlyIn_arguments? hargs y hy).of_child (Node.mem_children_of_find? hdoCall)

/-- and choices. -/
theorem onlyIn_ternaryOperator? (h : ternaryOperator? inner n = some x) :
    OnlyIn (FoundFrom inner n) x := by
  obtain ⟨c₁, c₂, c₃, rest, y₁, y₂, y₃, hparts, h₁, h₂, h₃, rfl⟩ := of_ternaryOperator? h
  have hpart {c : Node} {y : Expr} (hc : c ∈ c₁ :: c₂ :: c₃ :: rest) (hy : inner c = some y) :
      OnlyIn (FoundFrom inner n) y :=
    (onlyIn_inner hy).of_child (Node.mem_children_of_mem_childrenOfKind (hparts ▸ hc))
  refine .of_direct (by simp [role?]) fun y hy ↦ ?_
  simp only [direct, List.mem_cons, List.not_mem_nil, or_false] at hy
  rcases hy with rfl | rfl | rfl
  · exact hpart (by simp) h₁
  · exact hpart (by simp) h₂
  · exact hpart (by simp) h₃

/-! ### Accesses -/

/-- An access is no operation between operands, whatever is in it. -/
theorem onlyIn_access? {op : Operator} (h : access? inner n = some (op, x)) :
    op.role = .access ∧ OnlyIn (FoundFrom inner n) x := by
  obtain ⟨access, haccess, hcases⟩ := of_access? h
  have hmem : access ∈ n.children := Node.mem_children_of_head? haccess
  obtain ⟨rfl, name, rfl⟩ | ⟨rfl, index, hindex, hx⟩ | ⟨rfl, method, hmethod, hx⟩ := hcases
  · exact ⟨rfl, .terminal _ _⟩
  · exact ⟨rfl, ((onlyIn_inner hx).of_child (Node.mem_children_of_find? hindex)).of_child hmem⟩
  · have honly := onlyIn_methodCall? hx
    exact ⟨rfl, (honly.of_child (Node.mem_children_of_find? hmethod)).of_child hmem⟩

/-- An access adds what is in it to what the value has, -/
theorem onlyIn_modified? {base : Expr} (hc : c ∈ n.children)
    (hbase : OnlyIn (FoundFrom inner n) base) (h : modified? inner base c = some x) :
    OnlyIn (FoundFrom inner n) x := by
  obtain ⟨op, y, hy, rfl⟩ := of_modified? h
  obtain ⟨hop, honly⟩ := onlyIn_access? hy
  refine .of_direct (fun hrole ↦ ?_) (List.forall_mem_cons.2 ⟨hbase, ?_⟩)
  · exact absurd (hop.symm.trans (Option.some.inj hrole)) (by decide)
  · exact List.forall_mem_singleton.2 (honly.of_child hc)

/-- and so do all accesses together. -/
theorem onlyIn_allModified? {base : Expr} (hbase : OnlyIn (FoundFrom inner n) base)
    (h : allModified? inner base n = some x) : OnlyIn (FoundFrom inner n) x := by
  have hmem : ∀ m ∈ n.childrenOfKind .modifier, m ∈ n.children :=
    fun m hm ↦ List.mem_of_mem_filter hm
  rw [allModified?] at h
  generalize n.childrenOfKind .modifier = ms at h hmem
  induction ms generalizing base with
  | nil =>
    obtain rfl := Option.some.inj h
    exact hbase
  | cons m ms ih =>
    obtain ⟨hm, hms⟩ := List.forall_mem_cons.1 hmem
    rw [List.foldlM_cons] at h
    obtain ⟨y, hy, h⟩ := Option.bind_eq_some_iff.1 h
    exact ih (onlyIn_modified? hm hbase hy) h hms

/-! ### Operands -/

/-- A value that is accessed comes from below, -/
theorem onlyIn_base? (h : base? inner n = some x) : OnlyIn (FoundFrom inner n) x := by
  unfold base? at h
  split at h
  · obtain rfl := Option.some.inj h
    exact .terminal _ _
  · exact onlyIn_methodCall? h
  · exact onlyIn_newExpression? h
  · exact onlyIn_ternaryOperator? h
  · exact nomatch h

/-- with its accesses as well, -/
theorem onlyIn_complexIdentifier? (h : complexIdentifier? inner n = some x) :
    OnlyIn (FoundFrom inner n) x := by
  obtain ⟨first, base, hfirst, hbase, h⟩ := of_complexIdentifier? h
  exact onlyIn_allModified? ((onlyIn_base? hbase).of_child (Node.mem_children_of_head? hfirst)) h

/-- and so does an operand. -/
theorem onlyIn_operand? (h : operand? inner n = some x) : OnlyIn (FoundFrom inner n) x := by
  obtain ⟨first, hfirst, rfl | h | ⟨inside, base, hinside, hbase, h⟩⟩ := of_operand? h
  · exact .terminal _ _
  · exact (onlyIn_complexIdentifier? h).of_child (Node.mem_children_of_find? hfirst)
  · exact onlyIn_allModified? ((onlyIn_inner hbase).of_child (Node.mem_children_of_find? hinside)) h

/-- Operators of a row hold nothing, so only its operands count. -/
theorem onlyIn_pieces? {row : List Piece} (h : pieces? inner n = some row) :
    ∀ x, .operand x ∈ row → OnlyIn (FoundFrom inner n) x := by
  intro x hx
  obtain ⟨ps, y, -, -, hy, rfl⟩ | ⟨p, -, -, rfl⟩ := of_pieces? h
  · obtain rfl : x = y := by simpa using hx
    exact onlyIn_operand? hy
  · simp at hx

/-- An operator between operands comes from the node of an operation. -/
theorem of_pieces?_binary {row : List Piece} (h : pieces? inner n = some row) {p : Pending}
    (hp : .binary p ∈ row) : n.kind = .operation ∧ p.origin = .ofNode n := by
  obtain ⟨ps, y, -, -, -, rfl⟩ | ⟨q, hkind, hq, rfl⟩ := of_pieces? h
  · simp at hp
  · obtain rfl : p = q := by simpa using hp
    exact ⟨hkind, (of_operation? hq).2⟩

end Expr

namespace Node

open BslLint.Expr Piece

/-- An operand of a row is made below the node. -/
theorem onlyIn_of_mem_row {n : Node} {row : List Piece} (h : n.row? = some row) {a : Expr}
    (ha : .operand a ∈ row) : ∃ c ∈ n.children, OnlyIn (FoundFrom expr? c) a := by
  obtain ⟨rows, hrows, rfl⟩ := Option.map_eq_some_iff.1 h
  obtain ⟨ps, hps, ha⟩ := List.mem_flatten.1 ha
  obtain ⟨c, hc, hpieces⟩ := exists_of_mem_right (mapM_eq_some_iff.1 hrows) hps
  exact ⟨c, hc, onlyIn_pieces? hpieces a ha⟩

/-- A node below a document's node, the operation that joins pieces of its row, and its expression,
which is part of a larger one. -/
structure Hosts (e : Node) (x z : Expr) : Prop where
  /-- The node is one of an expression. -/
  kind_eq : e.kind = .expression
  /-- Its expression is part of the larger one and has the operation. -/
  exists_expr : ∃ y, e.expr? = some y ∧ x.Has y ∧ y.Has z
  /-- The operation joins pieces of its row. -/
  joins : ∃ row, e.row? = some row ∧ Joins row z

/-- **An operation in the expression of a node joins pieces of the row of one node**, which is the
same node or stands below it. -/
theorem exists_hosts_of_has {text : String} {n : Node} (hn : n ∈ (Document.ofText text).nodes)
    {x z : Expr} (hx : n.expr? = some x) (hxz : x.Has z) (hz : z.role? = some .operation) :
    ∃ e ∈ n.preorder, e.Hosts x z := by
  induction hsize : n.size using Nat.strongRecOn generalizing n x with
  | _ size ih =>
    have hkind : n.kind = .expression := (of_ofNode? (n.expr?_eq ▸ hx)).1
    have hresolve := hx
    rw [expr?_eq_resolve? hkind] at hresolve
    obtain ⟨row, hrow, hresolve⟩ := Option.bind_eq_some_iff.1 hresolve
    rcases (Document.row_of_row? hn hkind hrow).holds_of_has hresolve hz hxz with
      hjoins | ⟨a, ha, haz⟩
    · exact ⟨n, n.mem_preorder_self, hkind, ⟨x, hx, .refl x, hxz⟩, row, hrow, hjoins⟩
    · obtain ⟨c, hc, honly⟩ := onlyIn_of_mem_row hrow ha
      obtain ⟨y, ⟨e, he, hy⟩, hay, hyz⟩ := honly z haz hz
      -- the expression inside of the operand is that of a smaller node
      have hen : e ∈ n.preorder := mem_preorder_trans (mem_preorder_of_mem_children hc) he
      have hlt : e.size < size :=
        hsize ▸ Nat.lt_of_le_of_lt (size_le_of_mem_preorder he) (size_lt_of_mem_children hc)
      obtain ⟨e', he', hkind', ⟨y', hy', hyy', hyz'⟩, hjoins⟩ :=
        ih e.size hlt (mem_nodes_of_mem_preorder hn hen) hy hyz rfl
      have hxy := ((Document.row_of_row? hn hkind hrow).has_operand hresolve ha).trans hay
      exact ⟨e', mem_preorder_trans hen he', hkind', ⟨y', hy', hxy.trans hyy', hyz'⟩, hjoins⟩

/-- The operation comes from a child of the node. -/
theorem Hosts.exists_operation {e : Node} {x z : Expr} (h : e.Hosts x z) :
    ∃ m ∈ e.children, m.kind = .operation ∧ z.origin.node = m.id := by
  obtain ⟨row, hrow, before, lefts, p, rights, after, left, right, rfl, rfl, -⟩ := h.joins
  obtain ⟨rows, hrows, hflat⟩ := Option.map_eq_some_iff.1 hrow
  have hp : .binary p ∈ rows.flatten := by
    rw [hflat]
    simp
  obtain ⟨ps, hps, hp⟩ := List.mem_flatten.1 hp
  obtain ⟨m, hm, hpieces⟩ := exists_of_mem_right (mapM_eq_some_iff.1 hrows) hps
  obtain ⟨hkind, horigin⟩ := of_pieces?_binary hpieces hp
  exact ⟨m, hm, hkind, congrArg Origin.node horigin⟩

end Node

end BslLint
