import BslLint.Proofs.Expression.Normalizing
import BslLint.Proofs.Expression.Resolving
import BslLint.Proofs.Grammar.Derivation

/-!
# Values with what stands around them

The second half of the rules: the accesses behind a value, the operators in front of it, and the row
that an expression is written as. An access is told by what it does to any value before it
(`YieldsAccesses`), because it is applied to a value that other rules have made.
-/

namespace BslLint

open Grammar

namespace Expr

variable {d : Document}

/-! ### Accesses -/

/-- An access to a property comes to its name. -/
theorem yields_property {s t : Token} {P : Operator × Expr → Prop}
    (hP : ∀ o : Origin, o.Tells d (.leaf t) → P (.dereference, .terminal .identifier o)) :
    Yields d access? (.node .modifier [.node .accessProperty [.leaf s, .leaf t]]) P := by
  intro n depth hn htree
  obtain ⟨access, haccess, hhead, haccessTree⟩ := n.exists_head?
    (t := .node .accessProperty [.leaf s, .leaf t]) (by rw [htree]; rfl)
  obtain ⟨name, hname, hget, hnameTree⟩ := access.exists_getElem? (t := .leaf t) (i := 1)
    (by rw [haccessTree]; rfl)
  have htells := ((hn.child haccess).child hname).standsIn.tells
  rw [hnameTree] at htells
  refine ⟨_, ?_, hP _ htells⟩
  rw [access?, hhead, Option.bind_eq_bind, Option.bind_some,
    show access.kind = .accessProperty by rw [Node.kind, haccessTree, Tree.kind_node]]
  simp only [hget, Option.bind_some, ofTerminal]
  rfl

/-- An access that calls a method comes to the call. -/
theorem yields_method {s : Token} {cs : List Tree} {P : Expr → Prop}
    (h : Yields d methodCall? (.node .methodCall cs) P) :
    Yields d access? (.node .modifier [.node .accessCall [.leaf s, .node .methodCall cs]])
      (fun a ↦ a.1 = .dereference ∧ P a.2) := by
  intro n depth hn htree
  obtain ⟨access, haccess, hhead, haccessTree⟩ := n.exists_head?
    (t := .node .accessCall [.leaf s, .node .methodCall cs]) (by rw [htree]; rfl)
  obtain ⟨call, hcall, hfind, hcallTree⟩ := access.exists_find? (fun t ↦ t.kind = .methodCall)
    (t := .node .methodCall cs) (by rw [haccessTree]; simp [Tree.children])
  obtain ⟨x, hx, hP⟩ := h call depth ((hn.child haccess).child hcall) hcallTree
  refine ⟨(.dereference, x), ?_, rfl, hP⟩
  rw [access?, hhead, Option.bind_eq_bind, Option.bind_some,
    show access.kind = .accessCall by rw [Node.kind, haccessTree, Tree.kind_node]]
  simp only [show access.childOfKind? .methodCall = some call from hfind, Option.bind_eq_bind,
    Option.bind_some, hx]
  rfl

/-- An access by index comes to the index. -/
theorem yields_index {l r : Token} {t : Tree} {P : Expr → Prop} (ht : t.kind = .expression)
    (h : Yields d id t P) :
    Yields d access? (.node .modifier [.node .accessIndex [.leaf l, t, .leaf r]])
      (fun a ↦ a.1 = .indexAccess ∧ P a.2) := by
  intro n depth hn htree
  obtain ⟨access, haccess, hhead, haccessTree⟩ := n.exists_head?
    (t := .node .accessIndex [.leaf l, t, .leaf r]) (by rw [htree]; rfl)
  obtain ⟨index, hindex, hfind, rfl⟩ := access.exists_find? (fun t ↦ t.kind = .expression)
    (t := t) (by rw [haccessTree]; simp [Tree.children, ht])
  obtain ⟨x, hx, hP⟩ := h index depth ((hn.child haccess).child hindex) rfl
  rw [id_eq] at hx
  refine ⟨(.indexAccess, x), ?_, rfl, hP⟩
  rw [access?, hhead, Option.bind_eq_bind, Option.bind_some,
    show access.kind = .accessIndex by rw [Node.kind, haccessTree, Tree.kind_node]]
  simp only [show access.childOfKind? .expression = some index from hfind, Option.bind_eq_bind,
    Option.bind_some, hx]
  rfl

/-- Whatever the value before them, the accesses can be applied to it, and what comes of it is
related to the value. -/
def YieldsAccesses (d : Document) (ms : List Tree) (T : Expr → Expr → Prop) : Prop :=
  ∀ (ns : List Node) depth base, (∀ n ∈ ns, n.Fits d depth) → ns.map Node.tree = ms →
    ∃ y, ns.foldlM (modified? (nested? depth)) base = some y ∧ T base y

/-- Without accesses the value stays what it is. -/
theorem YieldsAccesses.nil {T : Expr → Expr → Prop} (hT : ∀ x, T x x) : YieldsAccesses d [] T := by
  intro ns depth base _ hns
  obtain rfl := List.map_eq_nil_iff.1 hns
  exact ⟨base, rfl, hT base⟩

/-- The first access is applied to the value, and comes from a node of its own. -/
theorem YieldsAccesses.cons_of_node {m : Tree} {ms : List Tree} {A : Operator × Expr → Prop}
    {T U : Expr → Expr → Prop} (hm : Yields d access? m A) (hms : YieldsAccesses d ms T)
    (hU : ∀ base op right y (n : Node), n.StandsIn d → n.tree = m → A (op, right) →
      T (.binary op base right ⟨n.id, base.range.cover n.range, n.tokenKind?⟩) y → U base y) :
    YieldsAccesses d (m :: ms) U := by
  intro ns depth base hfits hns
  obtain ⟨n, ns, rfl, hn, hrest⟩ := List.map_eq_cons_iff.1 hns
  obtain ⟨hfit, hfits⟩ := List.forall_mem_cons.1 hfits
  obtain ⟨⟨op, right⟩, haccess, hA⟩ := hm n depth hfit hn
  obtain ⟨y, hy, hT⟩ := hms ns depth
    (.binary op base right ⟨n.id, base.range.cover n.range, n.tokenKind?⟩) hfits hrest
  refine ⟨y, ?_, hU base op right y n hfit.standsIn hn hA hT⟩
  rw [List.foldlM_cons, modified?, haccess]
  exact hy

/-- Where the access comes from does not matter to most. -/
theorem YieldsAccesses.cons {m : Tree} {ms : List Tree} {A : Operator × Expr → Prop}
    {T U : Expr → Expr → Prop} (hm : Yields d access? m A) (hms : YieldsAccesses d ms T)
    (hU : ∀ base op right o y, A (op, right) → T (.binary op base right o) y → U base y) :
    YieldsAccesses d (m :: ms) U :=
  .cons_of_node hm hms fun base op right y _ _ _ hA hT ↦ hU base op right _ y hA hT

/-- The accesses of a node are applied from left to right. -/
theorem YieldsAccesses.exists_allModified? {ms : List Tree} {T : Expr → Expr → Prop}
    (h : YieldsAccesses d ms T) {n : Node} {depth : Nat} (hn : n.Fits d depth)
    (hms : n.tree.children.filter (·.kind = .modifier) = ms) (base : Expr) :
    ∃ y, allModified? (nested? depth) base n = some y ∧ T base y :=
  h _ depth base (fun _ hc ↦ hn.child (Node.mem_children_of_mem_childrenOfKind hc))
    ((n.map_tree_childrenOfKind .modifier).trans hms)

theorem filter_modifiers {ms : List Tree} (hms : ∀ m ∈ ms, m.kind = .modifier) :
    ms.filter (·.kind = .modifier) = ms :=
  List.filter_eq_self.2 fun m hm ↦ decide_eq_true (hms m hm)

/-! ### Values with accesses -/

/-- The value that accesses are applied to, given the first node of a value that is named, made or
chosen. -/
def base? (inner : Node → Option Expr) (first : Node) : Option Expr :=
  match first.kind with
  | .token => some (ofTerminal .identifier first)
  | .globalMethodCall => methodCall? inner first
  | .newExpression => newExpression? inner first
  | .ternaryOperator => ternaryOperator? inner first
  | _ => none

/-- A value with accesses, as it is read: the value first, and then what is done to it. -/
theorem complexIdentifier?_eq (inner : Node → Option Expr) (n : Node) :
    complexIdentifier? inner n = n.children.head?.bind fun first ↦
      (base? inner first).bind fun base ↦ allModified? inner base n := by
  unfold complexIdentifier? base?
  cases n.children.head? with
  | none => rfl
  | some first =>
    simp only [Option.bind_eq_bind, Option.bind_some]
    generalize first.kind = k
    cases k <;> rfl

/-- A value is named by its only token, -/
theorem yields_base_name {t : Token} {P : Expr → Prop}
    (hP : ∀ o : Origin, o.Tells d (.leaf t) → P (.terminal .identifier o)) :
    Yields d base? (.leaf t) P := by
  intro n depth hn htree
  have htells := hn.standsIn.tells
  rw [htree] at htells
  refine ⟨_, ?_, hP _ htells⟩
  rw [base?, show n.kind = .token by rw [Node.kind, htree, Tree.kind_leaf], ofTerminal]

/-- or it is what a method gives, -/
theorem yields_base_call {t : Tree} {P : Expr → Prop} (ht : t.kind = .globalMethodCall)
    (h : Yields d methodCall? t P) : Yields d base? t P := by
  intro n depth hn htree
  rw [base?, show n.kind = .globalMethodCall by rw [Node.kind, htree, ht]]
  exact h n depth hn htree

/-- or an object that is made, -/
theorem yields_base_new {t : Tree} {P : Expr → Prop} (ht : t.kind = .newExpression)
    (h : Yields d newExpression? t P) : Yields d base? t P := by
  intro n depth hn htree
  rw [base?, show n.kind = .newExpression by rw [Node.kind, htree, ht]]
  exact h n depth hn htree

/-- or one of two that is chosen. -/
theorem yields_base_ternary {t : Tree} {P : Expr → Prop} (ht : t.kind = .ternaryOperator)
    (h : Yields d ternaryOperator? t P) : Yields d base? t P := by
  intro n depth hn htree
  rw [base?, show n.kind = .ternaryOperator by rw [Node.kind, htree, ht]]
  exact h n depth hn htree

/-- What the value comes to, with its accesses applied. -/
theorem yields_complexIdentifier {t : Tree} {ms : List Tree} {Q P : Expr → Prop}
    {T : Expr → Expr → Prop} (ht : t.kind ≠ .modifier) (hms : ∀ m ∈ ms, m.kind = .modifier)
    (h : Yields d base? t Q) (hmods : YieldsAccesses d ms T) (hP : ∀ b y, Q b → T b y → P y) :
    Yields d complexIdentifier? (.node .complexIdentifier (t :: ms)) P := by
  intro n depth hn htree
  obtain ⟨first, hfirst, hhead, rfl⟩ := n.exists_head? (t := t) (by rw [htree]; rfl)
  obtain ⟨b, hb, hQ⟩ := h first depth (hn.child hfirst) rfl
  have hfilter : n.tree.children.filter (·.kind = .modifier) = ms := by
    rw [htree, Tree.children, List.filter_cons_of_neg (by simpa using ht), filter_modifiers hms]
  obtain ⟨y, hy, hT⟩ := hmods.exists_allModified? hn hfilter b
  refine ⟨y, ?_, hP b y hQ hT⟩
  rw [complexIdentifier?_eq, hhead, Option.bind_some, hb, Option.bind_some, hy]

/-! ### Operands -/

/-- The operand is the first child that is no operator. -/
theorem find?_operand (us : List Token) {c : Tree} (cs : List Tree) (hc : c.kind ≠ .unaryModifier) :
    (us.map unaryTree ++ c :: cs).find? (·.kind ≠ .unaryModifier) = some c := by
  induction us with
  | nil => exact List.find?_cons_of_pos (decide_eq_true hc)
  | cons u us ih =>
    rw [List.map_cons, List.cons_append, List.find?_cons_of_neg (by simp [unaryTree])]
    exact ih

theorem filter_unaries (us : List Token) {k : NodeKind} (hk : k ≠ .unaryModifier) :
    (us.map unaryTree).filter (·.kind = k) = [] := by
  refine List.filter_eq_nil_iff.2 fun t ht ↦ ?_
  obtain ⟨u, -, rfl⟩ := List.mem_map.1 ht
  exact fun h ↦ hk (of_decide_eq_true h).symm

theorem yields_operand_constant_of_node (us : List Token) {cs : List Tree} {P : Expr → Prop}
    (hP : ∀ c : Node, c.StandsIn d → c.tree = .node .constValue cs → P (ofTerminal .literal c)) :
    Yields d operand? (.node .member (us.map unaryTree ++ [.node .constValue cs])) P := by
  intro n depth hn htree
  obtain ⟨first, hmem, hfind, hfirst⟩ := n.exists_find? (fun t ↦ t.kind ≠ .unaryModifier)
    (by rw [htree]; exact find?_operand us [] (by simp))
  refine ⟨_, ?_, hP first (hn.child hmem).standsIn hfirst⟩
  rw [operand?, show n.children.find? (·.kind ≠ .unaryModifier) = some first from hfind,
    Option.bind_eq_bind, Option.bind_some,
    show first.kind = .constValue by rw [Node.kind, hfirst, Tree.kind_node]]

/-- A constant is told by the text of its tokens. -/
theorem yields_operand_constant (us : List Token) {cs : List Tree} {P : Expr → Prop}
    (hP : ∀ o : Origin, o.Tells d (.node .constValue cs) → P (.terminal .literal o)) :
    Yields d operand? (.node .member (us.map unaryTree ++ [.node .constValue cs])) P :=
  yields_operand_constant_of_node us fun _ hc htree ↦ hP _ (htree ▸ hc.tells)

/-- A value with accesses is an operand. -/
theorem yields_operand_complex (us : List Token) {cs : List Tree} {P : Expr → Prop}
    (h : Yields d complexIdentifier? (.node .complexIdentifier cs) P) :
    Yields d operand? (.node .member (us.map unaryTree ++ [.node .complexIdentifier cs])) P := by
  intro n depth hn htree
  obtain ⟨first, hmem, hfind, hfirst⟩ := n.exists_find? (fun t ↦ t.kind ≠ .unaryModifier)
    (by rw [htree]; exact find?_operand us [] (by simp))
  obtain ⟨y, hy, hP⟩ := h first depth (hn.child hmem) hfirst
  refine ⟨y, ?_, hP⟩
  rw [operand?, show n.children.find? (·.kind ≠ .unaryModifier) = some first from hfind,
    Option.bind_eq_bind, Option.bind_some,
    show first.kind = .complexIdentifier by rw [Node.kind, hfirst, Tree.kind_node]]
  exact hy

/-- So is an expression in parentheses, to which accesses may be applied too. -/
theorem yields_operand_parens (us : List Token) {l r : Token} {t : Tree} {ms : List Tree}
    {Q P : Expr → Prop} {T : Expr → Expr → Prop} (hl : l.kind = .leftParen)
    (ht : t.kind = .expression) (hms : ∀ m ∈ ms, m.kind = .modifier) (h : Yields d id t Q)
    (hmods : YieldsAccesses d ms T) (hP : ∀ b y, Q b → T b y → P y) :
    Yields d operand? (.node .member (us.map unaryTree ++ .leaf l :: t :: .leaf r :: ms)) P := by
  intro n depth hn htree
  -- The first child that is no sign is the parenthesis, which decides how the operand is read.
  obtain ⟨first, hmem, hfind, hfirst⟩ := n.exists_find? (fun t ↦ t.kind ≠ .unaryModifier)
    (by rw [htree]; exact find?_operand us _ (by simp))
  obtain ⟨inside, hinside, hfindInside, rfl⟩ := n.exists_find? (fun t ↦ t.kind = .expression)
    (t := t) (by
      rw [htree, Tree.children, List.find?_append,
        ← List.head?_filter, filter_unaries us (by decide)]
      simp [ht])
  obtain ⟨b, hb, hQ⟩ := h inside depth (hn.child hinside) rfl
  -- All accesses stand behind, so they are applied to what is in the parentheses.
  have hfilter : n.tree.children.filter (·.kind = .modifier) = ms := by
    rw [htree, Tree.children, List.filter_append, filter_unaries us (by decide), List.nil_append,
      List.filter_cons_of_neg (by simp), List.filter_cons_of_neg (by simp [ht]),
      List.filter_cons_of_neg (by simp), filter_modifiers hms]
  obtain ⟨y, hy, hT⟩ := hmods.exists_allModified? hn hfilter b
  refine ⟨y, ?_, hP b y hQ hT⟩
  rw [id_eq] at hb
  have hkind : first.tokenKind? = some .leftParen := by
    rw [Node.tokenKind?, hfirst, Tree.token?, Option.map_some, hl]
  rw [operand?, show n.children.find? (·.kind ≠ .unaryModifier) = some first from hfind,
    Option.bind_eq_bind, Option.bind_some,
    show first.kind = .token by rw [Node.kind, hfirst, Tree.kind_leaf]]
  simp only [hkind, if_true, show n.childOfKind? .expression = some inside from hfindInside,
    Option.bind_eq_bind, Option.bind_some, hb]
  exact hy

/-! ### What values are made of

The other direction again: what was found where there is a value. -/

section

variable {inner : Node → Option Expr} {n : Node} {base x : Expr}

/-- An access names a property, has an index, or calls a method. -/
theorem of_access? {op : Operator} (h : access? inner n = some (op, x)) :
    ∃ access, n.children.head? = some access ∧
      ((op = .dereference ∧ ∃ name, x = ofTerminal .identifier name) ∨
        (op = .indexAccess ∧
          ∃ index, access.childOfKind? .expression = some index ∧ inner index = some x) ∨
        op = .dereference ∧ ∃ method, access.childOfKind? .methodCall = some method ∧
          methodCall? inner method = some x) := by
  obtain ⟨access, haccess, h⟩ := Option.bind_eq_some_iff.1 h
  refine ⟨access, haccess, ?_⟩
  split at h
  · obtain ⟨name, -, h⟩ := Option.bind_eq_some_iff.1 h
    obtain ⟨rfl, rfl⟩ := Prod.mk.inj (Option.some.inj h)
    exact .inl ⟨rfl, name, rfl⟩
  · obtain ⟨index, hindex, h⟩ := Option.bind_eq_some_iff.1 h
    obtain ⟨y, hy, h⟩ := Option.bind_eq_some_iff.1 h
    obtain ⟨rfl, rfl⟩ := Prod.mk.inj (Option.some.inj h)
    exact .inr (.inl ⟨rfl, index, hindex, hy⟩)
  · obtain ⟨method, hmethod, h⟩ := Option.bind_eq_some_iff.1 h
    obtain ⟨y, hy, h⟩ := Option.bind_eq_some_iff.1 h
    obtain ⟨rfl, rfl⟩ := Prod.mk.inj (Option.some.inj h)
    exact .inr (.inr ⟨rfl, method, hmethod, hy⟩)
  · exact nomatch h

/-- An access was applied with the operator and the operand that it tells of. -/
theorem of_modified? (h : modified? inner base n = some x) :
    ∃ op right, access? inner n = some (op, right) ∧
      x = .binary op base right ⟨n.id, base.range.cover n.range, n.tokenKind?⟩ := by
  obtain ⟨⟨op, right⟩, haccess, h⟩ := Option.bind_eq_some_iff.1 h
  exact ⟨op, right, haccess, (Option.some.inj h).symm⟩

/-- The accesses were applied to what the first child comes to. -/
theorem of_complexIdentifier? (h : complexIdentifier? inner n = some x) :
    ∃ first base, n.children.head? = some first ∧ base? inner first = some base ∧
      allModified? inner base n = some x := by
  rw [complexIdentifier?_eq] at h
  simp only [Option.bind_eq_some_iff] at h
  obtain ⟨first, hfirst, base, hbase, h⟩ := h
  exact ⟨first, base, hfirst, hbase, h⟩

/-- An operand is a constant, a value with accesses, or an expression in parentheses. -/
theorem of_operand? (h : operand? inner n = some x) :
    ∃ first, n.children.find? (·.kind ≠ .unaryModifier) = some first ∧
      (x = ofTerminal .literal first ∨ complexIdentifier? inner first = some x ∨
        ∃ inside base, n.childOfKind? .expression = some inside ∧ inner inside = some base ∧
          allModified? inner base n = some x) := by
  obtain ⟨first, hfirst, h⟩ := Option.bind_eq_some_iff.1 h
  refine ⟨first, hfirst, ?_⟩
  split at h
  · exact .inl (Option.some.inj h).symm
  · exact .inr (.inl h)
  · split at h
    · simp only [Option.bind_eq_bind, Option.bind_eq_some_iff] at h
      obtain ⟨inside, hinside, base, hbase, h⟩ := h
      exact .inr (.inr ⟨inside, base, hinside, hbase, h⟩)
    · exact nomatch h
  · exact nomatch h

/-- The operator of a node in front of a value comes from the node. -/
theorem of_unaryModifier? {p : Pending} (h : unaryModifier? n = some p) :
    p.operator.isUnary = true ∧ p.origin = .ofNode n := by
  simp only [unaryModifier?, Option.bind_eq_bind, Option.bind_eq_some_iff, Option.pure_def,
    Option.some.injEq] at h
  obtain ⟨token, -, kind, -, operator, hoperator, rfl⟩ := h
  exact ⟨Operator.isUnary_of_unary? hoperator, rfl⟩

/-- The operator of a node between members comes from the node. -/
theorem of_operation? {p : Pending} (h : operation? n = some p) :
    (∃ k, Operator.binary? k = some p.operator) ∧ p.origin = .ofNode n := by
  obtain ⟨first, -, h⟩ := Option.bind_eq_some_iff.1 h
  split at h <;>
  · simp only [Option.bind_eq_bind, Option.bind_eq_some_iff, Option.pure_def,
      Option.some.injEq] at h
    obtain ⟨token, -, kind, -, operator, hoperator, rfl⟩ := h
    exact ⟨⟨kind, hoperator⟩, rfl⟩

/-- Pieces come from a member, with the operators in front of it, or from an operation. -/
theorem of_pieces? {row : List Piece} (h : pieces? inner n = some row) :
    (∃ ps x, n.kind = .member ∧ (n.childrenOfKind .unaryModifier).mapM unaryModifier? = some ps ∧
      operand? inner n = some x ∧ row = ps.map .unary ++ [.operand x]) ∨
    ∃ p, n.kind = .operation ∧ operation? n = some p ∧ row = [.binary p] := by
  unfold pieces? at h
  split at h
  next hkind =>
    simp only [Option.bind_eq_bind, Option.bind_eq_some_iff, Option.pure_def,
      Option.some.injEq] at h
    obtain ⟨ps, hps, x, hx, rfl⟩ := h
    exact .inl ⟨ps, x, hkind, hps, hx, rfl⟩
  next hkind =>
    simp only [Option.bind_eq_bind, Option.bind_eq_some_iff, Option.pure_def,
      Option.some.injEq] at h
    obtain ⟨p, hp, rfl⟩ := h
    exact .inr ⟨p, hkind, hp, rfl⟩
  next => exact nomatch h

/-- An expression is what the row of its pieces is resolved to. -/
theorem of_ofNode? (h : ofNode? inner n = some x) :
    n.kind = .expression ∧ ∃ rows, n.children.mapM (pieces? inner) = some rows ∧
      Piece.resolve? rows.flatten = some x := by
  unfold ofNode? at h
  split at h
  next hkind => exact ⟨hkind, Option.bind_eq_some_iff.1 h⟩
  next => exact nomatch h

end

/-! ### Rows -/

/-- Each operator in front comes from its sign. -/
theorem exists_unaryModifiers {us : List Token} (hus : ∀ t ∈ us, t.kind ∈ unaryKinds)
    {ns : List Node} (hns : ns.map Node.tree = us.map unaryTree)
    (hstands : ∀ n ∈ ns, n.StandsIn d) :
    ∃ ps, ns.mapM unaryModifier? = some ps ∧ List.Forall₂ (fun t p ↦
      Operator.unary? t.kind = some p.operator ∧ d.Spans p.origin.range [t]) us ps := by
  -- The signs are read from left to right, as many as there are nodes for them.
  induction us generalizing ns with
  | nil =>
    obtain rfl := List.map_eq_nil_iff.1 hns
    exact ⟨[], rfl, .nil⟩
  | cons u us ih =>
    obtain ⟨n, ns, rfl, hn, hrest⟩ := List.map_eq_cons_iff.1 hns
    obtain ⟨hu, hus⟩ := List.forall_mem_cons.1 hus
    obtain ⟨hstand, hstands⟩ := List.forall_mem_cons.1 hstands
    obtain ⟨ps, hps, hall⟩ := ih hus hrest hstands
    obtain ⟨word, -, hhead, hword⟩ := n.exists_head? (t := .leaf u) (by rw [hn]; rfl)
    obtain ⟨op, hop⟩ : ∃ op, Operator.unary? u.kind = some op := by
      simp only [unaryKinds, List.mem_cons, List.not_mem_nil, or_false] at hu
      rcases hu with hu | hu | hu <;> rw [hu] <;> exact ⟨_, rfl⟩
    have hspans : d.Spans n.range [u] := by
      have htree := Document.spans_range hstand
      rwa [hn] at htree
    refine ⟨⟨op, .ofNode n⟩ :: ps, ?_, .cons ⟨hop, hspans⟩ hall⟩
    have hkind : word.tokenKind? = some u.kind := by
      rw [Node.tokenKind?, hword, Tree.token?, Option.map_some]
    rw [List.mapM_cons, hps, unaryModifier?, hhead]
    simp only [Option.bind_eq_bind, Option.bind_some, hkind, hop]
    rfl

/-- The operators in front of a value stand for their tokens, and have the ranges of these. -/
theorem yields_member_spans {us : List Token} {cs : List Tree} {P : Expr → Prop}
    (hus : ∀ t ∈ us, t.kind ∈ unaryKinds) (hcs : ∀ c ∈ cs, c.kind ≠ .unaryModifier)
    (h : Yields d operand? (.node .member (us.map unaryTree ++ cs)) P) :
    Yields d pieces? (.node .member (us.map unaryTree ++ cs)) fun row ↦
      ∃ ps x, row = ps.map .unary ++ [.operand x] ∧ P x ∧ List.Forall₂ (fun t p ↦
        Operator.unary? t.kind = some p.operator ∧ d.Spans p.origin.range [t]) us ps := by
  intro n depth hn htree
  obtain ⟨x, hx, hP⟩ := h n depth hn htree
  have hunaries : (n.childrenOfKind .unaryModifier).map Node.tree = us.map unaryTree := by
    rw [n.map_tree_childrenOfKind, htree, Tree.children, List.filter_append,
      List.filter_eq_self.2 (by simp [unaryTree]),
      List.filter_eq_nil_iff.2 fun c hc ↦ by simpa using hcs c hc, List.append_nil]
  obtain ⟨ps, hps, hall⟩ := exists_unaryModifiers hus hunaries fun c hc ↦
    (hn.child (Node.mem_children_of_mem_childrenOfKind hc)).standsIn
  refine ⟨_, ?_, ps, x, rfl, hP, hall⟩
  rw [pieces?, show n.kind = .member by rw [Node.kind, htree, Tree.kind_node]]
  simp only [hps, Option.bind_eq_bind, Option.bind_some, hx]
  rfl

/-- What a member adds to the row, given the operators in front of it. -/
def IsMember (us : List Token) (P : Expr → Prop) (row : List Piece) : Prop :=
  ∃ ps x, row = ps.map .unary ++ [.operand x] ∧ P x ∧
    List.Forall₂ (fun t p ↦ Operator.unary? t.kind = some p.operator) us ps

/-- A member adds its operators and its operand to the row. -/
theorem yields_member {us : List Token} {cs : List Tree} {P : Expr → Prop}
    (hus : ∀ t ∈ us, t.kind ∈ unaryKinds) (hcs : ∀ c ∈ cs, c.kind ≠ .unaryModifier)
    (h : Yields d operand? (.node .member (us.map unaryTree ++ cs)) P) :
    Yields d pieces? (.node .member (us.map unaryTree ++ cs)) (IsMember us P) := by
  refine (yields_member_spans hus hcs h).mono ?_
  rintro row ⟨ps, x, hrow, hx, hps⟩
  exact ⟨ps, x, hrow, hx, hps.imp fun _ _ h ↦ h.1⟩

/-- The tree of an operator has its token, directly or in a node that tells of its sort. -/
theorem exists_operationTree (t : Token) : ∃ c, operationTree t = .node .operation [c] ∧
    (c = .leaf t ∨ ∃ k, (k = .compareOperation ∨ k = .boolOperation) ∧ c = .node k [.leaf t]) := by
  refine ⟨_, rfl, ?_⟩
  split
  · exact .inr ⟨_, .inl rfl, rfl⟩
  · split
    · exact .inr ⟨_, .inr rfl, rfl⟩
    · exact .inl rfl

/-- The operator is found in either place. -/
theorem exists_operation? {n : Node} {t : Token} {op : Operator}
    (ht : Operator.binary? t.kind = some op) (htree : n.tree = operationTree t) :
    ∃ p, operation? n = some p ∧ p.operator = op := by
  obtain ⟨c, hoperation, hc⟩ := exists_operationTree t
  rw [hoperation] at htree
  obtain ⟨first, -, hfirst, rfl⟩ := n.exists_head? (t := c) (by rw [htree]; rfl)
  -- The token is the child, or stands in a node of its own.
  obtain ⟨word, hword, hwordTree⟩ : ∃ word,
      (if first.kind = .compareOperation ∨ first.kind = .boolOperation then first.children.head?
        else some first) = some word ∧ word.tree = .leaf t := by
    obtain hleaf | ⟨k, hk, hnode⟩ := hc
    · refine ⟨first, if_neg ?_, hleaf⟩
      rw [Node.kind, hleaf, Tree.kind_leaf]
      decide
    · obtain ⟨word, -, hword, hwordTree⟩ := first.exists_head? (t := .leaf t) (by rw [hnode]; rfl)
      refine ⟨word, ?_, hwordTree⟩
      rwa [if_pos (by rwa [Node.kind, hnode, Tree.kind_node])]
  have hkind : word.tokenKind? = some t.kind := by
    rw [Node.tokenKind?, hwordTree, Tree.token?, Option.map_some]
  refine ⟨⟨op, .ofNode n⟩, ?_, rfl⟩
  rw [operation?, hfirst, Option.bind_eq_bind, Option.bind_some]
  split at hword
  next h =>
    rw [if_pos h, hword]
    simp only [Option.bind_eq_bind, Option.bind_some, hkind, ht]
    rfl
  next h =>
    rw [if_neg h, Option.some.inj hword]
    simp only [Option.bind_eq_bind, Option.bind_some, hkind, ht]
    rfl

/-- An operator between members adds itself to the row. -/
theorem yields_operation {t : Token} {op : Operator} (ht : Operator.binary? t.kind = some op) :
    Yields d pieces? (operationTree t) (fun row ↦ ∃ p, row = [.binary p] ∧ p.operator = op) := by
  intro n depth hn htree
  obtain ⟨p, hp, hop⟩ := exists_operation? ht htree
  refine ⟨[.binary p], ?_, p, rfl, hop⟩
  rw [pieces?, show n.kind = .operation by rw [Node.kind, htree, operationTree, Tree.kind_node], hp]
  rfl

/-- An expression comes to what the rows of its children, put together, are resolved to. -/
theorem yields_expression {cs : List Tree} {R : List (List Piece) → Prop} {P : Expr → Prop}
    (h : YieldsAll d pieces? cs R)
    (hP : ∀ rows, R rows → ∃ x, Piece.resolve? rows.flatten = some x ∧ P x) :
    Yields d id (.node .expression cs) P := by
  intro n depth hn htree
  -- What lies below the node needs a depth less.
  obtain ⟨e, rfl⟩ : ∃ e, depth = e + 1 :=
    Nat.exists_eq_succ_of_ne_zero (Nat.ne_of_gt (Nat.lt_of_lt_of_le n.size_pos hn.size_le))
  have hchildren : n.children.map Node.tree = cs := by
    rw [n.map_tree_children, htree, Tree.children]
  obtain ⟨rows, hrows, hR⟩ := h n.children e (fun c hc ↦ hn.child_pred hc) hchildren
  obtain ⟨x, hx, hPx⟩ := hP rows hR
  refine ⟨x, ?_, hPx⟩
  show ofNode? (nested? e) n = some x
  rw [ofNode?, if_pos (by rw [Node.kind, htree, Tree.kind_node]), hrows]
  exact hx

end Expr

end BslLint
