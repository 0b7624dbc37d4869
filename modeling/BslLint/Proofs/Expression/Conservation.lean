import BslLint.Proofs.Expression.Accounting
import BslLint.Proofs.Expression.Depth
import BslLint.Proofs.Expression.Normal
import BslLint.Proofs.Grammar.Recognition

/-!
# Expressions lose nothing

The expressions of a text without errors are those that the grammar derives. Rule by rule, what
`Node.expr?` makes of a tree accounts for it, whatever stands inside of what
(`Grammar.Derives.conserves`); accesses are applied to a value that stands before them, so they are
told by what they add to its account (`Expr.Extends`).

So **normalizing an expression loses nothing** (`Document.clean_expressions_lose_nothing`): it never
fails, each operation, access, sign, choice and call comes from a node of its own and all such nodes
are there, and the terminals follow the text from left to right.
-/

namespace BslLint

open Grammar

namespace Expr

open Node (ComesTo)

variable {inner : Node → Option Expr}

/-! ### Accesses -/

/-- Whatever comes of a value by the accesses, it accounts for the value and then for them. -/
def Extends (inner : Node → Option Expr) (ms : List Tree) : Prop :=
  ∀ id first base y, (Node.place id first ms).foldlM (modified? inner) base = some y →
    ∃ a, y.account = base.account + a ∧ ComesTo id first ms a

theorem Extends.nil : Extends inner [] := by
  intro id first base y h
  obtain rfl : base = y := Option.some.inj h
  exact ⟨0, (add_zero _).symm, .nil⟩

/-- Accesses behind others add to what these account for. -/
theorem Extends.append {ms ms' : List Tree} (hms : Extends inner ms) (hms' : Extends inner ms') :
    Extends inner (ms ++ ms') := by
  intro id first base z h
  rw [Node.place_append, List.foldlM_append, Option.bind_eq_bind, Option.bind_eq_some_iff] at h
  obtain ⟨y, hy, hz⟩ := h
  obtain ⟨a, ha, hcomes⟩ := hms _ _ _ _ hy
  obtain ⟨b, hb, hcomes'⟩ := hms' _ _ _ _ hz
  exact ⟨a + b, by rw [hb, ha, add_assoc], hcomes.append hcomes'⟩

/-- An access adds its own node and what it tells of. -/
theorem extends_of_access {cs : List Tree}
    (h : ∀ id first op right, access? inner ⟨id, first, .node .modifier cs⟩ = some (op, right) →
      op.role = .access ∧ ComesTo (id + 1) first cs right.account) :
    Extends inner [.node .modifier cs] := by
  intro id first base y hy
  rw [Node.place, Node.place, List.foldlM_cons, Option.bind_eq_bind, Option.bind_eq_some_iff] at hy
  obtain ⟨z, hz, hy⟩ := hy
  obtain rfl : z = y := Option.some.inj hy
  obtain ⟨op, right, haccess, rfl⟩ := of_modified? hz
  obtain ⟨hop, hright⟩ := h _ _ _ _ haccess
  refine ⟨_, ?_, .role rfl hright⟩
  rw [account, hop]
  exact (Account.role_add_left_comm ..).symm

/-- The name behind a dot is a terminal. -/
theorem extends_property (s t : Token) :
    Extends inner [.node .modifier [.node .accessProperty [.leaf s, .leaf t]]] := by
  refine extends_of_access fun id first op right h ↦ ?_
  obtain ⟨rfl, rfl⟩ := Prod.mk.inj (Option.some.inj h)
  exact ⟨rfl, .node rfl (.cons_leaf (comesTo_ofTerminal (.leaf t) Nat.one_pos (by decide)))⟩

/-- A call behind a dot adds what the call accounts for, -/
theorem extends_method {s : Token} {c : Tree} (hc : c.kind = .methodCall)
    (h : Keeps (methodCall? inner) account c) :
    Extends inner [.node .modifier [.node .accessCall [.leaf s, c]]] := by
  refine extends_of_access fun id first op right haccess ↦ ?_
  change ((Node.place (id + 2) first [.leaf s, c]).find? (·.kind = .methodCall) >>= fun n ↦
    methodCall? inner n >>= fun x ↦ some (Operator.dereference, x)) = _ at haccess
  simp only [Node.find?_kind_behind_leaf hc (by decide), Option.bind_eq_bind, Option.bind_some,
    Option.bind_eq_some_iff] at haccess
  obtain ⟨x, hx, haccess⟩ := haccess
  obtain ⟨rfl, rfl⟩ := Prod.mk.inj (Option.some.inj haccess)
  exact ⟨rfl, .node rfl (.cons_leaf (h _ _ _ hx))⟩

/-- and an index what the index does. -/
theorem extends_index {l r : Token} {t : Tree} (ht : t.kind = .expression)
    (h : Keeps inner account t) :
    Extends inner [.node .modifier [.node .accessIndex [.leaf l, t, .leaf r]]] := by
  refine extends_of_access fun id first op right haccess ↦ ?_
  change ((Node.place (id + 2) first [.leaf l, t, .leaf r]).find? (·.kind = .expression) >>= fun n ↦
    inner n >>= fun x ↦ some (Operator.indexAccess, x)) = _ at haccess
  simp only [Node.find?_kind_behind_leaf ht (by decide), Option.bind_eq_bind, Option.bind_some,
    Option.bind_eq_some_iff] at haccess
  obtain ⟨x, hx, haccess⟩ := haccess
  obtain ⟨rfl, rfl⟩ := Prod.mk.inj (Option.some.inj haccess)
  exact ⟨rfl, .node rfl (.cons_leaf (.append_leaf (h _ _ _ hx)))⟩

/-- The accesses below a node, behind trees that are none. -/
theorem Extends.exists_account {id first : Nat} {k : NodeKind} {cs ms : List Tree} {base y : Expr}
    (h : Extends inner ms) (hcs : ∀ c ∈ cs, c.kind ≠ .modifier) (hms : ∀ m ∈ ms, m.kind = .modifier)
    (hy : allModified? inner base ⟨id, first, .node k (cs ++ ms)⟩ = some y) :
    ∃ a, y.account = base.account + a ∧
      ComesTo (id + 1 + Tree.sizeAll cs) (first + Tree.widthAll cs) ms a := by
  refine h _ _ _ _ ?_
  rwa [allModified?, Node.childrenOfKind, Node.children_mk, Node.place_append, List.filter_append,
    Node.filter_place_eq_nil fun c hc _ _ ↦ decide_eq_false (hcs c hc), List.nil_append,
    Node.filter_place_eq_self fun m hm _ _ ↦ decide_eq_true (hms m hm)] at hy

/-! ### Values with what stands around them -/

/-- A value with accesses accounts for the value first. -/
theorem keeps_complexIdentifier {c : Tree} {ms : List Tree} (hc : c.kind ≠ .modifier)
    (hms : ∀ m ∈ ms, m.kind = .modifier) (h : Keeps (base? inner) account c)
    (hmods : Extends inner ms) :
    Keeps (complexIdentifier? inner) account (.node .complexIdentifier (c :: ms)) := by
  intro id first y hy
  obtain ⟨n, base, hn, hbase, hy⟩ := of_complexIdentifier? hy
  obtain rfl : Node.mk (id + 1) first c = n := Option.some.inj hn
  have hnone : ∀ t ∈ [c], t.kind ≠ .modifier := by simpa using hc
  obtain ⟨a, ha, hcomes⟩ := hmods.exists_account hnone hms hy
  rw [ha]
  exact .node rfl (.cons (h _ _ _ hbase) hcomes)

theorem keeps_base_name (t : Token) : Keeps (base? inner) account (.leaf t) := by
  intro id first x h
  obtain rfl : _ = x := Option.some.inj h
  exact comesTo_ofTerminal (.leaf t) Nat.one_pos (by decide)

/-- The operand of a member accounts for what stands behind the operators. -/
def KeepsOperand (inner : Node → Option Expr) (cs : List Tree) : Prop :=
  ∀ (us : List Token) id first x,
    operand? inner ⟨id, first, .node .member (us.map unaryTree ++ cs)⟩ = some x →
      ComesTo (id + 1 + Tree.sizeAll (us.map unaryTree))
        (first + Tree.widthAll (us.map unaryTree)) cs x.account

theorem kind_unaryTrees (us : List Token) : ∀ c ∈ us.map unaryTree, c.kind = .unaryModifier := by
  simp [unaryTree]

/-- What an operand is made of is the first tree behind the operators. -/
theorem find?_behind_unaryTrees (us : List Token) {id first : Nat} {c : Tree} {cs : List Tree}
    (hc : c.kind ≠ .unaryModifier) :
    (Node.mk id first (.node .member (us.map unaryTree ++ c :: cs))).children.find?
        (·.kind ≠ .unaryModifier) =
      some ⟨id + 1 + Tree.sizeAll (us.map unaryTree), first + Tree.widthAll (us.map unaryTree),
        c⟩ := by
  rw [Node.children_mk, Node.find?_place_append fun c hc _ _ ↦ ?_, Node.place,
    List.find?_cons_of_pos (by exact decide_eq_true hc)]
  exact decide_eq_false (not_not.2 (kind_unaryTrees us c hc))

/-- A constant accounts for all of its tokens, of which there is at least one. -/
theorem keepsOperand_constant {ts : List Token} (hts : ts ≠ []) :
    KeepsOperand inner [.node .constValue (ts.map .leaf)] := by
  intro us id first x h
  rw [operand?, find?_behind_unaryTrees us (by simp)] at h
  obtain rfl : _ = x := Option.some.inj h
  refine comesTo_ofTerminal (.node rfl (.leaves ts)) ?_ (by decide)
  obtain ⟨t, ts, rfl⟩ := List.exists_cons_of_ne_nil hts
  exact Nat.lt_of_lt_of_le Nat.one_pos (Nat.le_add_right _ _)

theorem keepsOperand_complex {cs : List Tree}
    (h : Keeps (complexIdentifier? inner) account (.node .complexIdentifier cs)) :
    KeepsOperand inner [.node .complexIdentifier cs] := by
  intro us id first x hx
  rw [operand?, find?_behind_unaryTrees us (by simp)] at hx
  exact h _ _ _ hx

/-- The parentheses around an expression are told of by no part. -/
theorem keepsOperand_parens {l r : Token} {t : Tree} {ms : List Tree} (hl : l.kind = .leftParen)
    (ht : t.kind = .expression) (hms : ∀ m ∈ ms, m.kind = .modifier) (h : Keeps inner account t)
    (hmods : Extends inner ms) : KeepsOperand inner (.leaf l :: t :: .leaf r :: ms) := by
  intro us id first y hy
  -- The expression is found behind the signs and the parenthesis, and takes the numbers after them.
  have hfind : Node.childOfKind?
      ⟨id, first, .node .member (us.map unaryTree ++ .leaf l :: t :: .leaf r :: ms)⟩ .expression =
        some ⟨id + 1 + Tree.sizeAll (us.map unaryTree) + 1,
          first + Tree.widthAll (us.map unaryTree) + 1, t⟩ := by
    rw [Node.childOfKind?, Node.children_mk, Node.find?_place_append fun c hc _ _ ↦ ?_]
    · exact Node.find?_kind_behind_leaf ht (by decide)
    · exact decide_eq_false (by rw [Node.kind_mk, kind_unaryTrees us c hc]; decide)
  rw [operand?, find?_behind_unaryTrees us (by simp), Option.bind_eq_bind, Option.bind_some] at hy
  simp only [Node.kind_mk, Tree.kind_leaf, Node.tokenKind?, Tree.token?, Option.map_some, hl,
    if_true, hfind, Option.bind_eq_bind, Option.bind_some, Option.bind_eq_some_iff] at hy
  obtain ⟨base, hbase, hy⟩ := hy
  have hnone : ∀ c ∈ us.map unaryTree ++ [.leaf l, t, .leaf r], c.kind ≠ .modifier :=
    List.forall_mem_append.2
      ⟨fun c hc ↦ by rw [kind_unaryTrees us c hc]; decide, by simp [ht]⟩
  obtain ⟨a, ha, hcomes⟩ := hmods.exists_account hnone hms (by simpa using hy)
  rw [Tree.sizeAll_append, Tree.widthAll_append, ← Nat.add_assoc, ← Nat.add_assoc] at hcomes
  have hinside := (h _ _ _ hbase).append_leaf (t := r)
  rw [ha]
  exact (hinside.cons_leaf (t := l)).append hcomes

/-! ### Rows -/

theorem keeps_unaryModifier (t : Token) : Keeps unaryModifier? Pending.account (unaryTree t) := by
  intro id first p hp
  obtain ⟨hunary, horigin⟩ := of_unaryModifier? hp
  rw [Pending.account, Pending.role, if_pos hunary, horigin, ← add_zero (Account.role _ _)]
  exact .role rfl (.leaf t)

/-- Signs account for their nodes. -/
theorem keepsAll_unaryModifiers (us : List Token) :
    KeepsAll unaryModifier? Pending.account (·.kind = .unaryModifier) (us.map unaryTree) := by
  induction us with
  | nil => exact .nil
  | cons u us ih => exact .cons (keeps_unaryModifier u) (fun _ _ ↦ rfl) ih

/-- A member accounts for its signs and its operand. -/
theorem keeps_member (us : List Token) {cs : List Tree} (hcs : ∀ c ∈ cs, c.kind ≠ .unaryModifier)
    (h : KeepsOperand inner cs) :
    Keeps (pieces? inner) Piece.accountAll (.node .member (us.map unaryTree ++ cs)) := by
  intro id first ps hps
  obtain ⟨before, x, -, hbefore, hx, rfl⟩ | ⟨p, hkind, -⟩ := of_pieces? hps
  swap
  · exact nomatch hkind
  rw [Node.childrenOfKind, Node.children_mk, Node.place_append, List.filter_append,
    Node.filter_place_eq_nil fun c (hc : c ∈ cs) _ _ ↦ decide_eq_false (hcs c hc),
    List.append_nil] at hbefore
  have haccount : Piece.accountAll (before.map .unary ++ [.operand x]) =
      (before.map Pending.account).sum + x.account := by
    rw [Piece.accountAll_append, Piece.accountAll, List.map_map, Piece.accountAll,
      List.map_singleton, List.sum_singleton]
    rfl
  rw [haccount]
  exact .node rfl ((keepsAll_unaryModifiers us _ _ _ hbefore).append (h _ _ _ _ hx))

/-- An operator accounts for its node, whatever else is in it. -/
theorem keeps_operation (t : Token) :
    Keeps (pieces? inner) Piece.accountAll (operationTree t) := by
  intro id first ps hps
  obtain ⟨ps, x, hkind, -⟩ | ⟨p, -, hp, rfl⟩ := of_pieces? hps
  · exact nomatch hkind
  obtain ⟨⟨k, hk⟩, horigin⟩ := of_operation? hp
  have haccount : Piece.accountAll [.binary p] = .role .operation id + 0 := by
    rw [Piece.accountAll, List.map_singleton, List.sum_singleton, Piece.account, Pending.account,
      Pending.role, Operator.isUnary_of_binary? hk, Operator.role_of_binary? hk, horigin, add_zero]
    rfl
  obtain ⟨c, hoperation, hc⟩ := exists_operationTree t
  rw [haccount, hoperation]
  refine .role rfl ?_
  obtain rfl | ⟨k, rfl | rfl, rfl⟩ := hc
  · exact .leaf t
  · exact .node rfl (.leaf t)
  · exact .node rfl (.leaf t)

/-- Resolving loses nothing, so the expression accounts for the whole row. -/
theorem keeps_expression {cs : List Tree}
    (h : KeepsAll (pieces? Node.expr?) Piece.accountAll (fun _ ↦ true) cs) :
    Keeps Node.expr? account (.node .expression cs) := by
  intro id first x hx
  rw [Node.expr?_eq] at hx
  obtain ⟨-, rows, hrows, hx⟩ := of_ofNode? hx
  rw [Piece.account_of_resolve? hx, Piece.accountAll_flatten]
  exact .node rfl (h _ _ _ (by rwa [List.filter_true]))

/-- What the trees of a part come to accounts for them. -/
def Conserves : Part → List Tree → Prop
  | .expression, cs => ∃ t, cs = [t] ∧ t.kind = .expression ∧ Keeps Node.expr? account t
  | .row, cs => KeepsAll (pieces? Node.expr?) Piece.accountAll (fun _ ↦ true) cs
  | .member, cs => ∃ t, cs = [t] ∧ Keeps (pieces? Node.expr?) Piece.accountAll t
  | .value, cs => (∀ c ∈ cs, c.kind ≠ .unaryModifier) ∧ KeepsOperand Node.expr? cs
  | .head, cs => ∃ t, cs = [t] ∧ t.kind ≠ .modifier ∧ Keeps (base? Node.expr?) account t
  | .typeName, cs => cs = [] ∨ ∃ t, cs = [.node .typeName [.leaf t]]
  | .callOrNone, cs => KeepsOptional Node.expr? cs
  | .modifiers, cs | .modifier, cs => (∀ c ∈ cs, c.kind = .modifier) ∧ Extends Node.expr? cs
  | .call, cs => ∃ t, cs = [t] ∧ t.kind = .doCall ∧ Keeps (arguments? Node.expr?) accountList t
  | .argument, cs => ∃ t, cs = [t] ∧ t.kind = .callParam ∧ Keeps (argument? Node.expr?) account t
  | .arguments, cs => KeepsAll (argument? Node.expr?) account (·.kind = .callParam) cs

end Expr

namespace Grammar

open BslLint.Expr

/-- **What is derived is accounted for.** The induction is on the derivation, and each rule of the
grammar has its lemma. -/
theorem Derives.conserves {p : Part} {w : List Token} {cs : List Tree} (h : Derives p w cs) :
    Conserves p cs := by
  induction h with
  | expression _ _ ihfirst ihothers =>
    obtain ⟨t, rfl, ht⟩ := ihfirst
    exact ⟨_, rfl, rfl, keeps_expression (.cons ht (fun _ _ ↦ rfl) ihothers)⟩
  | row_nil => exact KeepsAll.nil
  | row_cons _ _ _ ihfirst ihothers =>
    obtain ⟨t, rfl, ht⟩ := ihfirst
    exact KeepsAll.cons (keeps_operation _) (fun _ _ ↦ rfl) (.cons ht (fun _ _ ↦ rfl) ihothers)
  | member _ _ ih => exact ⟨_, rfl, keeps_member _ ih.1 ih.2⟩
  | strings hts _ => exact ⟨by simp, keepsOperand_constant hts⟩
  | @constant t _ => exact ⟨by simp, keepsOperand_constant (List.cons_ne_nil t [])⟩
  | complex _ _ ihhead ihmods =>
    obtain ⟨t, rfl, hkind, ht⟩ := ihhead
    exact ⟨by simp, keepsOperand_complex (keeps_complexIdentifier hkind ihmods.1 ht ihmods.2)⟩
  | parens hl _ _ _ ihinside ihmods =>
    obtain ⟨t, rfl, hkind, ht⟩ := ihinside
    refine ⟨?_, keepsOperand_parens hl hkind ihmods.1 ht ihmods.2⟩
    simp only [List.singleton_append, List.forall_mem_cons, Tree.kind_leaf, hkind]
    exact ⟨by decide, by decide, by decide, fun c hc ↦ by rw [ihmods.1 c hc]; decide⟩
  | @name t _ => exact ⟨_, rfl, by simp, keeps_base_name t⟩
  | globalCall _ _ ih =>
    obtain ⟨c, rfl, hkind, hc⟩ := ih
    exact ⟨_, rfl, by simp, keeps_methodCall rfl hkind hc⟩
  | new ht _ _ ihtype ihcall => exact ⟨_, rfl, by simp, keeps_newExpression ht ihtype ihcall⟩
  | ternary _ _ _ _ _ _ _ _ ihcondition ihyes ihno =>
    obtain ⟨t₁, rfl, hkind₁, h₁⟩ := ihcondition
    obtain ⟨t₂, rfl, hkind₂, h₂⟩ := ihyes
    obtain ⟨t₃, rfl, hkind₃, h₃⟩ := ihno
    exact ⟨_, rfl, by simp, keeps_ternaryOperator hkind₁ hkind₂ hkind₃ h₁ h₂ h₃⟩
  | typeName_none => exact Or.inl rfl
  | typeName_some _ => exact Or.inr ⟨_, rfl⟩
  | call_none => exact Or.inl rfl
  | call_some _ ih => exact Or.inr ih
  | modifiers_nil => exact ⟨by simp, .nil⟩
  | modifiers_cons _ _ ihfirst ihothers =>
    exact ⟨List.forall_mem_append.2 ⟨ihfirst.1, ihothers.1⟩, ihfirst.2.append ihothers.2⟩
  | property _ _ => exact ⟨by simp, extends_property _ _⟩
  | methodCall _ _ _ ih =>
    obtain ⟨c, rfl, hkind, hc⟩ := ih
    exact ⟨by simp, extends_method rfl (keeps_methodCall rfl hkind hc)⟩
  | index _ _ _ ih =>
    obtain ⟨t, rfl, hkind, ht⟩ := ih
    exact ⟨by simp, extends_index hkind ht⟩
  | call _ _ _ _ ihfirst ihothers =>
    obtain ⟨t, rfl, hkind, ht⟩ := ihfirst
    exact ⟨_, rfl, rfl, keeps_arguments (.cons ht (fun _ _ ↦ decide_eq_true hkind) ihothers)⟩
  | argument_none => exact ⟨_, rfl, rfl, keeps_argument_none⟩
  | argument_some _ ih =>
    obtain ⟨t, rfl, hkind, ht⟩ := ih
    exact ⟨_, rfl, rfl, keeps_argument_some hkind ht⟩
  | arguments_nil => exact KeepsAll.nil
  | arguments_cons _ _ _ ihfirst ihothers =>
    obtain ⟨t, rfl, hkind, ht⟩ := ihfirst
    exact KeepsAll.cons_leaf (fun _ _ ↦ rfl)
      (.cons ht (fun _ _ ↦ decide_eq_true hkind) ihothers)

end Grammar

/-! ### Parts and nodes -/

/-- The parts of an expression in a role. -/
def Expr.partsIn (x : Expr) (r : Role) : List Expr := x.parts.filter (·.role? = some r)

/-- The nodes below a node in a role. -/
def Node.nodesIn (n : Node) (r : Role) : List Node :=
  (preorderAll n.children).filter (·.kind.role? = some r)

/-- The expression leads back to the node without a loss. -/
structure Expr.Represents (x : Expr) (n : Node) : Prop where
  /-- No two parts in a role come from the same node. -/
  nodup (r : Role) : ((x.partsIn r).map (·.origin.node)).Nodup
  /-- The nodes that the parts in a role come from are those below in the role. -/
  perm (r : Role) : ((x.partsIn r).map (·.origin.node)).Perm ((n.nodesIn r).map Node.id)
  /-- A terminal that was not left out has tokens. -/
  lt : ∀ s ∈ x.parts.filterMap Expr.written?, s.first < s.stop
  /-- Terminals have no token in common and follow each other. -/
  pairwise : (x.parts.filterMap Expr.written?).Pairwise fun s u ↦ s.stop ≤ u.first

/-- The nodes in one role are those of the parts in this role. -/
theorem map_snd_filter_roles {α : Type} (role? : α → Option Role) (id : α → Nat) (r : Role)
    (xs : List α) :
    ((xs.filterMap fun x ↦ (role? x).map (·, id x)).filter (·.1 = r)).map Prod.snd =
      (xs.filter (role? · = some r)).map id := by
  induction xs with
  | nil => rfl
  | cons x xs ih =>
    cases hx : role? x with
    | none => simp [hx, ih]
    | some s => by_cases hs : s = r <;> simp [hx, hs, ih]

namespace Expr

/-- An expression that accounts for a node leads back to it. -/
theorem represents_of_comesTo {x : Expr} {n : Node} (hn : n.kind = .expression)
    (h : Node.ComesTo n.id n.first [n.tree] x.account) : x.Represents n := by
  have hstrung := h.strung
  -- The kind of an expression gives no role, so all roles are those of nodes below it.
  have hroles : x.account.roles = Node.roles n.children := by
    have hkind : n.kind.role? = none := by rw [hn]; rfl
    rw [h.roles_eq, Node.place, Node.place, Node.roles, Node.preorderAll_cons, List.append_nil,
      List.filterMap_cons_none (by rw [hkind, Option.map_none])]
    rfl
  rw [account_eq_listed] at hroles hstrung
  have hperm : ∀ r, ((x.partsIn r).map (·.origin.node)).Perm ((n.nodesIn r).map Node.id) := by
    intro r
    have hfilter := ((Multiset.coe_eq_coe.1 hroles).filter (·.1 = r)).map Prod.snd
    rwa [map_snd_filter_roles, map_snd_filter_roles (fun n : Node ↦ n.kind.role?)] at hfilter
  refine ⟨fun r ↦ (hperm r).nodup_iff.2 ?_, hperm, fun s hs ↦ (hstrung.forall_mem s hs).2,
    hstrung.pairwise⟩
  -- The parts have different origins, because the nodes below one have different numbers.
  have hids : ((Node.preorderAll n.children).map Node.id).Nodup := by
    rw [Node.children, Node.map_id_preorderAll_place]
    exact List.nodup_range'
  exact hids.sublist (List.filter_sublist.map _)

end Expr

namespace Document

/-- In a text without errors, the expression of a node accounts for the node. -/
theorem comesTo_of_expr? {text : String} (h : (ofText text).errors = []) {n : Node}
    (hn : n ∈ (ofText text).nodes) {x : Expr} (hx : n.expr? = some x) :
    Node.ComesTo n.id n.first [n.tree] x.account := by
  have hkind : n.kind = .expression := by
    rw [Node.expr?_eq, Expr.ofNode?] at hx
    exact (Option.ite_none_right_eq_some.1 hx).1
  obtain ⟨_, htree, -, hkeeps⟩ := (derives_of_mem_nodes h hn hkind).conserves
  obtain rfl := (List.cons.inj htree).1
  exact hkeeps _ _ _ hx

/-- **Normalizing the expressions of a text without errors never fails and loses nothing.** There is
no error node in its tree. Each expression node has an expression, and its parts lead back to the
nodes below it: those in a role to the nodes with that role, one to each, and the terminals to
tokens one behind the other. -/
theorem clean_expressions_lose_nothing {text : String} (h : (ofText text).errors = []) :
    (∀ n ∈ (ofText text).nodes, n.kind ≠ .error) ∧
      ∀ n ∈ (ofText text).nodes, n.kind = .expression →
        ∃ x, n.expr? = some x ∧ x.Represents n := by
  have hfaults := (errors_eq_nil_iff.1 h).2
  constructor
  · intro n hn
    obtain ⟨t, ht, hnt⟩ := Node.within_of_mem_nodes hn
    exact everywhere_ne_error hfaults t ht n.tree hnt
  · intro n hn hkind
    obtain ⟨t, ht, hnt⟩ := Node.within_of_mem_nodes hn
    have hderived := everywhere_file hfaults t ht n.tree hnt hkind
    have hstands := Node.standsIn_of_mem_nodes hn
    obtain ⟨x, hx⟩ : ∃ x, n.expr? = some x := by
      obtain ⟨_, htree, -, hyields⟩ := hderived.normalizes (isCut_ofText h) hstands.isInfix
      obtain ⟨x, hx, -⟩ := hyields n _ ⟨hstands, Nat.le_refl _⟩ (List.cons.inj htree).1
      exact ⟨x, hx⟩
    obtain ⟨_, htree, -, hkeeps⟩ := hderived.conserves
    obtain rfl := (List.cons.inj htree).1
    exact ⟨x, hx, Expr.represents_of_comesTo hkind (hkeeps _ _ _ hx)⟩

/-- Two calls, one of which leaves an argument out, an access and a sign in a choice. -/
theorem choice_between_calls_loses_nothing :
    (ofText "Х=?(А,-Б(,1)[2],Новый В());").errors = [] ∧
      ∃ n ∈ (ofText "Х=?(А,-Б(,1)[2],Новый В());").nodes, ∃ x, n.expr? = some x ∧
        x.Represents n ∧ (x.partsIn .call).length = 2 ∧ (n.nodesIn .access).length = 1 := by
  obtain ⟨text, htext⟩ : ∃ text, text = "Х=?(А,-Б(,1)[2],Новый В());" := ⟨_, rfl⟩
  have hany : (ofText text).errors = [] ∧ (ofText text).nodes.any (fun n ↦ n.kind = .expression &&
      (n.nodesIn .access).length = 1 &&
      (n.expr?.map fun x ↦ (x.partsIn .call).length) = some 2) = true := by
    rw [htext, Document.ofText_eq_evaluated]
    decide +kernel
  rw [← htext]
  obtain ⟨hnone, hany⟩ := hany
  obtain ⟨n, hn, hboth⟩ := List.any_eq_true.1 hany
  obtain ⟨⟨hkind, haccess⟩, hcalls⟩ : (n.kind = .expression ∧ (n.nodesIn .access).length = 1) ∧
      (n.expr?.map fun x ↦ (x.partsIn .call).length) = some 2 := by simpa using hboth
  obtain ⟨x, hx, hrepresents⟩ := (clean_expressions_lose_nothing hnone).2 n hn hkind
  rw [hx, Option.map_some, Option.some.injEq] at hcalls
  exact ⟨hnone, n, hn, x, hx, hrepresents, hcalls, haccess⟩

end Document

end BslLint
