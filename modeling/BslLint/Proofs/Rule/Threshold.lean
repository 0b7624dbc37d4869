import BslLint.Proofs.Expression.Conservation
import BslLint.Proofs.Expression.Nesting
import BslLint.Proofs.Rule.Uniqueness

/-!
# The least size of an expression

With a lower limit to the size of expressions more of them are looked at as a whole, and these hide
the expressions inside of them from the pass. What would have been found in an expression inside is
found in the whole as well, since the operations of the one are operations of the other, unless it
stands in what is read from an object or a collection: the operands of an access are not looked
into. So **a lower limit loses what the larger expression shelters, and nothing else**
(`IdenticalExpressions.lower_limit_loses_sheltered`).

An expression that is looked at as a whole is an **outermost** one of its size
(`IdenticalExpressions.IsOutermost`), and every large expression is one of these or stands below
one.
-/

namespace BslLint

/-! ### Operations of a larger expression -/

namespace Document

variable {text : String} {n m e : Node} {x y z : Expr}

/-- In a text without errors, each operation below a node stands in the expression of the node. -/
theorem exists_has_of_mem_preorder (h : (ofText text).errors = []) (hn : n ∈ (ofText text).nodes)
    (hx : n.expr? = some x) (hm : m ∈ n.preorder) (hkind : m.kind = .operation) :
    ∃ z, x.Has z ∧ z.role? = some .operation ∧ z.origin.node = m.id := by
  have hroles := (comesTo_of_expr? h hn hx).roles_eq
  have hmem : (Role.operation, m.id) ∈ x.account.roles := by
    rw [hroles]
    exact Multiset.mem_coe.2 (List.mem_filterMap.2 ⟨m, hm, by rw [hkind]; rfl⟩)
  rw [Expr.account_eq_listed] at hmem
  obtain ⟨z, hz, hrole⟩ := List.mem_filterMap.1 (Multiset.mem_coe.1 hmem)
  obtain ⟨r, hr, hpair⟩ := Option.map_eq_some_iff.1 hrole
  obtain ⟨rfl, hid⟩ := Prod.mk.inj hpair
  exact ⟨z, Expr.mem_parts_iff.1 hz, hr, hid⟩

/-- A node has one parent. -/
theorem eq_of_mem_children {p q : Node} (hp : p ∈ (ofText text).nodes)
    (hq : q ∈ (ofText text).nodes) (hnp : n ∈ p.children) (hnq : n ∈ q.children) : p = q := by
  have hregular := regular_ofText text
  have hn : n ∈ (ofText text).nodes := Node.mem_nodes_of_mem_children hp hnp
  have hne : n ≠ (ofText text).root := by
    rintro rfl
    exact hregular.root_top p hp hnp
  exact (hregular.parent n hn hne).unique ⟨hp, hnp⟩ ⟨hq, hnq⟩

/-- **The operations of an expression inside of another one are operations of the other one**, in a
text without errors. -/
theorem has_of_mem_preorder (h : (ofText text).errors = []) (hn : n ∈ (ofText text).nodes)
    (hx : n.expr? = some x) (he : e ∈ n.preorder) (hy : e.expr? = some y) (hyz : y.Has z)
    (hz : z.role? = some .operation) : x.Has z := by
  have hemem := Node.mem_nodes_of_mem_preorder hn he
  obtain ⟨e₁, he₁, hhosts⟩ := Node.exists_hosts_of_has hemem hy hyz hz
  obtain ⟨m, hm, hkind, -⟩ := hhosts.exists_operation
  have hmn : m ∈ n.preorder := Node.mem_preorder_trans he
    (Node.mem_preorder_trans he₁ (Node.mem_preorder_of_mem_children hm))
  -- the whole has an operation from the same node, and it joins pieces of the same row
  obtain ⟨z', hxz', hz', hnode⟩ := exists_has_of_mem_preorder h hn hx hmn hkind
  obtain ⟨e₂, he₂, hhosts'⟩ := Node.exists_hosts_of_has hn hx hxz' hz'
  obtain ⟨m', hm', -, hnode'⟩ := hhosts'.exists_operation
  have hmem₁ := Node.mem_nodes_of_mem_preorder hemem he₁
  have hmem₂ := Node.mem_nodes_of_mem_preorder hn he₂
  obtain rfl : m = m' := Node.eq_of_id_eq (Node.mem_nodes_of_mem_children hmem₁ hm)
    (Node.mem_nodes_of_mem_children hmem₂ hm') (hnode.symm.trans hnode')
  obtain rfl := eq_of_mem_children hmem₁ hmem₂ hm hm'
  obtain ⟨y₁, hy₁, -, hyz₁⟩ := hhosts.exists_expr
  obtain ⟨y₂, hy₂, hxy₂, -⟩ := hhosts'.exists_expr
  obtain rfl := Option.some.inj (hy₁.symm.trans hy₂)
  exact hxy₂.trans hyz₁

end Document

namespace IdenticalExpressions

variable {d : Document} {min : Nat} {n m : Node}

/-! ### What is found in a run -/

/-- In a run of the pass, an operation that comes from the node is told of. -/
def IsFlagged (d : Document) (min : Nat) (m : Node) : Prop :=
  ∃ v ∈ ((pass min).course d).visits, ∃ x o, v.1.expr? = some x ∧ o ∈ operations x ∧
    isRedundant d.upToChains o = true ∧ o.origin.node = m.id ∧
    .atNode d v.1 (message d v.1 o) ∈ v.2.findings

/-- A node with an expression that is large enough. -/
def IsLarge (min : Nat) (n : Node) : Prop := min ≤ n.children.length ∧ n.expr?.isSome = true

instance (min : Nat) (n : Node) : Decidable (IsLarge min n) :=
  inferInstanceAs (Decidable (_ ∧ _))

/-- Those of some nodes that are looked at as a whole. -/
def looked (min : Nat) : List Node → List Node
  | [] => []
  | n :: ns => if IsLarge min n then n :: looked min (n.leaveOut ns) else looked min ns
termination_by ns => ns.length
decreasing_by
  · exact Nat.lt_succ_of_le (List.length_filter_le _ _)
  · exact Nat.lt_succ_self _

/-- A large expression is looked at, and nothing below it is. -/
theorem visit_of_isLarge {x : Expr} (hsize : min ≤ n.children.length) (hx : n.expr? = some x)
    (s : Unit) : (pass min).visit d n s = ⟨check d n x, .done .skipChildren, s⟩ := by
  simp only [pass, if_neg (Nat.not_lt.2 hsize), hx]

/-- Any other node is passed over. -/
theorem visit_of_not_isLarge (h : ¬ IsLarge min n) (s : Unit) :
    (pass min).visit d n s = .nothing s := by
  simp only [pass]
  split
  · rfl
  next hsize =>
    cases hx : n.expr? with
    | none => rfl
    | some x => exact absurd ⟨Nat.le_of_not_lt hsize, by rw [hx]; rfl⟩ h

/-- A call at a node finds nothing, or the node is looked at as a whole. -/
theorem forall_mem_visits (ns : List Node) (s : Unit) : ∀ v ∈ (pass min).visits d ns s,
    v.2.findings = [] ∨ v.1 ∈ looked min ns ∧
      ∃ x, v.1.expr? = some x ∧ v.2.findings = check d v.1 x := by
  fun_induction looked min ns with
  | case1 =>
    rw [Pass.visits]
    exact List.forall_mem_nil _
  | case2 n ns hlarge ih =>
    obtain ⟨hsize, hsome⟩ := hlarge
    obtain ⟨x, hx⟩ := Option.isSome_iff_exists.1 hsome
    rw [Pass.visits, visit_of_isLarge hsize hx]
    refine List.forall_mem_cons.2 ⟨.inr ⟨List.mem_cons_self, x, hx, rfl⟩, fun v hv ↦ ?_⟩
    exact (ih v hv).imp_right fun h ↦ ⟨List.mem_cons_of_mem _ h.1, h.2⟩
  | case3 n ns hsmall ih =>
    rw [Pass.visits, visit_of_not_isLarge hsmall]
    exact List.forall_mem_cons.2 ⟨.inl rfl, ih⟩

/-- A node that is looked at as a whole is called at. -/
theorem mem_visits_of_mem_looked {ns : List Node} {s : Unit} (hn : n ∈ looked min ns) {x : Expr}
    (hx : n.expr? = some x) :
    (n, ⟨check d n x, .done .skipChildren, ()⟩) ∈ (pass min).visits d ns s := by
  fun_induction looked min ns with
  | case1 => exact nomatch hn
  | case2 n' ns hlarge ih =>
    obtain ⟨hsize, hsome⟩ := hlarge
    obtain ⟨x', hx'⟩ := Option.isSome_iff_exists.1 hsome
    rw [Pass.visits, visit_of_isLarge hsize hx']
    rcases List.mem_cons.1 hn with rfl | hn
    · obtain rfl := Option.some.inj (hx.symm.trans hx')
      exact List.mem_cons_self
    · exact List.mem_cons_of_mem _ (ih hn)
  | case3 n' ns hsmall ih =>
    rw [Pass.visits, visit_of_not_isLarge hsmall]
    exact List.mem_cons_of_mem _ (ih hn)

theorem mem_check_of_mem {x : Expr} {o : Operation} (ho : o ∈ operations x)
    (hredundant : isRedundant d.upToChains o = true) :
    .atNode d n (message d n o) ∈ check d n x :=
  List.mem_map_of_mem (List.mem_filter.2 ⟨ho, hredundant⟩)

/-- An operation is told of if it is to be reported in an expression that is looked at as a whole.
-/
theorem isFlagged_iff (hroot : d.root.preorder = d.nodes) : IsFlagged d min m ↔
    ∃ n ∈ looked min (d.nodes.filter (·.kind = .expression)), ∃ x o, n.expr? = some x ∧
      o ∈ operations x ∧ isRedundant d.upToChains o = true ∧ o.origin.node = m.id := by
  have hcourse : ((pass min).course d).visits =
      (pass min).visits d (d.nodes.filter (·.kind = .expression)) () := by
    rw [← hroot]
    exact congrArg ((pass min).visits d · ()) (List.filter_congr fun n _ ↦ by simp [pass])
  rw [IsFlagged, hcourse]
  constructor
  · rintro ⟨v, hv, x, o, hx, ho, hredundant, hnode, hfinding⟩
    rcases forall_mem_visits _ _ v hv with hnone | ⟨hlooked, -⟩
    · rw [hnone] at hfinding
      exact absurd hfinding List.not_mem_nil
    · exact ⟨v.1, hlooked, x, o, hx, ho, hredundant, hnode⟩
  · rintro ⟨n, hn, x, o, hx, ho, hredundant, hnode⟩
    exact ⟨_, mem_visits_of_mem_looked hn hx, x, o, hx, ho, hredundant, hnode,
      mem_check_of_mem ho hredundant⟩

instance (text : String) (min : Nat) (m : Node) : Decidable (IsFlagged (.ofText text) min m) :=
  decidable_of_iff
    ((looked min ((Document.ofText text).nodes.filter (·.kind = .expression))).any fun n ↦
      n.expr?.any fun x ↦ (operations x).any fun o ↦
        isRedundant (Document.ofText text).upToChains o ∧ o.origin.node = m.id) (by
    rw [isFlagged_iff (Document.regular_ofText text).nodes_eq]
    simp only [List.any_eq_true, Option.any_eq_true, decide_eq_true_eq]
    refine exists_congr fun n ↦ and_congr_right fun _ ↦ exists_congr fun x ↦ ?_
    rw [exists_and_left])

/-! ### Outermost expressions -/

/-- An expression node that is large enough and stands below no other one. -/
structure IsOutermost (d : Document) (min : Nat) (n : Node) : Prop where
  /-- The node is one of an expression of the document. -/
  mem : n ∈ d.nodes.filter (·.kind = .expression)
  /-- The expression is large enough. -/
  isLarge : IsLarge min n
  /-- No large expression stands around it. -/
  top : ∀ n' ∈ d.nodes.filter (·.kind = .expression), IsLarge min n' → ¬ n.IsBelow n'

variable {ns : List Node}

/-- What is looked at is large. -/
theorem mem_of_mem_looked (hn : n ∈ looked min ns) : n ∈ ns ∧ IsLarge min n := by
  fun_induction looked min ns with
  | case1 => exact nomatch hn
  | case2 n' ns hlarge ih =>
    rcases List.mem_cons.1 hn with rfl | hn
    · exact ⟨List.mem_cons_self, hlarge⟩
    · obtain ⟨hmem, hlarge⟩ := ih hn
      exact ⟨List.mem_cons_of_mem _ (List.mem_of_mem_filter hmem), hlarge⟩
  | case3 n' ns _ ih => exact ⟨List.mem_cons_of_mem _ (ih hn).1, (ih hn).2⟩

/-- Every large expression is looked at, or stands below one that is. -/
theorem exists_looked (hn : n ∈ ns) (hlarge : IsLarge min n) :
    ∃ n' ∈ looked min ns, n = n' ∨ n.IsBelow n' := by
  fun_induction looked min ns with
  | case1 => exact nomatch hn
  | case2 n' ns hlarge' ih =>
    rcases List.mem_cons.1 hn with rfl | hn
    · exact ⟨n, List.mem_cons_self, .inl rfl⟩
    · by_cases hbelow : n.IsBelow n'
      · exact ⟨n', List.mem_cons_self, .inr hbelow⟩
      · obtain ⟨n'', hn'', h⟩ := ih (List.mem_filter.2 ⟨hn, decide_eq_true hbelow⟩)
        exact ⟨n'', List.mem_cons_of_mem _ hn'', h⟩
  | case3 n' ns hsmall ih =>
    rcases List.mem_cons.1 hn with rfl | hn
    · exact absurd hlarge hsmall
    · exact ih hn

/-- No two of those that are looked at stand one below the other. -/
theorem pairwise_looked (hns : ns.Pairwise fun n m ↦ n.id < m.id) :
    (looked min ns).Pairwise fun n m ↦ n.id + n.size ≤ m.id := by
  fun_induction looked min ns with
  | case1 => exact .nil
  | case2 n ns _ ih =>
    obtain ⟨hn, hns⟩ := List.pairwise_cons.1 hns
    refine .cons (fun m hm ↦ ?_) (ih (hns.filter _))
    obtain ⟨hm, hleft⟩ := List.mem_filter.1 (mem_of_mem_looked hm).1
    have hlt := hn m hm
    have hbehind := of_decide_eq_true hleft
    simp only [Node.IsBelow] at hbehind
    omega
  | case3 n ns _ ih => exact ih (List.pairwise_cons.1 hns).2

/-- Where one node stands in two that are looked at, they are the same. -/
theorem eq_of_mem_looked {n' : Node} {id : Nat} (hns : ns.Pairwise fun n m ↦ n.id < m.id)
    (hn : n ∈ looked min ns) (hn' : n' ∈ looked min ns) (hle : n.id ≤ id ∧ id < n.id + n.size)
    (hle' : n'.id ≤ id ∧ id < n'.id + n'.size) : n = n' := by
  by_contra hne
  let IsApart (n m : Node) : Prop := n.id + n.size ≤ m.id ∨ m.id + m.size ≤ n.id
  have : Std.Symm IsApart := ⟨fun _ _ h ↦ h.symm⟩
  have hapart := ((pairwise_looked hns).imp (S := IsApart) .inl).forall hn hn' hne
  rcases hapart with h | h <;> omega

/-- The expression nodes of a document that are looked at. -/
theorem isOutermost_of_mem_looked (hn : n ∈ looked min (d.nodes.filter (·.kind = .expression))) :
    IsOutermost d min n := by
  obtain ⟨hmem, hlarge⟩ := mem_of_mem_looked hn
  refine ⟨hmem, hlarge, fun n' hn' hlarge' hbelow ↦ ?_⟩
  obtain ⟨n'', hlooked, h⟩ := exists_looked hn' hlarge'
  -- a large expression around it would stand in one that is looked at, and so would the node itself
  have hbelow' : n.IsBelow n'' := by
    rcases h with rfl | h
    · exact hbelow
    · exact .trans (List.mem_of_mem_filter hmem) (List.mem_of_mem_filter hn')
        (List.mem_of_mem_filter (mem_of_mem_looked hlooked).1) hbelow h
  have hpos := n.size_pos
  have heq := eq_of_mem_looked ((pairwise_id_nodes d).filter _) hn hlooked
    ⟨Nat.le_refl n.id, Nat.lt_add_of_pos_right hpos⟩ ⟨Nat.le_of_lt hbelow'.1, hbelow'.2⟩
  exact Nat.lt_irrefl _ (heq ▸ hbelow'.1)

/-! ### Positions of operations -/

/-- The operations of an expression that a node comes to stand at one position each. -/
theorem nodup_stations {x : Expr} (hx : n.expr? = some x) : x.stations.Nodup := by
  have hroles := (Node.stemsFrom_expr? hx).1
  rw [Expr.account_eq_listed] at hroles
  refine Multiset.coe_nodup.1 (Multiset.nodup_of_le hroles ?_)
  exact Multiset.Nodup.of_map Prod.snd n.nodup_snd_roles

/-- What is told of is to be reported at a position of an expression that is looked at. -/
theorem isFlagged_iff_isReported (hroot : d.root.preorder = d.nodes) : IsFlagged d min m ↔
    ∃ n ∈ looked min (d.nodes.filter (·.kind = .expression)), ∃ x p o, n.expr? = some x ∧
      IsReported d.upToChains x p o ∧ o.origin.node = m.id := by
  rw [isFlagged_iff hroot]
  refine exists_congr fun n ↦ and_congr_right fun _ ↦ exists_congr fun x ↦ ?_
  constructor
  · rintro ⟨o, hx, ho, hredundant, hnode⟩
    obtain ⟨p, hkept⟩ := exists_isKept_of_mem (Node.stemsFrom_expr? hx).2 ho hredundant
    exact ⟨p, o, hx, isKept_iff_isReported.1 hkept, hnode⟩
  · rintro ⟨p, o, hx, hreported, hnode⟩
    obtain ⟨ho, hredundant⟩ := List.mem_filter.1
      (mem_filter_of_isKept (Node.stemsFrom_expr? hx).2 (isKept_iff_isReported.2 hreported))
    exact ⟨o, hx, ho, hredundant, hnode⟩

/-- An operation that is to be reported comes from the numbers below its expression. -/
theorem IsReported.bounds {x : Expr} {p : List Nat} {o : Operation} (hx : n.expr? = some x)
    (h : IsReported d.upToChains x p o) : n.id ≤ o.origin.node ∧ o.origin.node < n.id + n.size := by
  have ho := mem_filter_of_isKept (Node.stemsFrom_expr? hx).2 (isKept_iff_isReported.2 h)
  exact (comesFromBelow_of_mem_operations hx (List.mem_of_mem_filter ho)).bounds

/-- An expression that is looked at with one limit stands in one that is looked at with a lower
limit. -/
theorem exists_looked_of_le {min' : Nat} (hle : min ≤ min') {e : Node}
    (he : e ∈ looked min' (d.nodes.filter (·.kind = .expression))) :
    ∃ n ∈ looked min (d.nodes.filter (·.kind = .expression)), e ∈ n.preorder := by
  obtain ⟨hmem, hsize, hsome⟩ := mem_of_mem_looked he
  obtain ⟨n, hn, h⟩ := exists_looked hmem ⟨Nat.le_trans hle hsize, hsome⟩
  refine ⟨n, hn, ?_⟩
  rcases h with rfl | h
  · exact e.mem_preorder_self
  · exact Node.mem_preorder_of_isBelow (List.mem_of_mem_filter hmem)
      (List.mem_of_mem_filter (mem_of_mem_looked hn).1) h

/-- Two operations of one expression that come from one node stand at one position. -/
theorem position_eq {x : Expr} {p q : List Nat} {o o' : Operation} (hx : n.expr? = some x)
    (ho : x.at? p = some o.expr) (hcompared : isCompared o.operator = true)
    (ho' : x.at? q = some o'.expr) (hcompared' : isCompared o'.operator = true)
    (hnode : o.origin.node = o'.origin.node) : p = q := by
  refine Expr.position_unique (nodup_stations hx) ho ho' (s := (.operation, o.origin.node)) ?_ ?_
  · rw [Expr.station?, role?_of_isCompared hcompared]
    rfl
  · rw [Expr.station?, role?_of_isCompared hcompared', hnode]
    rfl

/-- **A lower limit loses what the larger expression shelters, and nothing else.** What a run finds
in a text without errors is an operation of the outermost large expression around it when the limit
is lower, and it is found then too, unless it stands in an operand of an access there. -/
theorem lower_limit_loses_sheltered {text : String} (h : (Document.ofText text).errors = [])
    {min min' : Nat} (hle : min ≤ min') {m : Node} (hm : m ∈ (Document.ofText text).nodes)
    (hflagged : IsFlagged (.ofText text) min' m) :
    ∃ (n : Node) (x : Expr) (p : List Nat) (o : Operation),
      IsOutermost (.ofText text) min n ∧ m.IsBelow n ∧ n.expr? = some x ∧
      x.at? p = some o.expr ∧ o.origin.node = m.id ∧
      (IsFlagged (.ofText text) min m ↔ ¬ x.IsSheltered p) := by
  have hroot := (Document.regular_ofText text).nodes_eq
  rw [isFlagged_iff_isReported hroot] at hflagged
  obtain ⟨e, he, y, q, o, hy, hreported, hnode⟩ := hflagged
  have hcompared := isCompared_iff.2 hreported.operator_notMem
  -- the larger expression has the operation
  obtain ⟨n, hlooked, hen⟩ := exists_looked_of_le hle he
  obtain ⟨hmem, -, hsome⟩ := mem_of_mem_looked hlooked
  obtain ⟨hmem, hkind⟩ := List.mem_filter.1 hmem
  obtain ⟨x, hx⟩ := Option.isSome_iff_exists.1 hsome
  obtain ⟨p, hp⟩ := Document.has_of_mem_preorder h hmem hx hen hy ⟨q, hreported.at_eq⟩
    (role?_of_isCompared hcompared)
  -- it comes from below
  have hbelow : m.IsBelow n := by
    have ho := mem_filter_of_isKept (Node.stemsFrom_expr? hy).2 (isKept_iff_isReported.2 hreported)
    obtain ⟨m', hm', hoperation, hid⟩ :=
      comesFromBelow_of_mem_operations hy (List.mem_of_mem_filter ho)
    have hmn := Node.mem_preorder_trans hen hm'
    obtain rfl : m' = m :=
      Node.eq_of_id_eq (Node.mem_nodes_of_mem_preorder hmem hmn) hm (hid.symm.trans hnode)
    refine Node.isBelow_of_mem_preorder hmn ?_
    rintro rfl
    exact nomatch hoperation.symm.trans (of_decide_eq_true hkind)
  refine ⟨n, x, p, o, isOutermost_of_mem_looked hlooked, hbelow, hx, hp, hnode, ?_⟩
  rw [isFlagged_iff_isReported hroot]
  constructor
  · rintro ⟨n', hlooked', x', p', o', hx', hreported', hnode'⟩
    have hbounds := hreported'.bounds hx'
    rw [hnode'] at hbounds
    obtain rfl := eq_of_mem_looked ((pairwise_id_nodes _).filter _) hlooked hlooked'
      ⟨Nat.le_of_lt hbelow.1, hbelow.2⟩ hbounds
    obtain rfl := Option.some.inj (hx.symm.trans hx')
    rw [position_eq hx hp hcompared hreported'.at_eq
      (isCompared_iff.2 hreported'.operator_notMem) (hnode.trans hnode'.symm)]
    exact hreported'.notSheltered
  · intro hsheltered
    exact ⟨n, hlooked, x, p, o, hx,
      ⟨hp, hsheltered, hreported.operator_notMem, hreported.repeats⟩, hnode⟩

/-- A comparison in an index that is found with a limit of four and not with a limit of three. -/
theorem exists_comparison_in_index : ∃ text, text = "Х=А[Б=Б=Б]+В;" ∧
    (Document.ofText text).errors = [] ∧ ∃ m ∈ (Document.ofText text).nodes,
      IsFlagged (.ofText text) 4 m ∧ ¬ IsFlagged (.ofText text) 3 m := by
  obtain ⟨text, htext⟩ : ∃ text, text = "Х=А[Б=Б=Б]+В;" := ⟨_, rfl⟩
  have hany : (Document.ofText text).errors = [] ∧ (Document.ofText text).nodes.any (fun m ↦
      IsFlagged (.ofText text) 4 m ∧ ¬ IsFlagged (.ofText text) 3 m) = true := by
    rw [htext]
    decide +kernel
  obtain ⟨m, hm, hboth⟩ := List.any_eq_true.1 hany.2
  exact ⟨text, htext, hany.1, m, hm, of_decide_eq_true hboth⟩

/-- With a limit of three, the comparison is sheltered by the sum that is then looked at. -/
theorem sum_shelters_comparison :
    ∃ text, text = "Х=А[Б=Б=Б]+В;" ∧ (Document.ofText text).errors = [] ∧
      ∃ m ∈ (Document.ofText text).nodes, IsFlagged (.ofText text) 4 m ∧
        ∃ (n : Node) (x : Expr) (p : List Nat) (o : Operation),
          IsOutermost (.ofText text) 3 n ∧ m.IsBelow n ∧ n.expr? = some x ∧
          x.at? p = some o.expr ∧ o.origin.node = m.id ∧ x.IsSheltered p := by
  obtain ⟨text, htext, herrors, m, hm, hflagged, hnot⟩ := exists_comparison_in_index
  obtain ⟨n, x, p, o, houter, hbelow, hx, hp, hnode, hiff⟩ :=
    lower_limit_loses_sheltered herrors (by decide : 3 ≤ 4) hm hflagged
  exact ⟨text, htext, herrors, m, hm, hflagged, n, x, p, o, houter, hbelow, hx, hp, hnode,
    not_not.1 fun h ↦ hnot (hiff.2 h)⟩

/-- So what is found is not always found with a lower limit. -/
theorem lower_limit_loses_comparison :
    ¬ ∀ text, (Document.ofText text).errors = [] → ∀ min min', min ≤ min' →
      ∀ m ∈ (Document.ofText text).nodes, IsFlagged (.ofText text) min' m →
        IsFlagged (.ofText text) min m := by
  intro h
  obtain ⟨text, -, herrors, m, hm, hflagged, hnot⟩ := exists_comparison_in_index
  exact hnot (h text herrors 3 4 (by decide) m hm hflagged)

end IdenticalExpressions

end BslLint
