import BslLint.Config.Basic
import BslLint.Proofs.Expression.Relabelling
import BslLint.Proofs.Grammar.Width
import BslLint.Proofs.Pass.Isolation
import BslLint.Proofs.Syntax.Standing

/-!
# Where the rules find something

All rules but the one about errors find something at nodes. A node without tokens has no place of
its own, and a finding there would be told to stand at the start of the text. That does not happen:
what the rules look at is an expression that is there, or an object that is made with the name of a
type, so **every finding at a node begins where a token does** (`Rule.begins_at_token`).
-/

namespace BslLint

variable {d : Document} {n c : Node}

/-! ### Nodes with tokens -/

/-- A child has no more tokens than its parent. -/
theorem Node.width_le_of_mem_children (h : c ∈ n.children) : c.tree.width ≤ n.tree.width := by
  have hle : ∀ (cs : List Tree), ∀ t ∈ cs, t.width ≤ Tree.widthAll cs := by
    intro cs t ht
    obtain ⟨before, after, rfl⟩ := List.append_of_mem ht
    rw [Tree.widthAll_append, Tree.widthAll]
    omega
  have hmem := tree_mem_of_childOf h
  rcases htree : n.tree with t | ⟨k, cs⟩ <;> rw [htree] at hmem
  · exact absurd hmem List.not_mem_nil
  · exact hle cs _ hmem

theorem Node.kind_of_childOfKind? {k : NodeKind} (h : n.childOfKind? k = some c) : c.kind = k := by
  simpa using List.find?_some h

namespace IdenticalExpressions

/-- There is no expression where one is missing. -/
theorem expr?_of_missing (h : n.tree = Grammar.missingExpression) : n.expr? = none := by
  obtain ⟨id, first, tree⟩ := n
  obtain rfl : tree = _ := h
  rfl

theorem width_pos (hfilled : Grammar.Filled n.tree) (hkind : n.kind = .expression) {x : Expr}
    (hx : n.expr? = some x) : 0 < n.tree.width := by
  refine (hfilled.expression hkind).resolve_right fun hmissing ↦ ?_
  rw [expr?_of_missing hmissing] at hx
  exact nomatch hx

end IdenticalExpressions

namespace ConditionComplexity

/-- There is no operation where an expression is missing. -/
theorem operations_of_missing (h : n.tree = Grammar.missingExpression) : operations n = 0 := by
  obtain ⟨id, first, tree⟩ := n
  obtain rfl : tree = _ := h
  simp [operations, Node.preorder, Node.preorderAll, Node.children, Node.place, Node.kind,
    Tree.kind,
    Tree.children, Grammar.missingExpression]

theorem width_pos (hfilled : Grammar.Filled n.tree) (hkind : n.kind = .expression) {max : Nat}
    (hmax : max < operations n) : 0 < n.tree.width := by
  refine (hfilled.expression hkind).resolve_right fun hmissing ↦ ?_
  rw [operations_of_missing hmissing] at hmax
  exact absurd hmax (Nat.not_lt_zero max)

end ConditionComplexity

/-- Where the name of a type stands, there is a token. -/
theorem StructureValues.width_pos (hfilled : Grammar.Filled c.tree) (hc : c ∈ n.children)
    (hkind : c.kind = .typeName) : 0 < n.tree.width := by
  obtain ⟨x, hx⟩ := hfilled.typeName hkind
  refine Nat.lt_of_lt_of_le ?_ (Node.width_le_of_mem_children hc)
  rw [hx]
  exact Nat.one_pos

/-! ### Findings at nodes -/

/-- The finding begins where a token of the document does. -/
def Finding.BeginsAtToken (d : Document) (x : Finding) : Prop :=
  ∃ t ∈ d.tokens.toList, x.range.start = t.start

/-- A finding about a node with a token begins where the node does. -/
theorem Finding.beginsAtToken_atNode (hn : n ∈ d.nodes) (hwidth : 0 < n.tree.width) (m : String) :
    BeginsAtToken d (.atNode d n m) := by
  have hstands := Node.standsIn_of_mem_nodes hn
  have hne : n.tree.tokens ≠ [] := by
    rw [← List.length_pos_iff, Tree.length_tokens]
    exact hwidth
  have hspan : d.span? n = some ⟨_, _⟩ := congrArg (Option.map _) (Document.ends?_eq hstands hne)
  obtain ⟨us, vs, hsplit, -⟩ := hstands
  refine ⟨n.tree.tokens.head hne, ?_, ?_⟩
  · rw [hsplit]
    exact List.mem_append_right _ (List.mem_append_left _ (List.head_mem hne))
  · rw [Finding.atNode, hspan]
    rfl

/-- **Where a rule finds something at a node, there is a token.** -/
theorem Rule.begins_at_token (hfilled : ∀ n ∈ d.nodes, Grammar.Filled n.tree) (hn : n ∈ d.nodes)
    (r : Rule) (limit : Nat) (hkind : n.kind ∈ (r.pass limit).kinds) :
    ∀ x ∈ ((r.pass limit).visit d n ()).findings, x.BeginsAtToken d := by
  cases r with
  -- Parse errors are found in the call for the document, not at nodes.
  | parseErrors => exact nofun
  | identicalExpressions =>
    intro x hx
    simp only [Rule.pass, IdenticalExpressions.pass] at hx
    split at hx
    · exact nomatch hx
    · cases hexpr : n.expr? with
      | none =>
        rw [hexpr] at hx
        exact nomatch hx
      | some e =>
        rw [hexpr] at hx
        obtain ⟨o, -, rfl⟩ := List.mem_map.1 hx
        exact Finding.beginsAtToken_atNode hn
          (IdenticalExpressions.width_pos (hfilled n hn) (List.mem_singleton.1 hkind) hexpr) _
  | conditionComplexity =>
    intro x hx
    replace hx : x ∈ ConditionComplexity.check limit d n := hx
    rw [ConditionComplexity.check] at hx
    split at hx
    · exact nomatch hx
    next condition hcondition =>
      have hmem := Node.mem_nodes_of_mem_children hn (Node.mem_children_of_childOfKind? hcondition)
      dsimp only at hx
      split at hx
      next hmax =>
        rw [List.mem_singleton.1 hx]
        exact Finding.beginsAtToken_atNode hmem (ConditionComplexity.width_pos (hfilled _ hmem)
          (Node.kind_of_childOfKind? hcondition) hmax) _
      next => exact nomatch hx
  | structureValues =>
    intro x hx
    replace hx : x ∈ StructureValues.check limit d n := hx
    rw [StructureValues.check] at hx
    split at hx
    · exact nomatch hx
    next type htype =>
      have hchild := Node.mem_children_of_childOfKind? htype
      split at hx
      · rw [List.mem_singleton.1 hx]
        exact Finding.beginsAtToken_atNode hn (StructureValues.width_pos
          (hfilled _ (Node.mem_nodes_of_mem_children hn hchild)) hchild
          (Node.kind_of_childOfKind? htype)) _
      · exact nomatch hx

/-- For the document as a whole a rule finds nothing but its errors. -/
theorem Rule.exists_error_of_mem_checkFile (r : Rule) (limit : Nat) :
    ∀ x ∈ ((r.pass limit).checkFile d ()).findings,
      r = .parseErrors ∧ ∃ e ∈ d.errors, x = ParseErrors.ofError e := by
  intro x hx
  cases r with
  | parseErrors =>
    obtain ⟨e, he, rfl⟩ := List.mem_map.1 hx
    exact ⟨rfl, e, he, rfl⟩
  | _ => exact nomatch hx

/-! ### Results of a runner -/

/-- What is found in a course is found in the call for the document or in one at a node. -/
theorem Pass.mem_findings_course {p : Pass Unit} {x : Finding} (hx : x ∈ (p.course d).findings) :
    x ∈ (p.checkFile d ()).findings ∨
      ∃ n ∈ d.root.preorder, n.kind ∈ p.kinds ∧ x ∈ (p.visit d n ()).findings := by
  -- The state holds nothing, so the answer at a node does not depend on what came before.
  have hvisits : ∀ (ns : List Node) (s : Unit), ∀ v ∈ p.visits d ns s,
      v.1 ∈ ns ∧ v.2 = p.visit d v.1 () := by
    intro ns s v hv
    fun_induction p.visits d ns s with
    | case1 => cases hv
    | case2 n ns s answer ihGo ihSkip =>
      obtain rfl | hv := List.mem_cons.1 hv
      · exact ⟨List.mem_cons_self, rfl⟩
      · split at hv
        · exact (ihGo hv).imp_left (List.mem_cons_of_mem _)
        · exact (ihSkip hv).imp_left fun hmem ↦
            List.mem_cons_of_mem _ (List.mem_of_mem_filter hmem)
        all_goals cases hv
  refine (List.mem_append.1 hx).imp id fun hx ↦ ?_
  obtain ⟨v, hv, hx⟩ := List.mem_flatMap.1 hx
  replace hv : v ∈ if (p.checkFile d p.initial).outcome.isFailure then [] else _ := hv
  split at hv
  · cases hv
  · obtain ⟨hmem, hanswer⟩ := hvisits _ _ v hv
    obtain ⟨hlisted, hkind⟩ := List.mem_filter.1 hmem
    exact ⟨v.1, hlisted, of_decide_eq_true hkind, hanswer ▸ hx⟩

theorem Rule.nodup_kinds (r : Rule) (limit : Nat) : (r.pass limit).kinds.Nodup := by
  cases r with
  | parseErrors => exact .nil
  | identicalExpressions => exact List.nodup_singleton _
  | conditionComplexity => exact show [NodeKind.ifBranch, NodeKind.elsifBranch].Nodup by decide
  | structureValues => exact List.nodup_singleton _

/-- **What the rules find is about an error, or begins where a token does.** -/
theorem Document.error_or_begins_at_token (hroot : d.root.preorder = d.nodes)
    (hfilled : ∀ n ∈ d.nodes, Grammar.Filled n.tree) : ∀ x ∈ d.diagnostics,
      (∃ e ∈ d.errors, x = (ParseErrors.ofError e).toDiagnostic ParseErrors.info.code
        ParseErrors.info.severity) ∨
      ∃ t ∈ d.tokens.toList, x.range.start = t.start := by
  intro x hx
  -- The runner only sorts what its passes find.
  have hsorted := Runner.isStableSort_run d (r := ⟨Rule.all.map fun r ↦
      ⟨r.pass ((r.parameter?.map (·.default)).getD 0), r.info.severity⟩⟩)
    (List.forall_mem_map.2 fun r _ ↦ r.nodup_kinds _)
  obtain ⟨p, hp, hx⟩ := List.mem_flatMap.1 (hsorted.perm.subset hx)
  obtain ⟨r, -, rfl⟩ := List.mem_map.1 hp
  obtain ⟨y, hy, rfl⟩ := List.mem_map.1 hx
  obtain hfile | ⟨n, hn, hkind, hvisit⟩ := Pass.mem_findings_course hy
  · obtain ⟨rfl, e, he, rfl⟩ := r.exists_error_of_mem_checkFile _ y hfile
    exact .inl ⟨e, he, rfl⟩
  · rw [hroot] at hn
    exact .inr (r.begins_at_token hfilled hn _ hkind y hvisit)

end BslLint
