import BslLint.Proofs.Data.Attempts
import BslLint.Proofs.Expression.Climbing
import BslLint.Proofs.Expression.Depth
import BslLint.Proofs.Grammar.Width

/-!
# Expressions have the nesting that priorities give them

In the tree of a text, faulty or not, members and operations take turns below an expression. So what
they add to the row is a row, if they add anything, and resolving it comes to the same as climbing:
**the expression of a node is what climbing makes of its row** (`Document.expressions_by_climbing`).
-/

namespace BslLint

/-- The row of a node: what its children are as operands and operators. -/
def Node.row? (n : Node) : Option (List Piece) :=
  (n.children.mapM (Expr.pieces? Node.expr?)).map List.flatten

namespace Expr

variable {inner : Node → Option Expr} {n : Node} {ps : List Piece}

/-- What a member adds to the row. -/
theorem exists_of_pieces?_member (hn : n.kind = .member) (h : pieces? inner n = some ps) :
    ∃ (us : List Pending) (x : Expr), ps = us.map .unary ++ [.operand x] ∧
      ∀ p ∈ us, p.operator.isUnary = true := by
  obtain ⟨us, x, -, hus, -, rfl⟩ | ⟨p, hoperation, -⟩ := of_pieces? h
  · refine ⟨us, x, rfl, fun p hp ↦ ?_⟩
    obtain ⟨m, -, hm⟩ := exists_of_mem_right (mapM_eq_some_iff.1 hus) hp
    exact (of_unaryModifier? hm).1
  · exact nomatch hn.symm.trans hoperation

/-- What an operation adds to the row. -/
theorem exists_of_pieces?_operation (hn : n.kind = .operation) (h : pieces? inner n = some ps) :
    ∃ p k, ps = [.binary p] ∧ Operator.binary? k = some p.operator := by
  obtain ⟨us, x, hmember, -⟩ | ⟨p, -, hp, rfl⟩ := of_pieces? h
  · exact nomatch hn.symm.trans hmember
  · obtain ⟨⟨k, hk⟩, -⟩ := of_operation? hp
    exact ⟨p, k, rfl, hk⟩

/-- Members with an operation between each two of them add up to a row. -/
theorem row_of_alternating {ts : List Tree} (hts : Grammar.Alternating ts) {ns : List Node}
    {rows : List (List Piece)} (hns : ns.map Node.tree = ts)
    (h : List.Forall₂ (fun n ps ↦ pieces? inner n = some ps) ns rows) :
    Piece.Row (fun _ ↦ True) true rows.flatten := by
  induction hts generalizing ns rows with
  | member cs =>
    obtain ⟨n, _, rfl, hn, hnil⟩ := List.map_eq_cons_iff.1 hns
    obtain rfl := List.map_eq_nil_iff.1 hnil
    obtain _ | ⟨hmember, ⟨⟩⟩ := h
    obtain ⟨us, x, rfl, hus⟩ := exists_of_pieces?_member (congrArg Tree.kind hn) hmember
    exact .member hus trivial .nil
  | operation cs ds _ ih =>
    obtain ⟨n, _, rfl, hn, hrest⟩ := List.map_eq_cons_iff.1 hns
    obtain ⟨m, ns, rfl, hm, hns⟩ := List.map_eq_cons_iff.1 hrest
    obtain _ | ⟨hmember, _ | ⟨hoperation, h⟩⟩ := h
    obtain ⟨us, x, rfl, hus⟩ := exists_of_pieces?_member (congrArg Tree.kind hn) hmember
    obtain ⟨p, k, rfl, hp⟩ := exists_of_pieces?_operation (congrArg Tree.kind hm) hoperation
    exact .member hus trivial (.binary hp (ih hns h))

/-- An expression is what its row comes to. -/
theorem expr?_eq_resolve? (hn : n.kind = .expression) : n.expr? = n.row?.bind Piece.resolve? := by
  rw [Node.expr?_eq, ofNode?, if_pos hn, Node.row?, Option.bind_map]
  rfl

end Expr

namespace Document

/-- In the tree of a text, the row of an expression is a row. -/
theorem row_of_row? {text : String} {n : Node} (hn : n ∈ (ofText text).nodes)
    (hkind : n.kind = .expression) {row : List Piece} (h : n.row? = some row) :
    Piece.Row (fun _ ↦ True) true row := by
  obtain ⟨t, ht, hwithin⟩ := Node.within_of_mem_nodes hn
  obtain ⟨rows, hrows, rfl⟩ := Option.map_eq_some_iff.1 h
  exact Expr.row_of_alternating (Grammar.everywhere_alternating _ t ht n.tree hwithin hkind)
    n.map_tree_children (mapM_eq_some_iff.1 hrows)

/-- **The expression of a node is what climbing makes of its row**, operators, operands and nesting.
That is so for every expression in the tree of a text, faulty or not, and there is none exactly if a
part of the row is missing. -/
theorem expressions_by_climbing (text : String) (n : Node) (hn : n ∈ (ofText text).nodes)
    (hkind : n.kind = .expression) (x : Expr) :
    n.expr? = some x ↔ ∃ row, n.row? = some row ∧ Piece.climbAll? row = some x := by
  rw [Expr.expr?_eq_resolve? hkind, Option.bind_eq_some_iff]
  refine exists_congr fun row ↦ and_congr_right fun hrow ↦ ?_
  rw [(row_of_row? hn hkind hrow).resolve?_eq_climbAll?]

/-- An operator of low priority in front of an operand, behind one that binds tighter. -/
theorem negated_factor_by_climbing :
    ∃ n ∈ (ofText "Х=А*Не Б И В").nodes, n.kind = .expression ∧ ∃ x row, n.expr? = some x ∧
      n.row? = some row ∧ Piece.climbAll? row = some x ∧ (x.chain .and).length = 2 := by
  obtain ⟨text, htext⟩ : ∃ text, text = "Х=А*Не Б И В" := ⟨_, rfl⟩
  have hany : (ofText text).nodes.any (fun n ↦ n.kind = .expression &&
      (n.expr?.map fun x ↦ (x.chain .and).length) = some 2) = true := by
    rw [htext, Document.ofText_eq_evaluated]
    decide +kernel
  rw [← htext]
  obtain ⟨n, hn, hboth⟩ := List.any_eq_true.1 hany
  obtain ⟨hkind, hlength⟩ : n.kind = .expression ∧
      (n.expr?.map fun x ↦ (x.chain .and).length) = some 2 := by simpa using hboth
  obtain ⟨x, hx, hlength⟩ := Option.map_eq_some_iff.1 hlength
  obtain ⟨row, hrow, hclimb⟩ := (expressions_by_climbing text n hn hkind x).1 hx
  exact ⟨n, hn, hkind, x, row, hx, hrow, hclimb, hlength⟩

end Document

end BslLint
