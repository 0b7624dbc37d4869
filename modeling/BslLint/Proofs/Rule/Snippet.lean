import BslLint.Proofs.Expression.Quotation
import BslLint.Proofs.Rule.Threshold

/-!
# The text that a finding shows

A finding about an operation shows the text of its left operand (`IdenticalExpressions.snippet`).
The range of an operand that is an operation itself is put together from those of its own operands,
and parentheses around these belong to no range. Of `(а + б) * 2` the text `а + б) * 2` is shown.

**What is shown is read as the left operand exactly if its parentheses and brackets are balanced**
(`IdenticalExpressions.snippet_reads_back`). Nothing but parentheses is ever lost, and with those
that stand around the text in the source it is read as the left operand in any case.
-/

namespace BslLint.IdenticalExpressions

open Document

variable {d : Document} {o : Operation}

/-- The left operand is shown if its range is not empty. -/
theorem snippet_of_left (h : o.left.range.isEmpty = false) :
    snippet d o = d.rangeText o.left.range := by
  rw [snippet, List.find?_cons_of_pos (by rw [h]; rfl)]

/-- An operation whose operands are compared is part of the expression. -/
theorem has_of_mem_operations {n : Node} {x : Expr} (hx : n.expr? = some x)
    (ho : o ∈ operations x) : x.Has o.expr ∧ o.expr.role? = some .operation := by
  obtain ⟨p, hkept⟩ : ∃ p, IsKept (fun _ ↦ true) x p o :=
    exists_isKept_of_mem (Node.stemsFrom_expr? hx).2 ho rfl
  exact ⟨⟨p, hkept.at_eq⟩, role?_of_isCompared hkept.isCompared⟩

/-- **What is shown of an operation is read as its left operand exactly if it is balanced.**
Otherwise it cannot be read without errors. All that is ever missing are parentheses that stand
around it in the text. -/
theorem snippet_reads_back {text : String} (h : (ofText text).errors = []) {n : Node}
    (hn : n ∈ (ofText text).nodes) {x : Expr} (hx : n.expr? = some x) {o : Operation}
    (ho : o ∈ operations x) :
    (IsBalancedText (snippet (ofText text) o) →
        (ofText text).ReadsBack (snippet (ofText text) o) o.left) ∧
      (¬ IsBalancedText (snippet (ofText text) o) →
        (ofText (assignmentText (snippet (ofText text) o))).errors ≠ []) ∧
      ∃ l m r, l ++ (m ++ r) <:+: (ofText text).tokens.toList ∧
        (∀ t ∈ l, t.kind = .leftParen) ∧ (∀ t ∈ r, t.kind = .rightParen) ∧
        snippet (ofText text) o = (ofText text).spanText m ∧
        (ofText text).ReadsBack ((ofText text).spanText (l ++ (m ++ r))) o.left := by
  obtain ⟨hhas, hrole⟩ := has_of_mem_operations hx ho
  have hquotes : (ofText text).Quotes o.left :=
    Node.quotes_of_has h hn hx hhas hrole _ List.mem_cons_self
  rw [snippet_of_left hquotes.isEmpty_eq]
  exact ⟨hquotes.readsBack, mt hquotes.isBalanced, hquotes.exists_parens⟩

/-- Parentheses around a whole operand are lost on both sides, and the text is still balanced. -/
theorem snippet_of_sum_reads_back : ∃ text, text = "Х=(А+Б)=(А+Б);" ∧ (ofText text).errors = [] ∧
    ∃ n ∈ (ofText text).nodes, ∃ x o, n.expr? = some x ∧ o ∈ operations x ∧
      isRedundant (ofText text).upToChains o = true ∧ snippet (ofText text) o = "А+Б" ∧
      (ofText text).ReadsBack (snippet (ofText text) o) o.left := by
  obtain ⟨text, htext⟩ : ∃ text, text = "Х=(А+Б)=(А+Б);" := ⟨_, rfl⟩
  have hany : (ofText text).errors = [] ∧ (ofText text).nodes.any (fun n ↦ n.expr?.any fun x ↦
      (operations x).any fun o ↦ isRedundant (ofText text).upToChains o = true ∧
        snippet (ofText text) o = "А+Б" ∧ IsBalancedText (snippet (ofText text) o)) = true := by
    rw [htext, Document.ofText_eq_evaluated]
    simp only [IsBalancedText, Scan.ofText_eq_evaluated]
    decide +kernel
  simp only [List.any_eq_true, Option.any_eq_true, decide_eq_true_eq] at hany
  obtain ⟨hnone, n, hn, x, hx, o, ho, hredundant, hsnippet, hbalanced⟩ := hany
  exact ⟨text, htext, hnone, n, hn, x, o, hx, ho, hredundant, hsnippet,
    (snippet_reads_back hnone hn hx ho).1 hbalanced⟩

/-- **The parenthesis of a sum that is multiplied is lost**, so what a finding shows is not always
balanced and cannot always be read. -/
theorem snippet_of_product_has_errors : ∃ text, text = "Х=(А+Б)*2=(А+Б)*2;" ∧
    (ofText text).errors = [] ∧ ∃ n ∈ (ofText text).nodes, ∃ x o, n.expr? = some x ∧
      o ∈ operations x ∧ Finding.atNode (ofText text) n (message (ofText text) n o) ∈
        check (ofText text) n x ∧ snippet (ofText text) o = "А+Б)*2" ∧
      ¬ IsBalancedText (snippet (ofText text) o) ∧
      (ofText (assignmentText (snippet (ofText text) o))).errors ≠ [] := by
  obtain ⟨text, htext⟩ : ∃ text, text = "Х=(А+Б)*2=(А+Б)*2;" := ⟨_, rfl⟩
  have hany : (ofText text).errors = [] ∧ (ofText text).nodes.any (fun n ↦ n.expr?.any fun x ↦
      (operations x).any fun o ↦ isRedundant (ofText text).upToChains o = true ∧
        snippet (ofText text) o = "А+Б)*2") = true := by
    rw [htext, Document.ofText_eq_evaluated]
    decide +kernel
  simp only [List.any_eq_true, Option.any_eq_true, decide_eq_true_eq] at hany
  obtain ⟨hnone, n, hn, x, hx, o, ho, hredundant, hsnippet⟩ := hany
  refine ⟨text, htext, hnone, n, hn, x, o, hx, ho, mem_check_of_mem ho hredundant, hsnippet, ?_, ?_⟩
  · -- The fragment has a parenthesis too much, and the parser reports what is behind it.
    rw [hsnippet, IsBalancedText, Scan.ofText_eq_evaluated]
    decide +kernel
  · rw [hsnippet, Ne, errors_eq_nil_iff]
    intro herrors
    have hfaults : (Grammar.file (Scan.ofText
        (Text.withoutMark (assignmentText "А+Б)*2"))).tokens).faults.isEmpty = false := by
      rw [Scan.ofText_eq_evaluated]
      decide +kernel
    exact Bool.eq_false_iff.1 hfaults (List.isEmpty_iff.2 herrors.2)

end BslLint.IdenticalExpressions
