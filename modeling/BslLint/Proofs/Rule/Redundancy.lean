import BslLint.Grammar.Parse
import BslLint.Rule.IdenticalExpressions
import BslLint.Proofs.Expression.Meaning
import BslLint.Proofs.Token.Places

/-!
# What the rule about equal operands finds is redundant

An operation that `IdenticalExpressions.isRedundant` reports is worth what its right operand alone
is worth, if its operator is logical, and has operands of one value otherwise. The meaning of
expressions is left open as far as it can be: logical operators have to be those of a semilattice,
which is what the words of a condition mean in any logic.

The walk along the chain meets the left operand in three ways, and each takes another law. As the
operand of a link it is regrouped and absorbed by its repetition, as the whole rest behind a link it
is first exchanged with the operand, and further on it passes through the link
(`Interpretation.Semilattice.absorbed_of_occursInChain`).
-/

namespace BslLint

variable {α : Type*} {I : Interpretation α}

/-- The chains of a logical operator may be regrouped and reordered and have no use for an operand
that is repeated. -/
structure Interpretation.Semilattice (I : Interpretation α) : Prop extends I.Orderless where
  /-- An operand that is repeated says nothing. -/
  idem (op : Operator) : op.isLogical = true → Std.IdempotentOp (I.binary op)

namespace Interpretation

theorem semilattice_truth (names : List String) : (truth names).Semilattice where
  toOrderless := orderless_truth names
  idem op _ := ⟨fun v ↦ by cases op <;> simp_all [truth, Operator.isLogical]⟩

namespace Semilattice

variable {op : Operator} (hI : I.Semilattice) (hop : op.isLogical = true) {v w u : α}

include hI hop

/-- What stands in front of a chain passes through the first link of it. -/
theorem left_comm (v w u : α) :
    I.binary op v (I.binary op w u) = I.binary op w (I.binary op v u) := by
  rw [← (hI.assoc op hop).assoc, (hI.comm op hop).comm v w, (hI.assoc op hop).assoc]

theorem absorbed_left (v u : α) : I.binary op v (I.binary op v u) = I.binary op v u := by
  rw [← (hI.assoc op hop).assoc, (hI.idem op hop).idempotent]

theorem absorbed_right (v w : α) : I.binary op v (I.binary op w v) = I.binary op w v := by
  rw [hI.left_comm hop, (hI.idem op hop).idempotent]

/-- **An operand that comes again in a chain says nothing in front of it.** -/
theorem absorbed_of_occursInChain {c : Comparison} {x y : Expr}
    (h : IdenticalExpressions.occursInChain c op x y = true) :
    I.binary op (I.value c.texts x) (I.value c.texts y) = I.value c.texts y := by
  have hsame {y : Expr} (h : c.same x y = true) : I.value c.texts x = I.value c.texts y :=
    Comparison.value_eq_of_same (fun _ ↦ hI.toOrderless) h
  fun_induction IdenticalExpressions.occursInChain c op x y with
  | case1 op' left right o ih =>
    simp only [Bool.and_eq_true, Bool.or_eq_true, beq_iff_eq] at h
    -- it is the operand of the first link, all that stands behind it, or found further on
    obtain ⟨rfl, (hleft | hright) | hbehind⟩ := h
    · rw [value, hsame hleft, hI.absorbed_left hop]
    · rw [value, hsame hright, hI.absorbed_right hop]
    · rw [value, hI.left_comm hop, ih hbehind]
  | case2 => simp at h

end Semilattice

end Interpretation

namespace IdenticalExpressions

/-- **Every operation that is reported is redundant.** The left operand of a logical one can be left
out, and the operands of any other have the same value. -/
theorem redundancy_is_real {d : Document} (hI : I.Semilattice) {op : Operator} {left right : Expr}
    {o : Origin} (h : isRedundant d.upToChains ⟨op, left, right, o⟩ = true) :
    (op.isLogical = true →
        I.value d.tokenTexts (.binary op left right o) = I.value d.tokenTexts right) ∧
      (op.isLogical = false → I.value d.tokenTexts left = I.value d.tokenTexts right) := by
  have hsame (h : d.upToChains.same left right = true) :
      I.value d.tokenTexts left = I.value d.tokenTexts right :=
    Comparison.value_eq_of_same (c := d.upToChains) (fun _ ↦ hI.toOrderless) h
  rw [isRedundant, Bool.or_eq_true, Bool.and_eq_true] at h
  refine ⟨fun hop ↦ ?_, fun hop ↦ ?_⟩
  · rw [Interpretation.value]
    obtain h | ⟨-, h⟩ := h
    · rw [hsame h, (hI.idem op hop).idempotent]
    · exact hI.absorbed_of_occursInChain hop h
  · obtain h | ⟨hlogical, -⟩ := h
    · exact hsame h
    · exact absurd (hlogical.symm.trans hop) (by decide)

/-- A condition is found that is asked for twice, and so are equal operands inside of it. -/
theorem repeated_condition_is_redundant :
    ∃ d x, d = Document.ofText "Х=А>А И(Б И А>А);" ∧ d.nodes[8]?.bind Node.expr? = some x ∧
      (∃ o ∈ operations x, isRedundant d.upToChains o = true ∧ o.operator.isLogical = true ∧
        (Interpretation.truth ["А"]).value d.tokenTexts
            (.binary o.operator o.left o.right o.origin) =
          (Interpretation.truth ["А"]).value d.tokenTexts o.right) ∧
      ∃ o ∈ operations x, isRedundant d.upToChains o = true ∧ o.operator.isLogical = false ∧
        (Interpretation.truth ["А"]).value d.tokenTexts o.left =
          (Interpretation.truth ["А"]).value d.tokenTexts o.right := by
  obtain ⟨d, hd⟩ : ∃ d, d = Document.ofText "Х=А>А И(Б И А>А);" := ⟨_, rfl⟩
  have hfound : (d.nodes[8]?.bind Node.expr?).any (fun x ↦
      (operations x).any (fun o ↦ isRedundant d.upToChains o ∧ o.operator.isLogical) ∧
      (operations x).any (fun o ↦ isRedundant d.upToChains o ∧ o.operator.isLogical = false)) =
        true := by
    rw [hd, Document.ofText_eq_evaluated]
    decide +kernel
  obtain ⟨x, hx, ⟨o, ho, hred, hop⟩, o', ho', hred', hop'⟩ := by
    simpa only [Option.any_eq_true, List.any_eq_true, decide_eq_true_eq] using hfound
  have hI : (Interpretation.truth ["А"]).Semilattice := Interpretation.semilattice_truth _
  exact ⟨d, x, hd, hx, ⟨o, ho, hred, hop, (redundancy_is_real hI hred).1 hop⟩,
    o', ho', hred', hop', (redundancy_is_real hI hred').2 hop'⟩

end IdenticalExpressions

end BslLint
