import BslLint.Grammar.Statement
import BslLint.Proofs.Grammar.Combinators

/-!
# Statements read something

A statement reads a token wherever one is left, on every way through it, the ways of recovery
included.
-/

namespace BslLint.Grammar

open BslLint.Parser

variable {inner : Parser} {ts : List Token}

/-- A label reads its tilde, -/
theorem progress_label (h : ts ≠ []) (withColon : Bool) : Progress (label withColon) ts :=
  (((progress_one h).seq _).seq _).node _

theorem progress_identifierHead (h : ts ≠ []) : Progress (identifierHead inner) ts :=
  progress_ifAhead ((((progress_one h).node _).seq _).node _) (progress_one h)

/-- unexpected text reads a token, -/
theorem progress_unexpected (h : ts ≠ []) : Progress unexpected ts :=
  (((progress_seq_one _ h).seq _).seq _).node _

/-- and the others read their first word. -/
theorem progress_ifStatement (h : ts ≠ []) : Progress (ifStatement inner) ts := by
  have hbranch : Progress (conditionalBranch inner .ifBranch) ts :=
    ((((progress_one h).seq _).seq _).seq _).node _
  exact (((hbranch.seq _).seq _).seq _).node _

theorem progress_forStatement (h : ts ≠ []) : Progress (forStatement inner) ts :=
  (((((((progress_one h).seq _).seq _).seq _).seq _).seq _).seq _).node _

theorem progress_forEachStatement (h : ts ≠ []) : Progress (forEachStatement inner) ts :=
  ((((((progress_one h).seq _).seq _).seq _).seq _).seq _).node _

theorem progress_assignment (h : ts ≠ []) : Progress assignment ts :=
  (((((progress_identifierHead h).seq _).node _).seq _).seq _).node _

/-- A statement begins with a token of its own, whichever of its rules applies. -/
theorem progress_statementBody (h : ts ≠ []) : Progress (statementBody inner) ts := by
  have hone : Progress one ts := progress_one h
  refine progress_select fun k hk ↦ ?_
  split
  · exact (progress_ifStatement h).seq _
  · exact (((hone.seq _).seq _).node _).seq _
  · exact (progress_ifAhead (progress_forEachStatement h) (progress_forStatement h)).seq _
  · exact (((((hone.seq _).seq _).seq _).seq _).node _).seq _
  · exact ((hone.seq _).node _).seq _
  · exact (hone.node _).seq _
  · exact (hone.node _).seq _
  · exact ((hone.seq _).node _).seq _
  · exact ((hone.seq _).node _).seq _
  · exact (progress_ifAhead (progress_assignment h)
      (((progress_identifierHead h).seq _).node _)).seq _
  · have hat : isAt .semicolon ts = true := by rw [isAt, hk, beq_self_eq_true]
    rw [Progress, statementEnd, ifAhead_pos hat]
    exact hone
  · exact progress_unexpected h

/-- **A statement reads a token**, with a label in front or without. -/
theorem progress_statement (h : ts ≠ []) : Progress (statement inner) ts :=
  (progress_ifAhead ((progress_label h true).seq _) (progress_statementBody h)).node _

end BslLint.Grammar
