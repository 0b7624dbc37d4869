import BslLint.Proofs.Grammar.Constants
import BslLint.Proofs.Grammar.Recognition

/-!
# Modules that begin with an assignment

An identifier with an equals sign behind it begins an assignment, whatever comes next. Where a
module begins in this way, an expression and the end of a statement have to follow
(`reads_statement_assignment`), and if these are all of it, the tree of the module is known
(`reads_file_assignment`).

From the other side, a module without faults tells what stands behind the equals sign, and no
constant can be accessed there before the statement ends (`accessesConstant_of_file`).
-/

namespace BslLint.Grammar

open BslLint.Parser

variable {inner : Parser} {a e : Token} {vs us : List Token} {cs : List Tree}

/-! ### The end of a statement -/

theorem exists_of_atBoundary {ts : List Token} (h : atBoundary ts = true) :
    ts = [] ∨ ∃ t vs, ts = t :: vs ∧ t.kind ∈ endKinds := by
  rw [atBoundary, Bool.or_eq_true, Bool.or_eq_true] at h
  obtain (hnil | hblock) | hsub := h
  · exact .inl (List.isEmpty_iff.1 hnil)
  · obtain ⟨t, vs, rfl, ht⟩ := exists_of_isAtAny hblock
    refine .inr ⟨t, vs, rfl, ?_⟩
    simp only [endKinds, List.mem_cons, ht, or_true]
  · obtain ⟨t, vs, rfl, ht⟩ := exists_of_isAtAny hsub
    refine .inr ⟨t, vs, rfl, ?_⟩
    revert ht
    generalize t.kind = k
    revert k
    decide

/-- Behind a statement a sign comes that ends one, unless nothing does. -/
theorem exists_of_statementEnd (h : statementEnd.Reads us cs vs) :
    us = [] ∨ ∃ t ws, us = t :: ws ∧ t.kind ∈ endKinds := by
  cases hsemicolon : isAt .semicolon us with
  | true =>
    obtain ⟨t, ws, rfl, ht⟩ := isAt_iff.1 hsemicolon
    exact .inr ⟨t, ws, rfl, by rw [ht]; exact List.mem_cons_self⟩
  | false =>
    rw [statementEnd, reads_ifAhead_neg hsemicolon] at h
    cases hboundary : atBoundary us with
    | true => exact exists_of_atBoundary hboundary
    | false => exact absurd ((reads_ifAhead_neg hboundary).1 h) not_reads_missing

theorem reads_statementEnd {s : Token} (hs : s.kind = .semicolon) (us : List Token) :
    statementEnd.Reads (s :: us) [.leaf s] us :=
  (reads_ifAhead_pos (isAt_iff.2 ⟨s, us, rfl, hs⟩)).2 (reads_one_cons.2 ⟨rfl, rfl⟩)

/-! ### Statements -/

theorem reads_assignment (he : e.kind = .equal) : assignment.Reads (a :: e :: vs) cs us ↔
    ∃ ds, expression.Reads vs ds us ∧
      cs = [.node .assignment (.node .lValue [.leaf a] :: .leaf e :: ds)] := by
  have hcall : isAt .leftParen (e :: vs) = false := by rw [isAt_cons, he]; rfl
  have haccess : isAtAny [.dot, .leftBracket] (e :: vs) = false := by rw [isAtAny_cons, he]; rfl
  have hhead : (identifierHead expression).Reads (a :: e :: vs) [.leaf a] (e :: vs) := by
    rw [reads_identifierHead, if_neg (Bool.eq_false_iff.1 hcall)]
    exact ⟨rfl, rfl⟩
  have hmodifiers : (modifiers expression).Reads (e :: vs) [] (e :: vs) := .many_nil haccess
  have hname := (hhead.seq hmodifiers).node .lValue
  rw [assignment, reads_node]
  constructor
  · rintro ⟨_, h, rfl⟩
    obtain ⟨ds, hds, rfl⟩ := (hname.seq (.expect he vs)).seq_iff.1 h
    exact ⟨ds, hds, rfl⟩
  · rintro ⟨ds, hds, rfl⟩
    exact ⟨_, (hname.seq (.expect he vs)).seq_iff.2 ⟨ds, hds, rfl⟩, rfl⟩

/-- A statement that begins with an identifier is an assignment or a call. -/
theorem statement_identifier (ha : a.kind = .identifier) : statement inner (a :: vs) =
    node .statement (ifAhead (assignmentAhead 0) assignment callStatement ++ statementEnd)
      (a :: vs) := by
  have hlabel : (isAt .tilde (a :: vs) && look 2 (a :: vs) == some .colon) = false := by
    rw [isAt_cons, ha]
    rfl
  have hbody : statementBody inner (a :: vs) =
      (ifAhead (assignmentAhead 0) assignment callStatement ++ statementEnd) (a :: vs) := by
    rw [statementBody, select, show peek (a :: vs) = some .identifier from congrArg some ha]
  rw [statement, node, ifAhead_neg hlabel, hbody]
  rfl

/-- A statement that begins like an assignment is one. -/
theorem reads_statement_assignment (ha : a.kind = .identifier) (he : e.kind = .equal) :
    (statement inner).Reads (a :: e :: vs) cs us ↔
    ∃ ds ws es, expression.Reads vs ds ws ∧ statementEnd.Reads ws es us ∧
      cs = [.node .statement
        (.node .assignment (.node .lValue [.leaf a] :: .leaf e :: ds) :: es)] := by
  have hassignment : assignmentAhead 0 (a :: e :: vs) = true := by
    simp only [assignmentAhead, ha, he, BEq.rfl, Bool.true_or]
  rw [reads_congr (statement_identifier ha), reads_node]
  constructor
  · rintro ⟨_, h, rfl⟩
    obtain ⟨_, es, ws, hassign, hes, rfl⟩ := reads_seq.1 h
    obtain ⟨ds, hread, rfl⟩ := (reads_assignment he).1 ((reads_ifAhead_pos hassignment).1 hassign)
    exact ⟨ds, ws, es, hread, hes, rfl⟩
  · rintro ⟨ds, ws, es, hds, hes, rfl⟩
    have hassign :
        (ifAhead (assignmentAhead 0) assignment callStatement).Reads (a :: e :: vs) _ ws :=
      (reads_ifAhead_pos hassignment).2 ((reads_assignment he).2 ⟨ds, hds, rfl⟩)
    exact ⟨_, hassign.seq hes, rfl⟩

/-! ### Modules -/

theorem afterDirectives_identifier (ha : a.kind = .identifier) :
    afterDirectives (a :: vs) = a :: vs := by
  rw [afterDirectives, if_neg (by simp [ha])]

theorem atSub_identifier (ha : a.kind = .identifier) : atSub (a :: vs) = false := by
  rw [atSub, afterDirectives_identifier ha, isAtAny_cons, ha]
  rfl

/-- No variables are declared, so a module that begins with an identifier is its runs. -/
theorem reads_file_identifier (ha : a.kind = .identifier) :
    file.Reads (a :: vs) cs us ↔ (node .file runs).Reads (a :: vs) cs us := by
  have hvar : atModuleVar (a :: vs) = false := by
    rw [atModuleVar, afterDirectives_identifier ha, isAt_cons, ha]
    rfl
  have hnone : (when atModuleVar (node .moduleVars (many atModuleVar moduleVar))).Reads
      (a :: vs) [] (a :: vs) := (reads_when_neg hvar).2 ⟨rfl, rfl⟩
  rw [file, reads_node, reads_node]
  constructor
  · rintro ⟨ds, h, rfl⟩
    obtain ⟨es, hes, hds⟩ := hnone.seq_iff.1 h
    exact ⟨es, hes, by rw [hds, List.nil_append]⟩
  · rintro ⟨ds, h, rfl⟩
    exact ⟨ds, hnone.seq_iff.2 ⟨ds, h, rfl⟩, rfl⟩

theorem runs_of_code {ts : List Token} (hts : ts ≠ []) (hsub : atSub ts = false) :
    runs ts = (fileCodeBlock ts).andThen (runsFrom true (fileCodeBlock ts).rest) := by
  have hrun : run ts = fileCodeBlock ts := ifAhead_neg hsub
  rw [runs, runsFrom, if_neg (by rwa [List.isEmpty_iff]), hrun, hsub]
  exact if_pos (progress_fileCodeBlock hts hsub)

/-- A run of code that is read to the end is the last. -/
theorem reads_runs_of_code {ts : List Token} (hts : ts ≠ []) (hsub : atSub ts = false)
    (h : fileCodeBlock.Reads ts cs []) : runs.Reads ts cs [] := by
  obtain ⟨rfl, hfaults, hrest⟩ := h
  have hlast : ∀ us : List Token, us = [] → (runsFrom true us).trees = [] ∧
      (runsFrom true us).faults = [] := by
    rintro us rfl
    rw [runsFrom]
    exact ⟨rfl, rfl⟩
  obtain ⟨htrees, hnone⟩ := hlast _ hrest
  rw [Reads, runs_of_code hts hsub]
  refine ⟨?_, ?_, rest_runsFrom true (fileCodeBlock ts).rest⟩
  · show (fileCodeBlock ts).trees ++ (runsFrom true (fileCodeBlock ts).rest).trees = _
    rw [htrees, List.append_nil]
  · show (fileCodeBlock ts).faults ++ (runsFrom true (fileCodeBlock ts).rest).faults = []
    rw [hfaults, hnone, List.append_nil]

/-- **A statement that begins with an identifier is a module.** -/
theorem reads_file_statement (ha : a.kind = .identifier) {t : Tree}
    (h : (statement block).Reads (a :: vs) [t] []) :
    file.Reads (a :: vs) [.node .file [.node .fileCodeBlock [.node .codeBlock [t]]]] [] := by
  have hahead : (!(a :: vs).isEmpty && !atSub (a :: vs)) = true := by
    rw [atSub_identifier ha]
    rfl
  have hblock : fileCodeBlock.Reads (a :: vs) _ [] :=
    ((Reads.many_cons hahead h (Nat.succ_pos _) (.many_nil rfl)).node .codeBlock).node _
  exact (reads_file_identifier ha).2
    ((reads_runs_of_code (List.cons_ne_nil _ _) (atSub_identifier ha) hblock).node _)

/-- In a module without faults that begins with an identifier the first statement has none. -/
theorem faults_statement_of_file (ha : a.kind = .identifier) (h : (file (a :: vs)).faults = []) :
    (statement block (a :: vs)).faults = [] := by
  have hruns := (reads_file_identifier ha).1 (reads_of_faults_eq_nil h)
  have hcode : (fileCodeBlock (a :: vs)).faults = [] := by
    have hfaults : (runs (a :: vs)).faults = [] := hruns.2.1
    rw [runs_of_code (List.cons_ne_nil _ _) (atSub_identifier ha)] at hfaults
    exact (List.append_eq_nil_iff.1 hfaults).1
  refine faults_eq_nil_of_many ?_ hcode
  rw [atSub_identifier ha]
  rfl

/-- The tree of a module that is one assignment, with the tree `t` on the right. -/
def assignmentTree (a e : Token) (t : Tree) (s : Token) : Tree :=
  .node .file [.node .fileCodeBlock [.node .codeBlock [.node .statement
    [.node .assignment [.node .lValue [.leaf a], .leaf e, t], .leaf s]]]]

/-- **An assignment is a module.** -/
theorem reads_file_assignment (ha : a.kind = .identifier) (he : e.kind = .equal) {w : List Token}
    {t : Tree} (h : Derives .expression w [t]) {s : Token} (hs : s.kind = .semicolon) :
    file.Reads (a :: e :: (w ++ [s])) [assignmentTree a e t s] [] := by
  have hends : Part.expression.Ends [s] := by
    refine avoids_cons.2 ?_
    rw [hs]
    decide
  exact reads_file_statement ha ((reads_statement_assignment ha he).2
    ⟨[t], [s], [.leaf s], h.reads [s] hends, reads_statementEnd hs [], rfl⟩)

/-- **In a module without faults an expression stands behind the equals sign**, up to the end of the
statement. -/
theorem exists_derives_of_file (ha : a.kind = .identifier) (he : e.kind = .equal)
    (h : (file (a :: e :: vs)).faults = []) : ∃ w us cs, vs = w ++ us ∧
      Derives .expression w cs ∧ (us = [] ∨ ∃ t ws, us = t :: ws ∧ t.kind ∈ endKinds) := by
  obtain ⟨ds, us, es, hread, hend, -⟩ := (reads_statement_assignment ha he).1
    (reads_of_faults_eq_nil (faults_statement_of_file ha h))
  obtain ⟨w, rfl, hw⟩ := exists_derives_of_reads hread
  exact ⟨w, us, ds, rfl, hw, exists_of_statementEnd hend⟩

/-- **In a module without faults no constant is accessed behind the equals sign.** -/
theorem accessesConstant_of_file (ha : a.kind = .identifier) (he : e.kind = .equal)
    (h : (file (a :: e :: vs)).faults = []) :
    accessesConstant false (vs.map (·.kind)) = false := by
  obtain ⟨w, us, cs, rfl, hw, hend⟩ := exists_derives_of_file ha he h
  -- Where the statement ends nothing is accessed, and no constant before the next statement.
  have hnone : beginsWithAccess (us.map (·.kind)) = false ∧
      accessesConstant false (us.map (·.kind)) = false := by
    obtain rfl | ⟨t, ws, rfl, ht⟩ := hend
    · exact ⟨rfl, rfl⟩
    · have haccess : ∀ k ∈ endKinds, accessKinds.contains k = false := by decide
      exact ⟨haccess _ ht, accessesConstant_end ht⟩
  rw [List.map_append, hw.accessesConstant_append fun _ ↦ hnone.1, hnone.2]

end BslLint.Grammar
