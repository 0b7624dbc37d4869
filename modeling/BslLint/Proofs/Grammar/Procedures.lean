import BslLint.Proofs.Grammar.Coverage
import BslLint.Proofs.Grammar.Files
import BslLint.Proofs.Grammar.Locality

/-!
# Procedures stand on their own

A procedure ends with a word of its own, so what is read of it before that word does not depend on
anything behind the procedure (`reads_sub_alone`). Hence the tokens of a procedure are a file with
that procedure in it and nothing else (`IsSub.reads_file`), and where a file was read without a
fault, this holds of all its procedures (`everywhere_isSub`).
-/

namespace BslLint

namespace Grammar

open BslLint.Parser

/-! ### Without what stands behind -/

variable {x y : List Token} {kind : NodeKind} {word : Token.Kind} {cs : List Tree} {s : Tree}

/-- A procedure is read in the same way without what stands behind it. -/
theorem reads_subBody_alone
    (h : (subDeclaration kind ++ subCodeBlock ++ expect word).Reads (x ++ y) cs y) :
    (subDeclaration kind ++ subCodeBlock ++ expect word).Reads x cs [] := by
  obtain ⟨ds, es, vs, hbody, hend, rfl⟩ := reads_seq.1 h
  obtain ⟨e, he, rfl, rfl⟩ := reads_expect.1 hend
  have hlocal : Local (subDeclaration kind ++ subCodeBlock) :=
    closed_subBody closed_local local_expression fun hp ↦ local_node hp _
  exact (hlocal (r := [e]) (List.cons_ne_nil e []) hbody).seq (.expect he [])

/-- What is annotated is the same without what stands behind the procedure. -/
theorem near_afterDirectives {ahead : List Token → Bool} (hahead : Near ahead)
    (h : (subDeclaration kind ++ subCodeBlock ++ expect word).Reads (x ++ y) cs y) :
    ahead (afterDirectives (x ++ y)) = ahead (afterDirectives x) := by
  obtain ⟨_, _, vs, hbody, hend, -⟩ := reads_seq.1 h
  obtain ⟨e, -, rfl, -⟩ := reads_expect.1 hend
  obtain ⟨_, _, us, hdeclaration, hblock, -⟩ := reads_seq.1 hbody
  obtain ⟨_, hdeclaration, -⟩ := reads_node.1 hdeclaration
  simp only [reads_seq] at hdeclaration
  obtain ⟨_, _, _, ⟨_, _, _, ⟨_, _, _, ⟨_, _, ws, hdirectives, hword, -⟩, hname, -⟩, hparams, -⟩,
    hexport, -⟩ := hdeclaration
  obtain ⟨w, hw, hskip⟩ := exists_of_reads_compilerDirectives hdirectives
  -- The word that was found stands before all that was read behind it.
  have hle : (e :: y).length ≤ ws.length :=
    calc (e :: y).length ≤ us.length := hblock.length_le
      _ ≤ _ := hexport.length_le
      _ ≤ _ := hparams.length_le
      _ ≤ _ := hname.length_le
      _ ≤ ws.length := hword.length_le
  rw [List.length_cons] at hle
  obtain ⟨z, rfl, rfl⟩ := exists_eq_append hw (by omega)
  have hz : z ≠ [] := by
    rintro rfl
    rw [List.nil_append] at hle
    omega
  have hpeek := peek_append hz y
  rw [List.append_assoc, hskip _ rfl, hskip z hpeek.symm, hahead hpeek]

theorem reads_branch_alone {k : NodeKind}
    (h : (node k (subDeclaration kind ++ subCodeBlock ++ expect word)).Reads (x ++ y) cs y) :
    (node k (subDeclaration kind ++ subCodeBlock ++ expect word)).Reads x cs [] ∧
      ∀ {ahead : List Token → Bool}, Near ahead →
        ahead (afterDirectives (x ++ y)) = ahead (afterDirectives x) := by
  obtain ⟨ds, hbody, rfl⟩ := reads_node.1 h
  exact ⟨(reads_subBody_alone hbody).node k, fun hahead ↦ near_afterDirectives hahead hbody⟩

/-- **A procedure that was read is read in the same way on its own.** -/
theorem reads_sub_alone (h : sub.Reads (x ++ y) cs y) : sub.Reads x cs [] ∧
    ∀ {ahead : List Token → Bool}, Near ahead →
      ahead (afterDirectives (x ++ y)) = ahead (afterDirectives x) := by
  obtain ⟨ds, hread, rfl⟩ := reads_node.1 h
  cases hfunction : isAt (.keyword .function) (afterDirectives (x ++ y)) with
  | true =>
    rw [reads_ifAhead_pos (by exact hfunction)] at hread
    obtain ⟨halone, hsame⟩ := reads_branch_alone hread
    rw [hsame (near_isAt _)] at hfunction
    exact ⟨Reads.node ((reads_ifAhead_pos (by exact hfunction)).2 halone) _, hsame⟩
  | false =>
    rw [reads_ifAhead_neg (by exact hfunction)] at hread
    obtain ⟨halone, hsame⟩ := reads_branch_alone hread
    rw [hsame (near_isAt _)] at hfunction
    exact ⟨Reads.node ((reads_ifAhead_neg (by exact hfunction)).2 halone) _, hsame⟩

/-! ### Alone -/

/-- The tree stands for a procedure or a function that was read in front of some text. -/
def IsSub (t : Tree) : Prop := ∃ k, atSub (t.tokens ++ k) = true ∧ sub.Reads (t.tokens ++ k) [t] k

theorem IsSub.atSub_tokens (h : IsSub s) : atSub s.tokens = true := by
  obtain ⟨k, hat, hread⟩ := h
  exact ((reads_sub_alone hread).2 (near_isAtAny _)).symm.trans hat

theorem IsSub.tokens_ne_nil (h : IsSub s) : s.tokens ≠ [] := by
  intro hnil
  have hat := h.atSub_tokens
  rw [hnil, atSub, afterDirectives] at hat
  exact Bool.false_ne_true hat

/-- **The file that consists of a procedure** has that procedure and no code. -/
theorem IsSub.reads_file (h : IsSub s) :
    file.Reads s.tokens [.node .file [.node .subs [s], noCode]] [] := by
  have hsub := h.atSub_tokens
  have hne := h.tokens_ne_nil
  obtain ⟨k, -, hread⟩ := h
  obtain ⟨halone, -⟩ := reads_sub_alone hread
  -- What begins like a procedure does not begin like a variable, since annotations are shared.
  have hvar : atModuleVar s.tokens = false := by
    rw [atSub] at hsub
    obtain ⟨t, vs, hvs, ht⟩ := exists_of_isAtAny hsub
    rw [atModuleVar, hvs, isAt_cons, beq_eq_false_iff_ne]
    intro hvar
    rw [hvar] at ht
    exact absurd ht (by decide)
  have hnil : atSub [] = false := by
    rw [atSub, afterDirectives]
    rfl
  have hlength : ([] : List Token).length < s.tokens.length := List.length_pos_iff.2 hne
  have hruns : Reads (runsFrom false) s.tokens [.node .subs [s], noCode] [] :=
    reads_runsFrom_subs hsub (.many_cons hsub halone hlength (.many_nil hnil)) hlength
      (reads_runsFrom_nil false)
  exact (((reads_when_neg hvar).2 ⟨rfl, rfl⟩).seq hruns).node _

/-! ### In files -/

/-- Procedures are read where they are declared, and only there. -/
theorem invariant_isSub : Invariant (· ≠ .sub) fun cs fs ↦
    fs = [] → Tree.Everywhere (fun t ↦ t.kind = .sub → IsSub t) cs :=
  (invariant_everywhere (fun _ ↦ nofun) fun hk h ↦ absurd h hk).withoutFaults

/-- **Where a file was read without a fault, its procedures stand on their own.** -/
theorem everywhere_isSub {ts : List Token} (h : (file ts).faults = []) :
    Tree.Everywhere (fun t ↦ t.kind = .sub → IsSub t) (file ts).trees := by
  have hord : ∀ k, isOrdinary k = true → k ≠ .sub := by
    rintro k hk rfl
    exact Bool.false_ne_true hk
  have hclosed := invariant_isSub.fullyClosed_of_admitted hord nofun nofun
  have hexpr := closed_expression hclosed.toClosed (invariant_isSub.keeps_node nofun)
  -- Only a procedure that was read without a fault is known to stand on its own.
  have hsub : Keeps (fun cs fs ↦ fs = [] → Tree.Everywhere (fun t ↦ t.kind = .sub → IsSub t) cs)
      (when atSub sub) := by
    intro ts hfaults
    cases hat : atSub ts with
    | false =>
      rw [when, ifAhead_neg hat]
      exact .nil
    | true =>
      rw [when, ifAhead_pos hat] at hfaults ⊢
      have hread := reads_of_faults_eq_nil hfaults
      refine .node (fun _ ↦ ⟨(sub ts).rest, ?_⟩)
        (closed_procedure_or_function hclosed hexpr ts hfaults)
      have htokens := hread.tokens_append
      rw [show (sub ts).trees = [_] from rfl, Tree.tokensAll, Tree.tokensAll,
        List.append_nil] at htokens
      rw [htokens]
      exact ⟨hat, hread⟩
  exact .node (by rintro ⟨⟩) (keeps_moduleVars_runs invariant_isSub hclosed hexpr hsub ts h)

end Grammar

end BslLint
