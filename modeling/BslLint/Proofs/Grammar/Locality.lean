import BslLint.Proofs.Grammar.Rules

/-!
# Reading does not depend on what comes later

A parser is `Local` if what it reads without a fault, up to a token that is left, it reads in the
same way when the text breaks off behind that token. Inside of procedures every parser is local
(`closed_local`): its choices are settled by what is read, and where the next token decides, there
is one.

In front of procedures stand annotations, and what is annotated is found by looking past them. To
the token behind them it is the same whatever follows that token
(`exists_of_reads_compilerDirectives`).
-/

namespace BslLint

namespace Parser

variable {p q : Parser} {ahead : List Token → Bool}

/-- What is read without a fault up to a token that is left, is read in the same way when the text
breaks off behind that token. -/
def Local (p : Parser) : Prop :=
  ∀ ⦃x y r : List Token⦄ ⦃cs : List Tree⦄, r ≠ [] → p.Reads (x ++ y) cs (r ++ y) → p.Reads x cs r

theorem local_one : Local one := by
  intro x y r cs hr h
  cases x with
  | nil => exact absurd rfl (h.ne_nil hr)
  | cons t x =>
    rw [List.cons_append, reads_one_cons] at h
    rw [reads_one_cons]
    exact ⟨h.1, List.append_cancel_right h.2⟩

/-- The second parser has left a token, so the first one has left as many. -/
theorem local_seq (hp : Local p) (hq : Local q) : Local (p ++ q) := by
  intro x y r cs hr h
  obtain ⟨ds, es, vs, hfirst, hsecond, rfl⟩ := reads_seq.1 h
  have hle := hsecond.length_le
  rw [List.length_append] at hle
  obtain ⟨z, rfl, -⟩ := exists_eq_append hfirst.tokens_append.symm (by omega)
  have hz : z ≠ [] := by
    rintro rfl
    have hpos := List.length_pos_iff.2 hr
    rw [List.nil_append] at hle
    omega
  exact (hp hz hfirst).seq (hq hr hsecond)

theorem local_node (hp : Local p) (k : NodeKind) : Local (node k p) := by
  intro x y r cs hr h
  obtain ⟨ds, hread, rfl⟩ := reads_node.1 h
  exact (hp hr hread).node k

theorem local_ifAhead (hahead : Settled ahead p q) (hp : Local p) (hq : Local q) :
    Local (ifAhead ahead p q) := by
  intro x y r cs hr h
  have hsame := hahead hr h
  cases hx : ahead x with
  | true =>
    rw [hx] at hsame
    exact (reads_ifAhead_pos hx).2 (hp hr ((reads_ifAhead_pos hsame).1 h))
  | false =>
    rw [hx] at hsame
    exact (reads_ifAhead_neg hx).2 (hq hr ((reads_ifAhead_neg hsame).1 h))

theorem local_nothing : Local nothing := by
  intro x y r cs _ h
  obtain ⟨rfl, hrest⟩ := reads_nothing.1 h
  exact reads_nothing.2 ⟨rfl, List.append_cancel_right hrest⟩

theorem local_select {choice : Option Token.Kind → Parser}
    (hc : ∀ k, Local (ifAhead (peek · == k) (choice k) nothing)) : Local (select choice) := by
  intro x y r cs hr h
  have hpeek := peek_append (h.ne_nil hr) y
  have hat : (peek (x ++ y) == peek x) = true := by
    rw [hpeek]
    exact beq_self_eq_true _
  rw [reads_select, hpeek] at h
  have hread := hc (peek x) hr ((reads_ifAhead_pos hat).2 h)
  rwa [reads_ifAhead_pos (beq_self_eq_true (peek x))] at hread

/-- A round either ends the repetition or leaves tokens for the next one. -/
theorem local_many (hahead : Near ahead) (hp : Local p) : Local (many ahead p) := by
  intro x y r cs hr h
  obtain ⟨rfl, hfaults, hrest⟩ := h
  have hsame {x r : List Token} {s : Step (x ++ y)} (hr : r ≠ []) (hrest : s.rest = r ++ y) :
      ahead (x ++ y) = ahead x := by
    refine hahead (peek_append ?_ y)
    rintro rfl
    have hle := s.length_rest_le
    have hpos := List.length_pos_iff.2 hr
    rw [hrest, List.length_append, List.length_append, List.length_nil] at hle
    omega
  -- The induction is on the rounds over the long text, of which `x` is what comes before `y`.
  refine many_induction (motive := fun ts s ↦ ∀ x : List Token, ts = x ++ y → s.faults = [] →
    s.rest = r ++ y → (many ahead p).Reads x s.trees r) (fun ts hstop ↦ ?_)
    (fun ts hgo hstall ↦ ?_) (fun ts hgo hlt ih ↦ ?_) (x ++ y) x rfl hfaults hrest
  · rintro x rfl - hrest
    obtain rfl : x = r := List.append_cancel_right hrest
    exact .many_nil ((hsame (s := .start _) hr rfl).symm.trans hstop)
  · rintro x rfl hfaults hrest
    have hread : p.Reads x _ r := hp hr ⟨rfl, hfaults, hrest⟩
    have hlong : ¬(p x).rest.length < x.length := by
      rw [hrest, List.length_append, List.length_append] at hstall
      rw [hread.2.2]
      omega
    rwa [Reads, many_of_stall ((hsame hr hrest).symm.trans hgo) hlong]
  · rintro x rfl hfaults hrest
    obtain ⟨hfirst, hothers⟩ := List.append_eq_nil_iff.1 hfaults
    -- The later rounds leave `r`, so this one has not gone into `y` either.
    have hle := (many ahead p (p (x ++ y)).rest).length_rest_le
    rw [show (many ahead p (p (x ++ y)).rest).rest = r ++ y from hrest, List.length_append] at hle
    obtain ⟨z, hz, -⟩ := exists_eq_append (p (x ++ y)).tokens_append_rest.symm (by omega)
    rw [hz, List.length_append, List.length_append] at hlt
    rw [hz, List.length_append] at hle
    have hzr : z ≠ [] := by
      have hpos := List.length_pos_iff.2 hr
      exact List.length_pos_iff.1 (by omega)
    exact .many_cons ((hsame hzr hz).symm.trans hgo) (hp hzr ⟨rfl, hfirst, hz⟩) (by omega)
      (ih z hz hothers hrest)

theorem local_fix {f : Parser → Parser}
    (hf : ∀ (p q : Parser) (ts : List Token), AgreeBelow ts.length p q → f p ts = f q ts)
    (hstep : ∀ q, Local q → Local (f q)) : Local (fix f) := by
  have hnested : ∀ depth, Local (nested f depth) := by
    intro depth
    induction depth with
    | zero => exact hstep _ local_nothing
    | succ depth ih => exact hstep _ ih
  intro x y r cs hr h
  have hread := hnested (x ++ y).length hr h
  rwa [reads_congr (nested_eq hf (Nat.le_trans (Nat.le_add_right _ _)
    (Nat.le_of_eq List.length_append.symm)) (Nat.le_refl _))] at hread

/-- **Inside of procedures every parser is local.** -/
theorem closed_local : Closed Local where
  nothing := local_nothing
  one := local_one
  missing _ _ _ _ _ _ h := absurd h not_reads_missing
  seq := local_seq
  node _ hp := local_node hp _
  error _ hp := local_node hp _
  typeName := local_ifAhead ((near_isAt _).settled _ _) (local_node local_one _) local_nothing
  select := local_select
  ifAhead _ := local_ifAhead
  many := local_many
  fix := local_fix

end Parser

namespace Grammar

open BslLint.Parser

theorem local_expression : Local expression :=
  closed_expression closed_local fun hp ↦ local_node hp _

/-! ### Annotations -/

/-- Behind an annotation that was read come no arguments that were not. -/
theorem exists_of_reads_directive {d : Token} {ts us : List Token} {cs : List Tree}
    (hd : d.kind = .directive)
    (h : (node .compilerDirective (one ++ when (isAt .leftParen) (doCall expression))).Reads
      (d :: ts) cs us) :
    ∃ w, ts = w ++ us ∧ ∀ k, (w = [] → peek k = peek us) →
      afterDirectives (d :: (w ++ k)) = afterDirectives k := by
  obtain ⟨ds, hread, rfl⟩ := reads_node.1 h
  obtain ⟨es, fs, vs, hone, hcall, rfl⟩ := reads_seq.1 hread
  obtain ⟨rfl, rfl⟩ := reads_one_cons.1 hone
  obtain ⟨w, rfl, hw⟩ := sound_callOrNone (sound_expression _) (Nat.lt_succ_self _) hcall
  refine ⟨w, rfl, fun k hk ↦ hw.afterDirectives_cons hd fun hnil ↦ ?_⟩
  rw [near_isAt _ (hk hnil), Bool.eq_false_iff]
  intro hparen
  -- Arguments that stood there would have been read, and no tokens were.
  subst hnil
  obtain ⟨l, r, vs, _, -, -, hvs, hread, -⟩ := reads_doCall.1 ((reads_when_pos hparen).1 hcall)
  obtain rfl : us = l :: vs := hvs
  have hle := hread.length_le
  simp only [List.length_cons] at hle
  omega

/-- Annotations are passed over to the token behind them, whatever follows that token. -/
theorem exists_of_reads_compilerDirectives {ts us : List Token} {cs : List Tree}
    (h : compilerDirectives.Reads ts cs us) :
    ∃ w, ts = w ++ us ∧ ∀ k, peek k = peek us → afterDirectives (w ++ k) = k := by
  obtain ⟨-, hfaults, hrest⟩ := h
  -- The induction is on the rounds of the loop, each of which reads one annotation.
  refine many_induction (motive := fun ts s ↦ s.faults = [] → s.rest = us → ∃ w, ts = w ++ us ∧
    ∀ k, peek k = peek us → afterDirectives (w ++ k) = k) (fun ts hstop _ hrest ↦ ?_)
    (fun ts hgo hstall ↦ ?_) (fun ts hgo _ ih hfaults hrest ↦ ?_) ts hfaults hrest
  · obtain rfl : ts = us := hrest
    -- A round reads the word of the annotation, so it does not stall.
    exact ⟨[], rfl, fun k hk ↦ afterDirectives_of_not ((near_isAt _ hk).trans hstop)⟩
  · obtain ⟨d, vs, rfl, -⟩ := isAt_iff.1 hgo
    exact absurd (((progress_one (List.cons_ne_nil d vs)).seq _).node _) hstall
  · obtain ⟨d, vs, rfl, hd⟩ := isAt_iff.1 hgo
    obtain ⟨hfirst, hothers⟩ := List.append_eq_nil_iff.1 hfaults
    obtain ⟨w, hw, hall⟩ := ih hothers hrest
    obtain ⟨u, hu, hskip⟩ := exists_of_reads_directive hd (reads_of_faults_eq_nil hfirst)
    rw [hw] at hu hskip
    refine ⟨d :: (u ++ w), ?_, fun k hk ↦ ?_⟩
    · rw [hu, List.cons_append, List.append_assoc]
    · rw [List.cons_append, List.append_assoc, hskip, hall k hk]
      intro _
      cases w with
      | nil => exact hk
      | cons t w => rfl

end Grammar

end BslLint
