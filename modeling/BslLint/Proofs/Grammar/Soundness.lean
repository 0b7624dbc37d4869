import BslLint.Proofs.Grammar.Completeness

/-!
# What is read is derived

What the parser for expressions reads without a fault is derived (`exists_derives_of_reads`). The
induction is on the number of tokens, because a run of the parser has no other structure, with one
lemma for each rule. A rule that reads a token of its own first may use expressions of all its
shorter rests; this is where the bound goes up by one.
-/

namespace BslLint.Grammar

open BslLint.Parser

/-- What the parser of the part reads of fewer than `n` tokens is derived. -/
def Sound (n : Nat) (p : Part) : Prop :=
  ∀ ⦃ts cs us⦄, ts.length < n → p.parser.Reads ts cs us → ∃ w, ts = w ++ us ∧ Derives p w cs

/-- The name of a type is one identifier, if there is one. -/
theorem sound_typeName (n : Nat) : Sound n .typeName := by
  intro ts cs us _ h
  cases hahead : isAt .identifier ts with
  | true =>
    obtain ⟨t, vs, rfl, ht⟩ := isAt_iff.1 hahead
    obtain ⟨_, hone, rfl⟩ := reads_node.1 ((reads_when_pos hahead).1 h)
    obtain ⟨rfl, rfl⟩ := reads_one_cons.1 hone
    exact ⟨[t], rfl, .typeName_some ht⟩
  | false =>
    obtain ⟨rfl, rfl⟩ := (reads_when_neg hahead).1 h
    exact ⟨[], rfl, .typeName_none⟩

/-- A repetition that takes one token a round has read a list of tokens. -/
theorem leaves_of_reads {ahead : List Token → Bool} {rule : Parser} (tree : Token → Tree)
    {P : Token → Prop} {ts us : List Token} {cs : List Tree}
    (hahead : ∀ ts, ahead ts = true → ∃ t vs, ts = t :: vs ∧ P t)
    (hrule : ∀ {t vs cs us}, rule.Reads (t :: vs) cs us → cs = [tree t] ∧ us = vs)
    (h : (many ahead rule).Reads ts cs us) :
    ∃ w, ts = w ++ us ∧ cs = w.map tree ∧ ∀ t ∈ w, P t := by
  refine h.many_elim (R := fun w cs ↦ cs = w.map tree ∧ ∀ t ∈ w, P t)
    (S := fun w cs ↦ ∃ t, w = [t] ∧ cs = [tree t] ∧ P t) ⟨rfl, nofun⟩ ?_ ?_ (Nat.lt_succ_self _)
  · rintro _ v _ ds ⟨t, rfl, rfl, ht⟩ ⟨rfl, hv⟩
    exact ⟨rfl, List.forall_mem_cons.2 ⟨ht, hv⟩⟩
  · intro ts cs us _ hts hread
    obtain ⟨t, vs, rfl, ht⟩ := hahead ts hts
    obtain ⟨rfl, rfl⟩ := hrule hread
    exact ⟨[t], rfl, t, rfl, rfl, ht⟩

/-- Where one of several kinds is ahead, there is a token of one of them. -/
theorem exists_of_isAtAny {kinds : List Token.Kind} {ts : List Token}
    (h : isAtAny kinds ts = true) : ∃ t vs, ts = t :: vs ∧ t.kind ∈ kinds := by
  cases ts with
  | nil => exact nomatch h
  | cons t vs =>
    rw [isAtAny_cons, List.contains_eq_mem, decide_eq_true_iff] at h
    exact ⟨t, vs, rfl, h⟩

/-- A constant is one token, or several strings. -/
theorem sound_constValue {t : Token} {ts us : List Token} {cs : List Tree}
    (ht : isConstant t.kind = true) (h : (constValue false).Reads (t :: ts) cs us) :
    ∃ w, t :: ts = w ++ us ∧ Derives .value w cs := by
  obtain ⟨_, hseq, rfl⟩ := reads_node.1 h
  obtain ⟨_, ds, ws, hunsigned, hread, rfl⟩ := reads_seq.1 hseq
  obtain ⟨rfl, rfl⟩ := (reads_when_neg rfl).1 hunsigned
  by_cases hstring : t.kind = .stringLiteral
  · replace hread : (many (isAt .stringLiteral) one).Reads (t :: ts) ds us :=
      (reads_select_cons hstring).1 hread
    have hahead : isAt .stringLiteral (t :: ts) = true := isAt_iff.2 ⟨t, ts, rfl, hstring⟩
    obtain ⟨w, hw, hds, hstrings⟩ := leaves_of_reads .leaf (fun ts hts ↦ isAt_iff.1 hts)
      (fun hone ↦ reads_one_cons.1 hone) hread
    -- The first round takes a token, so at least one has been read.
    have hne : w ≠ [] := by
      rintro rfl
      have htrees := hread.1
      rw [many_of_go hahead (Nat.lt_succ_self ts.length), hds] at htrees
      exact nomatch htrees
    subst hds
    exact ⟨w, hw, .strings hne hstrings⟩
  · rw [reads_select, show peek (t :: ts) = some t.kind from rfl] at hread
    split at hread
    next hkind => exact absurd (Option.some.inj hkind) hstring
    next hkind =>
      rw [← Option.some.inj hkind, if_pos ht] at hread
      obtain ⟨rfl, rfl⟩ := reads_one_cons.1 hread
      exact ⟨[t], rfl, .constant ((isConstant_iff.1 ht).resolve_left hstring)⟩
    next hkind => exact nomatch hkind

section

variable {n : Nat} (hinner : Sound n .expression)

include hinner

/-- An argument is an expression or nothing. -/
theorem sound_argument : Sound n .argument := by
  intro ts cs us hn h
  obtain ⟨ds, hread, rfl⟩ := reads_node.1 h
  cases hahead : !isAt .comma ts && !isAt .rightParen ts with
  | true =>
    obtain ⟨w, hw, hvalue⟩ := hinner hn ((reads_when_pos hahead).1 hread)
    exact ⟨w, hw, .argument_some hvalue⟩
  | false =>
    obtain ⟨rfl, rfl⟩ := (reads_when_neg hahead).1 hread
    exact ⟨[], rfl, .argument_none⟩

/-- Behind each comma there is an argument. -/
theorem sound_arguments : Sound n .arguments := by
  intro ts cs us hn h
  refine h.many_elim (R := Derives .arguments)
    (S := fun w cs ↦ ∃ c u ds, c.kind = .comma ∧ w = c :: u ∧ cs = .leaf c :: ds ∧
      Derives .argument u ds) .arguments_nil ?_ ?_ hn
  · rintro _ v _ ds ⟨c, u, es, hc, rfl, rfl, hfirst⟩ hothers
    exact .arguments_cons hc hfirst hothers
  · intro ts cs us hn hahead h
    obtain ⟨c, vs, rfl, hc⟩ := isAt_iff.1 hahead
    obtain ⟨_, ds, _, hone, hread, rfl⟩ := reads_seq.1 h
    obtain ⟨rfl, rfl⟩ := reads_one_cons.1 hone
    obtain ⟨w, rfl, harg⟩ := sound_argument hinner (Nat.lt_of_succ_lt hn) hread
    exact ⟨c :: w, rfl, c, w, ds, hc, rfl, rfl, harg⟩

/-- The expressions in a call stand behind its parenthesis. -/
theorem sound_call : Sound (n + 1) .call := by
  intro ts cs us hn h
  obtain ⟨l, r, vs, _, hl, hr, rfl, hread, rfl⟩ := reads_doCall.1 h
  replace hn : vs.length < n := Nat.lt_of_succ_lt_succ hn
  obtain ⟨cs, ds, ws, hfirst, hothers, rfl⟩ := reads_seq.1 hread
  obtain ⟨u, rfl, hu⟩ := sound_argument hinner hn hfirst
  rw [List.length_append] at hn
  obtain ⟨v, rfl, hv⟩ := sound_arguments hinner
    (Nat.lt_of_le_of_lt (Nat.le_add_left _ _) hn) hothers
  refine ⟨l :: (u ++ (v ++ [r])), ?_, .call hl hu hv hr⟩
  simp only [List.cons_append, List.append_assoc, List.nil_append]

/-- What begins with a dot or a bracket is an access. -/
theorem sound_modifier {ts us : List Token} {cs : List Tree} (hn : ts.length < n + 1)
    (hahead : isAtAny [.dot, .leftBracket] ts = true) (h : Part.modifier.parser.Reads ts cs us) :
    ∃ w, ts = w ++ us ∧ Derives .modifier w cs := by
  cases ts with
  | nil => exact nomatch hahead
  | cons d ts =>
    replace hn : ts.length < n := Nat.lt_of_succ_lt_succ hn
    cases hdot : isAt .dot (d :: ts) with
    | true =>
      have hd : d.kind = .dot := beq_iff_eq.1 hdot
      obtain ⟨t, vs, rfl, ht, hread⟩ := reads_memberAccess.1 ((reads_ifAhead_pos hdot).1 h)
      split at hread
      · obtain ⟨ds, hcall, rfl⟩ := hread
        have hle : vs.length < n + 1 := by
          rw [List.length_cons] at hn
          omega
        obtain ⟨u, rfl, hu⟩ := sound_call hinner hle hcall
        exact ⟨d :: t :: u, rfl, .methodCall hd ht hu⟩
      · obtain ⟨rfl, rfl⟩ := hread
        exact ⟨[d, t], rfl, .property hd ht⟩
    -- What is no dot is the bracket of an index.
    | false =>
      have hd : d.kind = .leftBracket := by
        rw [isAtAny_cons, List.contains_eq_mem, decide_eq_true_iff] at hahead
        rw [isAt_cons, beq_eq_false_iff_ne] at hdot
        simpa only [List.mem_cons, hdot, List.not_mem_nil, or_false, false_or] using hahead
      obtain ⟨l, r, vs, ds, hr, hts, hread, rfl⟩ :=
        (reads_indexAccess (by simp)).1 ((reads_ifAhead_neg hdot).1 h)
      obtain ⟨rfl, rfl⟩ := List.cons.inj hts
      obtain ⟨u, rfl, hu⟩ := hinner hn hread
      refine ⟨d :: (u ++ [r]), ?_, .index hd hu hr⟩
      simp only [List.cons_append, List.append_assoc, List.nil_append]

theorem sound_modifiers : Sound (n + 1) .modifiers := fun _ _ _ hn h ↦
  h.many_elim (R := Derives .modifiers) (S := Derives .modifier) .modifiers_nil .modifiers_cons
    (fun hn hahead h ↦ sound_modifier hinner hn hahead h) hn

/-- Where no parenthesis comes, there is no call. -/
theorem sound_callOrNone : Sound (n + 1) .callOrNone := by
  intro ts cs us hn h
  cases hahead : isAt .leftParen ts with
  | true =>
    obtain ⟨w, hw, hcall⟩ := sound_call hinner hn ((reads_when_pos hahead).1 h)
    exact ⟨w, hw, .call_some hcall⟩
  | false =>
    obtain ⟨rfl, rfl⟩ := (reads_when_neg hahead).1 h
    exact ⟨[], rfl, .call_none⟩

/-- A value is named, made or chosen, as its first token says. -/
theorem sound_head {t : Token} {ts us : List Token} {cs : List Tree} (hn : ts.length < n)
    (ht : t.kind ∈ Part.head.firsts) (h : Part.head.parser.Reads (t :: ts) cs us) :
    ∃ w, t :: ts = w ++ us ∧ Derives .head w cs := by
  have hle : ts.length < n + 1 := Nat.lt_succ_of_lt hn
  simp only [Part.firsts, List.mem_cons, List.not_mem_nil, or_false] at ht
  rcases ht with ht | ht | ht
  · have hread := reads_identifierHead.1 ((reads_select_cons ht).1 h)
    split at hread
    · obtain ⟨ds, hcall, rfl⟩ := hread
      obtain ⟨u, rfl, hu⟩ := sound_call hinner hle hcall
      exact ⟨t :: u, rfl, .globalCall ht hu⟩
    · obtain ⟨rfl, rfl⟩ := hread
      exact ⟨[t], rfl, .name ht⟩
  · obtain ⟨_, vs, ws, ds, es, hts, htype, hcall, rfl⟩ :=
      (reads_newExpression (by simp)).1 ((reads_select_cons ht).1 h)
    obtain ⟨rfl, rfl⟩ := List.cons.inj hts
    -- The type may be left out, and the arguments too.
    obtain ⟨u, rfl, hu⟩ := sound_typeName n hn htype
    rw [List.length_append] at hle
    obtain ⟨v, rfl, hv⟩ := sound_callOrNone hinner
      (Nat.lt_of_le_of_lt (Nat.le_add_left _ _) hle) hcall
    refine ⟨t :: (u ++ v), ?_, .new ht hu hv⟩
    rw [List.cons_append, List.append_assoc]
  · obtain ⟨_, l, c, c', r, vs, ws, xs, ds, es, fs, hl, hc, hc', hr, hts, hcondition, hyes, hno,
      rfl⟩ := (reads_ternaryOperator (by simp)).1 ((reads_select_cons ht).1 h)
    obtain ⟨rfl, rfl⟩ := List.cons.inj hts
    rw [List.length_cons] at hn
    obtain ⟨u, rfl, hu⟩ := hinner (Nat.lt_of_succ_lt hn) hcondition
    simp only [List.length_append, List.length_cons] at hn
    obtain ⟨v, rfl, hv⟩ := hinner (by omega) hyes
    simp only [List.length_append, List.length_cons] at hn
    obtain ⟨w, rfl, hw⟩ := hinner (by omega) hno
    refine ⟨t :: l :: (u ++ c :: (v ++ c' :: (w ++ [r]))), ?_, .ternary ht hl hu hc hv hc' hw hr⟩
    simp only [List.cons_append, List.append_assoc, List.nil_append]

/-- With accesses behind it, or in parentheses, it is still a value. -/
theorem sound_value : Sound (n + 1) .value := by
  intro ts cs us hn h
  -- A name, a new object and a choice are all followed by accesses.
  have hcomplex {t : Token} {vs : List Token} (hts : ts = t :: vs) (ht : t.kind ∈ Part.head.firsts)
      (h : (complexIdentifier expression).Reads ts cs us) :
      ∃ w, ts = w ++ us ∧ Derives .value w cs := by
    subst hts
    obtain ⟨_, hread, rfl⟩ := reads_node.1 h
    obtain ⟨ds, es, ws, hhead, hmods, rfl⟩ := reads_seq.1 hread
    obtain ⟨u, hu, hd⟩ := sound_head hinner (Nat.lt_of_succ_lt_succ hn) ht hhead
    rw [hu, List.length_append] at hn
    obtain ⟨v, rfl, hv⟩ := sound_modifiers hinner
      (Nat.lt_of_le_of_lt (Nat.le_add_left _ _) hn) hmods
    exact ⟨u ++ v, by rw [hu, List.append_assoc], .complex hd hv⟩
  cases ts with
  | nil =>
    obtain ⟨_, hread, -⟩ := reads_node.1 (reads_select.1 h)
    exact absurd hread not_reads_missing
  | cons t ts =>
    replace h := reads_select.1 h
    rw [show peek (t :: ts) = some t.kind from rfl] at h
    split at h
    next ht =>
      replace ht : t.kind = .leftParen := Option.some.inj ht
      obtain ⟨_, es, ws, hread₁, hmods, rfl⟩ := reads_seq.1 h
      obtain ⟨_, _, _, hread₂, hclose, rfl⟩ := reads_seq.1 hread₁
      obtain ⟨_, ds, _, hopen, hinside, rfl⟩ := reads_seq.1 hread₂
      obtain ⟨rfl, rfl⟩ := reads_one_cons.1 hopen
      obtain ⟨r, hr, rfl, rfl⟩ := reads_expect.1 hclose
      replace hn : _ < n := Nat.lt_of_succ_lt_succ hn
      obtain ⟨u, rfl, hu⟩ := hinner hn hinside
      rw [List.length_append, List.length_cons] at hn
      obtain ⟨v, rfl, hv⟩ := sound_modifiers hinner (by omega) hmods
      refine ⟨t :: (u ++ r :: v), ?_, ?_⟩
      · simp only [List.cons_append, List.append_assoc]
      · have hd := Derives.parens ht hr hu hv
        simpa only [List.append_assoc, List.cons_append, List.nil_append] using hd
    next ht => exact hcomplex rfl (by rw [Option.some.inj ht]; decide) h
    next ht => exact hcomplex rfl (by rw [Option.some.inj ht]; decide) h
    next ht => exact hcomplex rfl (by rw [Option.some.inj ht]; decide) h
    next kind _ _ _ _ ht =>
      replace ht : t.kind = kind := Option.some.inj ht
      split at h
      next hconst => exact sound_constValue (by rwa [ht]) h
      -- What begins no value is reported as missing, and nothing that was read holds a fault.
      next =>
        obtain ⟨_, hread, -⟩ := reads_node.1 h
        exact absurd hread not_reads_missing
    next ht => exact nomatch ht

/-- Signs in front make a member of it. -/
theorem sound_member : Sound (n + 1) .member := by
  intro ts cs us hn h
  obtain ⟨_, hread, rfl⟩ := reads_node.1 h
  obtain ⟨ds, es, ws, hmany, hvalue, rfl⟩ := reads_seq.1 hread
  obtain ⟨u, rfl, rfl, hu⟩ := leaves_of_reads unaryTree (fun _ hts ↦ exists_of_isAtAny hts)
    (fun hunary ↦ by
      obtain ⟨_, hone, rfl⟩ := reads_node.1 hunary
      obtain ⟨rfl, rfl⟩ := reads_one_cons.1 hone
      exact ⟨rfl, rfl⟩) hmany
  rw [List.length_append] at hn
  obtain ⟨v, rfl, hv⟩ := sound_value hinner (Nat.lt_of_le_of_lt (Nat.le_add_left _ _) hn) hvalue
  exact ⟨u ++ v, (List.append_assoc ..).symm, .member hu hv⟩

/-- Behind each operator there is a member. -/
theorem sound_row : Sound (n + 1) .row := by
  intro ts cs us hn h
  refine h.many_elim (R := Derives .row)
    (S := fun w cs ↦ ∃ op u ds, op.kind ∈ binaryKinds ∧ w = op :: u ∧ cs = operationTree op :: ds ∧
      Derives .member u ds) .row_nil ?_ ?_ hn
  · rintro _ v _ ds ⟨op, u, es, hop, rfl, rfl, hfirst⟩ hothers
    exact .row_cons hop hfirst hothers
  · intro ts cs us hn hahead h
    cases ts with
    | nil => exact nomatch hahead
    | cons op ts =>
      obtain ⟨_, ds, _, hop, hread, rfl⟩ := reads_seq.1 h
      -- The word of the operator is taken blindly, whatever it is.
      obtain ⟨rfl, -, rfl⟩ := hop
      have hoperation := reads_operation (t := op) ts
      rw [hoperation.1]
      rw [hoperation.2.2] at hread
      obtain ⟨w, rfl, hmember⟩ := sound_member hinner (Nat.lt_of_succ_lt hn) hread
      exact ⟨op :: w, rfl, op, w, ds, isBinaryOperator_iff.1 hahead, rfl, rfl, hmember⟩

/-- The expressions inside are shorter, so they are sound already. -/
theorem sound_expression_succ : Sound (n + 1) .expression := by
  intro ts cs us hn h
  obtain ⟨_, hread, rfl⟩ := reads_expression.1 h
  obtain ⟨ds, es, ws, hfirst, hothers, rfl⟩ := reads_seq.1 hread
  obtain ⟨u, rfl, hu⟩ := sound_member hinner hn hfirst
  rw [List.length_append] at hn
  obtain ⟨v, rfl, hv⟩ := sound_row hinner (Nat.lt_of_le_of_lt (Nat.le_add_left _ _) hn) hothers
  exact ⟨u ++ v, (List.append_assoc ..).symm, .expression hu hv⟩

end

theorem sound_expression (n : Nat) : Sound n .expression := by
  induction n with
  | zero =>
    intro ts cs us hn _
    exact absurd hn (Nat.not_lt_zero _)
  | succ n ih => exact sound_expression_succ ih

/-- **Soundness.** What the parser for expressions has read without a fault is an expression of the
grammar, and its tree is the tree of the derivation. -/
theorem exists_derives_of_reads {ts us : List Token} {cs : List Tree}
    (h : expression.Reads ts cs us) : ∃ w, ts = w ++ us ∧ Derives .expression w cs :=
  sound_expression (ts.length + 1) (Nat.lt_succ_self _) h

end BslLint.Grammar
