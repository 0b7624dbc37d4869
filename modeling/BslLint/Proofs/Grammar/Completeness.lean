import BslLint.Proofs.Grammar.Parts

/-!
# What is derived is read

The parser for a part reads what the part derives, with the trees of the derivation, whatever comes
behind, as long as that is not more of the part (`Derives.reads`). The proof is an induction on
derivations. In each case the parts stand in front of each other, and what has to be seen is that
the second may come behind the first: this is `Derives.avoids_append` every time, and the kinds of
token are compared by computation.
-/

namespace BslLint.Grammar

open BslLint.Parser

theorem reads_leaves {ahead : List Token → Bool} {rule : Parser} {tree : Token → Tree}
    {us k : List Token} (hahead : ∀ u ∈ us, ∀ ts, ahead (u :: ts) = true)
    (hrule : ∀ u ts, rule.Reads (u :: ts) [tree u] ts) (hk : ahead k = false) :
    (many ahead rule).Reads (us ++ k) (us.map tree) k := by
  induction us with
  | nil => exact .many_nil hk
  | cons u us ih =>
    have hrest := ih fun u' hu' ↦ hahead u' (List.mem_cons_of_mem _ hu')
    exact .many_cons (hahead u List.mem_cons_self _) (hrule u _) (Nat.lt_succ_self _) hrest

theorem reads_unary {us k : List Token} (hus : ∀ t ∈ us, t.kind ∈ unaryKinds)
    (hk : Avoids unaryKinds k) :
    (many (isAtAny unaryKinds) (node .unaryModifier one)).Reads (us ++ k) (us.map unaryTree) k := by
  refine reads_leaves (fun u hu ts ↦ ?_) (fun u ts ↦ ?_) hk.isAtAny
  · rw [isAtAny_cons, List.contains_eq_mem, decide_eq_true_iff]
    exact hus u hu
  · exact (Reads.token u ts).node _

/-- String literals behind a sign, or behind none. -/
theorem reads_constValue_strings {signed : Bool} {us ts k : List Token} {cs : List Tree}
    (hsign : (when (fun ts ↦ signed && isAtAny [.minus, .plus] ts) one).Reads us cs (ts ++ k))
    (hts : ts ≠ []) (hstrings : ∀ t ∈ ts, t.kind = .stringLiteral)
    (hk : isAt .stringLiteral k = false) :
    (constValue signed).Reads us [.node .constValue (cs ++ ts.map .leaf)] k := by
  have hmany : (many (isAt .stringLiteral) one).Reads (ts ++ k) (ts.map .leaf) k := by
    refine reads_leaves (fun u hu ts ↦ ?_) (fun u ts ↦ .token u ts) hk
    rw [isAt_cons, beq_iff_eq]
    exact hstrings u hu
  cases ts with
  | nil => exact absurd rfl hts
  | cons t ts =>
    exact (hsign.seq ((reads_select_cons (hstrings t List.mem_cons_self)).2 hmany)).node _

/-- Another constant behind a sign, or behind none. -/
theorem reads_constValue_constant {signed : Bool} {t : Token} {us k : List Token} {cs : List Tree}
    (hsign : (when (fun ts ↦ signed && isAtAny [.minus, .plus] ts) one).Reads us cs (t :: k))
    (ht : t.kind ∈ constantKinds) :
    (constValue signed).Reads us [.node .constValue (cs ++ [.leaf t])] k := by
  refine (hsign.seq ?_).node _
  simp only [constantKinds, List.mem_cons, List.not_mem_nil, or_false] at ht
  rcases ht with ht | ht | ht | ht | ht | ht <;> rw [reads_select_cons ht] <;> exact .token t k

theorem reads_unsigned (ts : List Token) :
    (when (fun ts ↦ false && isAtAny [.minus, .plus] ts) one).Reads ts [] ts :=
  (reads_when_neg rfl).2 ⟨rfl, rfl⟩

theorem reads_strings {ts k : List Token} (hts : ts ≠ [])
    (hstrings : ∀ t ∈ ts, t.kind = .stringLiteral) (hk : isAt .stringLiteral k = false) :
    Part.value.parser.Reads (ts ++ k) [.node .constValue (ts.map .leaf)] k := by
  have hconst := reads_constValue_strings (reads_unsigned (ts ++ k)) hts hstrings hk
  cases ts with
  | nil => exact absurd rfl hts
  | cons t ts => exact (reads_select_cons (hstrings t List.mem_cons_self)).2 hconst

theorem reads_constant {t : Token} {k : List Token} (ht : t.kind ∈ constantKinds) :
    Part.value.parser.Reads (t :: k) [.node .constValue [.leaf t]] k := by
  have hconst := reads_constValue_constant (reads_unsigned (t :: k)) ht
  show (valueParser expression).Reads (t :: k) _ k
  simp only [constantKinds, List.mem_cons, List.not_mem_nil, or_false] at ht
  rcases ht with ht | ht | ht | ht | ht | ht <;> rw [valueParser, reads_select_cons ht] <;>
    exact hconst

theorem reads_complex {w k : List Token} {cs : List Tree} {t : Token} {ts : List Token}
    (hw : w = t :: ts) (ht : t.kind ∈ Part.head.firsts)
    (h : (complexIdentifier expression).Reads w cs k) : Part.value.parser.Reads w cs k := by
  subst hw
  show (valueParser expression).Reads (t :: ts) _ k
  simp only [Part.firsts, List.mem_cons, List.not_mem_nil, or_false] at ht
  rcases ht with ht | ht | ht <;> rw [valueParser, reads_select_cons ht] <;> exact h

/-- **Completeness.** What a part derives its parser reads, with the trees of the derivation, when
what comes behind is not more of the part. -/
theorem Derives.reads {p : Part} {w : List Token} {cs : List Tree} (h : Derives p w cs) :
    ∀ k, p.Ends k → p.parser.Reads (w ++ k) cs k := by
  -- In each case it has to be seen that what follows a part is nothing the part would go on with.
  induction h with
  | @expression u v cs ds hfirst hothers ihfirst ihothers =>
    intro k hk
    have hbehind : Part.member.Ends (v ++ k) :=
      hothers.avoids_append (by decide) (hk.mono (by decide))
    rw [List.append_assoc]
    exact reads_expression.2 ⟨_, (ihfirst _ hbehind).seq (ihothers k hk), rfl⟩
  | row_nil =>
    intro k hk
    refine .many_nil ?_
    cases k with
    | nil => rfl
    | cons t k =>
      show atBinaryOperator (t :: k) = false
      rw [atBinaryOperator_cons, Bool.eq_false_iff, ne_eq, isBinaryOperator_iff]
      exact avoids_cons.1 (hk.mono (by decide))
  | @row_cons op u v cs ds hop hfirst hothers ihfirst ihothers =>
    intro k hk
    have hbehind : Part.member.Ends (v ++ k) :=
      hothers.avoids_append (by decide) (hk.mono (by decide))
    have hround : (operation ++ Part.member.parser).Reads (op :: (u ++ (v ++ k)))
        (operationTree op :: cs) (v ++ k) := (reads_operation _).seq (ihfirst _ hbehind)
    rw [List.cons_append, List.append_assoc]
    -- The round has read the operator at least, so the loop goes on.
    refine .many_cons (isBinaryOperator_iff.2 hop) hround ?_ (ihothers k hk)
    simp only [List.length_cons, List.length_append]
    omega
  | @member us v ds hus hvalue ih =>
    intro k hk
    have hbehind : Avoids unaryKinds (v ++ k) := hvalue.avoids rfl (by decide) k
    rw [List.append_assoc]
    exact ((reads_unary hus hbehind).seq (ih k hk)).node _
  | strings hts hstrings => exact fun k hk ↦ reads_strings hts hstrings (hk.isAt (by decide))
  | constant ht => exact fun k _ ↦ reads_constant ht
  | @complex u v cs ds hhead hmods ihhead ihmods =>
    intro k hk
    obtain ⟨t, ts, rfl, ht⟩ := hhead.begins_of_ne rfl
    -- A head followed by modifiers is not taken for a call with the same name.
    have hbehind : Part.head.Ends (v ++ k) :=
      hmods.avoids_append (by decide) (hk.mono (by decide))
    refine reads_complex rfl ht ?_
    rw [List.append_assoc]
    exact ((ihhead _ hbehind).seq (ihmods k (hk.mono (by decide)))).node _
  | @parens l r u v cs ds hl hr _ _ ihinside ihmods =>
    intro k hk
    have hbehind : Part.expression.Ends (r :: (v ++ k)) := avoids_token hr (by decide)
    have hall := (((Reads.token l _).seq (ihinside _ hbehind)).seq (.expect hr _)).seq
      (ihmods k (hk.mono (by decide)))
    show (valueParser Grammar.expression).Reads _ _ k
    rw [valueParser, List.cons_append, List.append_assoc, List.cons_append, reads_select_cons hl]
    simp only [List.append_assoc, List.cons_append, List.nil_append] at hall
    exact hall
  | @name t ht =>
    intro k hk
    show (headParser Grammar.expression).Reads (t :: k) _ k
    rw [headParser, reads_select_cons ht]
    refine reads_identifierHead.2 ?_
    -- Without a parenthesis behind it a name is no call.
    rw [if_neg (Bool.eq_false_iff.1 (hk.isAt (by decide)))]
    exact ⟨rfl, rfl⟩
  | @globalCall t u cs ht hcall ih =>
    intro k hk
    show (headParser Grammar.expression).Reads (t :: (u ++ k)) _ k
    rw [headParser, reads_select_cons ht]
    refine reads_identifierHead.2 ?_
    rw [if_pos (hcall.isAt_leftParen k)]
    exact ⟨cs, ih k fun _ _ ↦ List.not_mem_nil, rfl⟩
  | @new t u v cs ds ht htype hcall ihtype ihcall =>
    intro k hk
    have hbehind : Part.typeName.Ends (v ++ k) :=
      hcall.avoids_append (by decide) (hk.mono (by decide))
    show (headParser Grammar.expression).Reads (t :: (u ++ v ++ k)) _ k
    rw [headParser, reads_select_cons ht, reads_newExpression (by simp), List.append_assoc]
    exact ⟨t, _, _, cs, ds, rfl, ihtype _ hbehind, ihcall k (hk.mono (by decide)), rfl⟩
  | @ternary q l c c' r u v w cs ds es hq hl _ hc _ hc' _ hr ihcondition ihyes ihno =>
    intro k hk
    show (headParser Grammar.expression).Reads
      (q :: l :: (u ++ c :: (v ++ c' :: (w ++ [r]))) ++ k) _ k
    simp only [List.append_assoc, List.cons_append, List.nil_append]
    rw [headParser, reads_select_cons hq, reads_ternaryOperator (by simp)]
    exact ⟨q, l, c, c', r, _, _, _, cs, ds, es, hl, hc, hc', hr, rfl,
      ihcondition _ (avoids_token hc (by decide)), ihyes _ (avoids_token hc' (by decide)),
      ihno _ (avoids_token hr (by decide)), rfl⟩
  | typeName_none => exact fun k hk ↦ (reads_when_neg (hk.isAt (by decide))).2 ⟨rfl, rfl⟩
  | @typeName_some t ht =>
    intro k _
    have hahead : isAt .identifier (t :: k) = true := isAt_iff.2 ⟨t, k, rfl, ht⟩
    exact (reads_when_pos hahead).2 ((Reads.token t k).node _)
  | call_none => exact fun k hk ↦ (reads_when_neg (hk.isAt (by decide))).2 ⟨rfl, rfl⟩
  | @call_some u cs hcall ih =>
    intro k _
    exact (reads_when_pos (hcall.isAt_leftParen k)).2 (ih k fun _ _ ↦ List.not_mem_nil)
  | modifiers_nil => exact fun k hk ↦ .many_nil (hk.mono (by decide)).isAtAny
  | @modifiers_cons u v cs ds hfirst hothers ihfirst ihothers =>
    intro k hk
    have hbehind : Part.modifier.Ends (v ++ k) :=
      hothers.avoids_append (by decide) (hk.mono (by decide))
    have hround := ihfirst _ hbehind
    obtain ⟨t, ts, rfl, ht⟩ := hfirst.begins_of_ne rfl
    rw [List.append_assoc]
    refine .many_cons ?_ hround ?_ (ihothers k hk)
    · rw [List.cons_append, isAtAny_cons, List.contains_eq_mem, decide_eq_true_iff]
      exact ht
    · simp only [List.length_cons, List.length_append]
      omega
  | @property d t hd ht =>
    intro k hk
    have hahead : isAt .dot (d :: t :: k) = true := isAt_iff.2 ⟨d, _, rfl, hd⟩
    refine (reads_ifAhead_pos hahead).2 (reads_memberAccess.2 ⟨t, k, rfl, ht, ?_⟩)
    -- The same holds for a name behind a dot.
    rw [if_neg (Bool.eq_false_iff.1 (hk.isAt (by decide)))]
    exact ⟨rfl, rfl⟩
  | @methodCall d t u cs hd ht hcall ih =>
    intro k _
    have hahead : isAt .dot (d :: t :: (u ++ k)) = true := isAt_iff.2 ⟨d, _, rfl, hd⟩
    refine (reads_ifAhead_pos hahead).2 (reads_memberAccess.2 ⟨t, _, rfl, ht, ?_⟩)
    rw [if_pos (hcall.isAt_leftParen k)]
    exact ⟨cs, ih k fun _ _ ↦ List.not_mem_nil, rfl⟩
  | @index l r u cs hl _ hr ih =>
    intro k _
    have hbehind : Part.expression.Ends (r :: k) := avoids_token hr (by decide)
    have hahead : isAt .dot (l :: (u ++ r :: k)) = false := by rw [isAt_cons, hl]; rfl
    rw [List.cons_append, List.append_assoc]
    refine (reads_ifAhead_neg hahead).2 ((reads_indexAccess (by simp)).2 ?_)
    exact ⟨l, r, _, cs, hr, rfl, ih _ hbehind, rfl⟩
  | @call l r u v cs ds hl _ hothers hr ihfirst ihothers =>
    intro k _
    have hpeek : peek (r :: k) = some .rightParen := congrArg some hr
    have hread := (ihfirst _ (hothers.argument_ends hpeek)).seq (ihothers (r :: k) hpeek)
    rw [List.cons_append, List.append_assoc, List.append_assoc]
    exact reads_doCall.2 ⟨l, r, _, _, hl, hr, rfl, hread, rfl⟩
  | argument_none =>
    intro k hk
    refine .node ((reads_when_neg ?_).2 ⟨rfl, rfl⟩) _
    rcases hk with hk | hk <;> simp [isAt, hk]
  | @argument_some u cs hvalue ih =>
    intro k hk
    -- An argument is ended by a comma or a parenthesis, and neither goes on with an expression.
    have hbehind : Part.expression.Ends k := by
      intro kind hkind
      rcases hk with hk | hk <;> rw [hk] at hkind <;> cases hkind <;> decide
    have hahead : Avoids [.comma, .rightParen] (u ++ k) := hvalue.avoids rfl (by decide) k
    refine .node ((reads_when_pos ?_).2 (ih k hbehind)) _
    rw [hahead.isAt (by decide), hahead.isAt (by decide)]
    rfl
  | arguments_nil =>
    intro k hk
    refine .many_nil ?_
    show (peek k == some .comma) = false
    rw [show peek k = some .rightParen from hk]
    rfl
  | @arguments_cons c u v cs ds hc hfirst hothers ihfirst ihothers =>
    intro k hk
    have hbehind : Part.argument.Ends (v ++ k) := hothers.argument_ends hk
    have hround := (Reads.token c _).seq (ihfirst _ hbehind)
    rw [List.cons_append, List.append_assoc]
    refine .many_cons (isAt_iff.2 ⟨c, _, rfl, hc⟩) hround ?_ (ihothers k hk)
    simp only [List.length_cons, List.length_append]
    omega

end BslLint.Grammar
