import BslLint.Proofs.Grammar.Closure
import BslLint.Proofs.Grammar.Nesting
import BslLint.Proofs.Grammar.Soundness

/-!
# What the grammar looks at before it decides

Every condition of the grammar looks at nothing but the kinds of tokens (`ByKind`). The choices
inside of a procedure are moreover settled by what is read: where a branch was read without a fault,
the same branch is chosen when the text breaks off one token later. For most choices this is because
the tokens that they look at are read afterwards. The two scans over whole expressions need more,
namely that what they pass over is balanced.
-/

namespace BslLint

namespace Grammar

open BslLint.Parser

variable {inner : Parser}

/-! ### Kinds of tokens -/

theorem near_atBinaryOperator : Near atBinaryOperator := fun _ _ h ↦ by
  rw [atBinaryOperator, atBinaryOperator, h]

theorem near_atBoundary : Near atBoundary :=
  (near_isEmpty.or (near_isAtAny _)).or (near_isAtAny _)

theorem near_atStatementEnd : Near atStatementEnd := (near_isAt _).or near_atBoundary

section

variable {f : Token → Token} (hf : ∀ t, (f t).kind = t.kind)

include hf

/-- The scan for an equals sign looks at kinds, -/
theorem assignmentAhead_map (d : Nat) (ts : List Token) :
    assignmentAhead d (ts.map f) = assignmentAhead d ts := by
  fun_induction assignmentAhead d ts <;> simp_all [assignmentAhead]

/-- and so does that for a comma, -/
theorem commaAhead_map (d : Nat) (ts : List Token) :
    commaAhead d (ts.map f) = commaAhead d ts := by
  fun_induction commaAhead d ts <;> simp_all [commaAhead]

/-- the way out of parentheses, -/
theorem afterParens_map (d : Nat) (ts : List Token) :
    afterParens d (ts.map f) = (afterParens d ts).map f := by
  fun_induction afterParens d ts with
  | case4 d t ts ht hd ih =>
    rw [List.map_cons, afterParens, hf, ht]
    exact (if_neg hd).trans ih
  | _ => simp_all [afterParens]

/-- and the way past annotations. -/
theorem afterDirectives_map (ts : List Token) :
    afterDirectives (ts.map f) = (afterDirectives ts).map f := by
  fun_induction afterDirectives ts with
  | case1 => rw [List.map_nil, afterDirectives]
  | case2 t ts ht hopen ih =>
    rw [List.map_cons, afterDirectives, if_pos ((hf t).trans ht),
      (near_isAt _).byKind hf, if_pos hopen, afterParens_map hf, ih]
  | case3 t ts ht hopen ih =>
    rw [List.map_cons, afterDirectives, if_pos ((hf t).trans ht),
      (near_isAt _).byKind hf, if_neg hopen, ih]
  | case4 t ts ht =>
    rw [List.map_cons, afterDirectives, if_neg (by rwa [hf])]

end

/-- What looks past annotations looks at kinds. -/
theorem byKind_afterDirectives {ahead : List Token → Bool} (h : ByKind ahead) :
    ByKind fun ts ↦ ahead (afterDirectives ts) := fun _ hf ts ↦
  (congrArg ahead (afterDirectives_map hf ts)).trans (h hf _)

theorem byKind_atSub : ByKind atSub := byKind_afterDirectives (near_isAtAny _).byKind

theorem byKind_atModuleVar : ByKind atModuleVar := byKind_afterDirectives (near_isAt _).byKind

/-! ### Looking past annotations -/

/-- Without annotations nothing is passed over. -/
theorem afterDirectives_of_not {ts : List Token} (h : isAt .directive ts = false) :
    afterDirectives ts = ts := by
  cases ts with
  | nil => rw [afterDirectives]
  | cons t ts =>
    rw [isAt_cons, beq_eq_false_iff_ne] at h
    rw [afterDirectives, if_neg h]

/-- An annotation is passed over with its arguments, if it has any. -/
theorem Derives.afterDirectives_cons {d : Token} {w k : List Token} {cs : List Tree}
    (hd : d.kind = .directive) (h : Derives .callOrNone w cs)
    (hk : w = [] → isAt .leftParen k = false) :
    afterDirectives (d :: (w ++ k)) = afterDirectives k := by
  rw [afterDirectives, if_pos hd]
  cases h with
  | call_none => exact if_neg (by rw [List.nil_append, hk rfl]; exact Bool.false_ne_true)
  | call_some call => rw [if_pos (call.isAt_leftParen k), call.afterParens_append]

/-! ### Looking one or two tokens further -/

/-- The token behind the next one is read, or left, if the next one is read. -/
theorem settled_of_progress {p q : Parser} (test : Option Token.Kind → Bool)
    (h : ∀ ts ≠ [], Progress (ifAhead (fun ts ↦ test (look 1 ts)) p q) ts) :
    Settled (fun ts ↦ test (look 1 ts)) p q := by
  intro x y r cs hr hread
  have hx : x ++ y ≠ [] := List.append_ne_nil_of_left_ne_nil (hread.ne_nil hr) y
  have hlt := h _ hx
  rw [Progress, hread.2.2, List.length_append, List.length_append] at hlt
  have hpos := List.length_pos_iff.2 hr
  exact congrArg test (look_append (by omega) y)

/-- A name is read in any case, so the parenthesis behind it is read or left. -/
theorem settled_identifierHead :
    Settled (fun ts ↦ look 1 ts == some .leftParen) (globalMethodCall inner) one :=
  settled_of_progress (· == some .leftParen) fun _ hts ↦ progress_identifierHead hts

/-- Behind the first word of a loop comes the second, or the variable. -/
theorem settled_forStatement :
    Settled (fun ts ↦ look 1 ts == some (.keyword .each)) (forEachStatement inner)
      (forStatement inner) :=
  settled_of_progress (· == some (.keyword .each)) fun _ hts ↦
    progress_ifAhead (progress_forEachStatement hts) (progress_forStatement hts)

/-- An access by name as a choice between three. -/
theorem memberAccess_eq : memberAccess inner = node .modifier
    (ifAhead (fun ts ↦ (look 1 ts).any Token.Kind.isNameLike && look 2 ts == some .leftParen)
      (node .accessCall (one ++ node .methodCall (node .methodName one ++ doCall inner)))
      (ifAhead (fun ts ↦ (look 1 ts).any Token.Kind.isNameLike)
        (node .accessProperty (one ++ one))
        (node .accessProperty (one ++ missing .propertyName)))) := by
  refine congrArg (node .modifier) (funext fun ts ↦ ?_)
  cases hnamed : (look 1 ts).any Token.Kind.isNameLike <;> simp [ifAhead, hnamed]

/-- Where nothing like a name follows the dot, there is a fault. -/
theorem settled_accessProperty :
    Settled (fun ts ↦ (look 1 ts).any Token.Kind.isNameLike) (node .accessProperty (one ++ one))
      (node .accessProperty (one ++ missing .propertyName)) :=
  settled_of_progress (·.any Token.Kind.isNameLike) fun _ hts ↦
    progress_ifAhead (((progress_one hts).seq _).node _) (((progress_one hts).seq _).node _)

/-- Behind the dot a name is read, so the token behind the name is read or left. -/
theorem settled_memberAccess :
    Settled (fun ts ↦ (look 1 ts).any Token.Kind.isNameLike && look 2 ts == some .leftParen)
      (node .accessCall (one ++ node .methodCall (node .methodName one ++ doCall inner)))
      (ifAhead (fun ts ↦ (look 1 ts).any Token.Kind.isNameLike)
        (node .accessProperty (one ++ one))
        (node .accessProperty (one ++ missing .propertyName))) := by
  intro x y r cs hr hread
  cases x with
  | nil => exact absurd rfl (hread.ne_nil hr)
  | cons d x =>
    have hmember := hread.node .modifier
    rw [← memberAccess_eq, List.cons_append, reads_memberAccess] at hmember
    obtain ⟨t, vs, hvs, -, hbehind⟩ := hmember
    have hle : (r ++ y).length ≤ vs.length := by
      split at hbehind
      · obtain ⟨ds, hcall, -⟩ := hbehind
        exact hcall.length_le
      · exact Nat.le_of_eq (congrArg List.length hbehind.1)
    rw [List.length_append] at hle
    have hpos := List.length_pos_iff.2 hr
    -- The name is read, so the third token stands before `r` or is the first of it.
    obtain ⟨z, rfl, rfl⟩ := exists_eq_append (u := [t]) hvs (by omega)
    have hz : 2 < (d :: ([t] ++ z)).length := by
      simp only [List.length_append, List.length_cons, List.length_nil] at hle ⊢
      omega
    simp only [look_append hz, look_append (Nat.lt_of_succ_lt hz)]

/-! ### Statements -/

/-- A label is a name with a sign in front and behind. -/
theorem reads_label {t : Token} {ts us : List Token} {cs : List Tree} :
    (label true).Reads (t :: ts) cs us ↔ ∃ n c, n.kind = .identifier ∧ c.kind = .colon ∧
      ts = n :: c :: us ∧ cs = [.node .label [.leaf t, .leaf n, .leaf c]] := by
  rw [label, if_pos rfl]
  simp only [reads_node, reads_seq, reads_one_cons, reads_expectName, reads_expect]
  constructor
  · rintro ⟨_, ⟨_, _, _, ⟨_, _, _, ⟨rfl, rfl⟩, ⟨n, hn, rfl, rfl⟩, rfl⟩, ⟨c, hc, rfl, rfl⟩, rfl⟩,
      rfl⟩
    exact ⟨n, c, hn, hc, rfl, rfl⟩
  · rintro ⟨n, c, hn, hc, rfl, rfl⟩
    exact ⟨_, ⟨_, _, _, ⟨_, _, _, ⟨rfl, rfl⟩, ⟨n, hn, rfl, rfl⟩, rfl⟩, ⟨c, hc, rfl, rfl⟩, rfl⟩, rfl⟩

/-- Text that begins no statement is a fault. -/
theorem not_reads_unexpected {ts us : List Token} {cs : List Tree} :
    ¬unexpected.Reads ts cs us := by
  intro h
  obtain ⟨_, h, -⟩ := reads_node.1 h
  obtain ⟨_, _, _, h, -, -⟩ := reads_seq.1 h
  obtain ⟨_, _, _, h, -, -⟩ := reads_seq.1 h
  obtain ⟨_, _, _, h, -, -⟩ := reads_seq.1 h
  exact not_reads_missing h

/-- A tilde begins nothing but a label. -/
theorem settled_label :
    Settled (fun ts ↦ isAt .tilde ts && look 2 ts == some .colon)
      (label true ++ ifAhead atStatementEnd (eat .semicolon) (statementBody inner))
      (statementBody inner) := by
  intro x y r cs hr hread
  cases x with
  | nil => exact absurd rfl (hread.ne_nil hr)
  | cons t x =>
    by_cases ht : t.kind = .tilde
    · -- If the scan goes wrong the parser has reported an error.
      cases hahead : isAt .tilde (t :: x ++ y) && look 2 (t :: x ++ y) == some .colon with
      | true =>
        obtain ⟨_, _, vs, hlabel, hbody, -⟩ := reads_seq.1 ((reads_ifAhead_pos hahead).1 hread)
        obtain ⟨n, c, -, -, hx, -⟩ := reads_label.1 hlabel
        have hle := hbody.length_le
        rw [List.length_append] at hle
        obtain ⟨z, rfl, rfl⟩ := exists_eq_append (u := [n, c]) hx (by omega)
        rfl
      | false =>
        have hbody := (reads_select_cons ht).1 ((reads_ifAhead_neg hahead).1 hread)
        exact absurd hbody not_reads_unexpected
    · have hne : ∀ ts : List Token, isAt .tilde (t :: ts) = false := fun ts ↦ by
        rw [isAt_cons, beq_eq_false_iff_ne]
        exact ht
      simp only [List.cons_append, hne, Bool.false_and]

/-- What is assigned to is derived: a name or a call with accesses behind it. -/
theorem exists_of_reads_target {t : Token} {ts us : List Token} {cs : List Tree}
    (ht : t.kind = .identifier)
    (h : (identifierHead expression ++ modifiers expression).Reads (t :: ts) cs us) :
    ∃ w, t :: ts = w ++ us ∧ Balanced [.comma, .equal] w := by
  obtain ⟨ds, es, vs, hhead, hmods, -⟩ := reads_seq.1 h
  have hread : Part.head.parser.Reads (t :: ts) ds vs := (reads_select_cons ht).2 hhead
  have hinner := sound_expression (ts.length + 1)
  obtain ⟨u, hu, hd⟩ := sound_head hinner (Nat.lt_succ_self _) (by rw [ht]; decide) hread
  have hlt : vs.length < ts.length + 1 + 1 := by
    have hlength := congrArg List.length hu
    rw [List.length_append, List.length_cons] at hlength
    omega
  obtain ⟨v, rfl, hv⟩ := sound_modifiers hinner hlt hmods
  exact ⟨u ++ v, by rw [hu, List.append_assoc], hd.balanced.append hv.balanced⟩

/-- Behind what is assigned to stands the equals sign that was looked for, so the scan has not gone
beyond it. -/
theorem settled_assignment :
    Settled (fun ts ↦ isAt .identifier ts && assignmentAhead 0 ts) assignment callStatement := by
  intro x y r cs hr hread
  show (isAt .identifier (x ++ y) && assignmentAhead 0 (x ++ y)) =
    (isAt .identifier x && assignmentAhead 0 x)
  rw [near_isAt _ (peek_append (hread.ne_nil hr) y)]
  cases hat : isAt .identifier x with
  | false => rfl
  | true =>
    rw [Bool.true_and, Bool.true_and]
    cases hahead : assignmentAhead 0 (x ++ y) with
    | true =>
      have hboth : (isAt .identifier (x ++ y) && assignmentAhead 0 (x ++ y)) = true := by
        rw [near_isAt _ (peek_append (hread.ne_nil hr) y), hat, hahead]
        rfl
      obtain ⟨t, x', rfl, ht⟩ := isAt_iff.1 hat
      obtain ⟨_, hassign, -⟩ := reads_node.1 ((reads_ifAhead_pos hboth).1 hread)
      obtain ⟨_, _, vs, hleft, hvalue, -⟩ := reads_seq.1 hassign
      obtain ⟨_, _, us, htarget, hequal, -⟩ := reads_seq.1 hleft
      obtain ⟨_, htarget, -⟩ := reads_node.1 htarget
      obtain ⟨e, he, rfl, -⟩ := reads_expect.1 hequal
      obtain ⟨w, hw, hbalanced⟩ := exists_of_reads_target ht htarget
      obtain ⟨b, hb⟩ := hbalanced.exists_assignmentAhead (by decide)
      have hle := hvalue.length_le
      rw [List.length_append] at hle
      have hsplit : t :: x' ++ y = (w ++ [e]) ++ vs := by
        rw [List.append_assoc, List.singleton_append, ← hw]
        rfl
      obtain ⟨z, -, hz⟩ := exists_eq_append hsplit (by omega)
      -- The scan comes to the sign, whatever stands behind it.
      have hsign : ∀ ts : List Token, assignmentAhead 0 (w ++ [e] ++ ts) = b := fun ts ↦ by
        rw [List.append_assoc, List.singleton_append, hb, assignmentAhead, he]
        exact Bool.and_true b
      rw [← hahead, hz, List.append_assoc, hsign, hsign]
    | false =>
      symm
      rw [Bool.eq_false_iff]
      intro hshort
      rw [assignmentAhead_append hshort y] at hahead
      exact Bool.noConfusion hahead

/-- Arguments are read to the parenthesis that closes them, so the scan has not gone beyond it. -/
theorem settled_raiseStatement :
    Settled (fun ts ↦ isAt .leftParen ts && commaAhead 0 ts) (doCall expression) expression := by
  intro x y r cs hr hread
  show (isAt .leftParen (x ++ y) && commaAhead 0 (x ++ y)) = (isAt .leftParen x && commaAhead 0 x)
  rw [near_isAt _ (peek_append (hread.ne_nil hr) y)]
  cases hat : isAt .leftParen x with
  | false => rfl
  | true =>
    rw [Bool.true_and, Bool.true_and]
    cases hahead : commaAhead 0 (x ++ y) with
    -- The arguments are a derivation, and through one the scan goes whatever stands behind.
    | true =>
      have hboth : (isAt .leftParen (x ++ y) && commaAhead 0 (x ++ y)) = true := by
        rw [near_isAt _ (peek_append (hread.ne_nil hr) y), hat, hahead]
        rfl
      obtain ⟨w, hw, hcall⟩ := sound_call (sound_expression _) (Nat.lt_succ_self _)
        ((reads_ifAhead_pos hboth).1 hread)
      obtain rfl : x = w ++ r := List.append_cancel_right (hw.trans (List.append_assoc ..).symm)
      rw [← hahead, hw, hcall.commaAhead_append, hcall.commaAhead_append]
    | false =>
      symm
      rw [Bool.eq_false_iff]
      intro hshort
      rw [commaAhead_append hshort y] at hahead
      exact nomatch hahead

end Grammar

end BslLint
