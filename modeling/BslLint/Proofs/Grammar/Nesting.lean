import BslLint.Grammar.Module
import BslLint.Proofs.Grammar.Derivation
import BslLint.Proofs.Grammar.Reading

/-!
# Scanning past what is derived

Some decisions of the parser are made by scanning ahead without knowing the grammar: for an equals
sign, for a comma, for the end of the arguments of an annotation. The scans count parentheses and
brackets, and in what the grammar derives these are paired (`Derives.balanced`). So a scan passes
over what is derived, and the answer depends on no more than what stands outside of parentheses, and
on what comes behind.

Two of the scans answer yes only when they have seen what they look for, so more text does not
change that answer.
-/

namespace BslLint.Grammar

open BslLint.Parser

/-! ### Paired parentheses and brackets -/

/-- The kinds that scans treat in a way of their own at every depth. -/
def nestingKinds : List Token.Kind :=
  [.leftParen, .rightParen, .leftBracket, .rightBracket, .semicolon]

/-- A parenthesis or bracket that opens, and the one that closes it. -/
def IsPair (l r : Token.Kind) : Prop :=
  (l = .leftParen ∧ r = .rightParen) ∨ (l = .leftBracket ∧ r = .rightBracket)

/-- Parentheses and brackets are paired, no statement ends, and outside of them stand no tokens of
the given kinds. -/
inductive Balanced : List Token.Kind → List Token → Prop where
  | nil {kinds} : Balanced kinds []
  | token {kinds t w} (ht : t.kind ∉ nestingKinds) (hkind : t.kind ∉ kinds)
      (others : Balanced kinds w) : Balanced kinds (t :: w)
  | group {kinds l r u w} (hpair : IsPair l.kind r.kind) (inside : Balanced [] u)
      (others : Balanced kinds w) : Balanced kinds (l :: (u ++ r :: w))

variable {kinds : List Token.Kind} {w k : List Token} {t : Token}

/-- What is balanced in two parts is balanced as a whole. -/
theorem Balanced.append {u : List Token} (hu : Balanced kinds u) (hw : Balanced kinds w) :
    Balanced kinds (u ++ w) := by
  induction hu with
  | nil => exact hw
  | token ht hkind _ ih => exact .token ht hkind (ih hw)
  | group hpair hinside _ _ ih =>
    rw [List.cons_append, List.append_assoc, List.cons_append]
    exact .group hpair hinside (ih hw)

theorem Balanced.mono {kinds' : List Token.Kind} (h : Balanced kinds w) (hsub : kinds' ⊆ kinds) :
    Balanced kinds' w := by
  induction h with
  | nil => exact .nil
  | token ht hkind _ ih => exact .token ht (fun hmem ↦ hkind (hsub hmem)) (ih hsub)
  | group hpair hinside _ _ ih => exact .group hpair hinside (ih hsub)

/-- Where there are no parentheses and brackets, all are paired. -/
theorem balanced_of_forall (h : ∀ t ∈ w, t.kind ∉ nestingKinds ∧ t.kind ∉ kinds) :
    Balanced kinds w := by
  induction w with
  | nil => exact .nil
  | cons t w ih =>
    obtain ⟨ht, hw⟩ := List.forall_mem_cons.1 h
    exact .token ht.1 ht.2 (ih hw)

theorem balanced_singleton (ht : t.kind ∉ nestingKinds) (hkind : t.kind ∉ kinds) :
    Balanced kinds [t] := .token ht hkind .nil

/-- The kinds that a part has only inside of parentheses and brackets, of the two that scans look
for. -/
def Part.never : Part → List Token.Kind
  | arguments => []
  | expression | row | member | value | argument => [.comma]
  | head | typeName | callOrNone | modifiers | modifier | call => [.comma, .equal]

/-- Whatever may be a name is no such sign. -/
theorem isName_notMem {k : Token.Kind} (hk : IsName k) :
    k ∉ nestingKinds ∧ k ∉ Part.modifier.never := by
  obtain rfl | ⟨word, rfl⟩ := hk
  · decide
  · simp [nestingKinds, Part.never]

/-- **What is derived is balanced.** -/
theorem Derives.balanced {p : Part} {cs : List Tree} (h : Derives p w cs) : Balanced p.never w := by
  have hbinary : ∀ k ∈ binaryKinds, k ∉ nestingKinds ∧ k ∉ Part.row.never := by decide
  have hunary : ∀ k ∈ unaryKinds, k ∉ nestingKinds ∧ k ∉ Part.member.never := by decide
  have hconstant : ∀ k ∈ constantKinds, k ∉ nestingKinds ∧ k ∉ Part.value.never := by decide
  have hparens {l r : Token} (hl : l.kind = .leftParen) (hr : r.kind = .rightParen) :
      IsPair l.kind r.kind := .inl ⟨hl, hr⟩
  induction h with
  | row_nil | typeName_none | call_none | modifiers_nil | argument_none | arguments_nil =>
    exact .nil
  | expression _ _ ihfirst ihothers => exact ihfirst.append ihothers
  | row_cons hop _ _ ihfirst ihothers =>
    exact .token (hbinary _ hop).1 (hbinary _ hop).2 (Balanced.append ihfirst ihothers)
  | member hus _ ih => exact (balanced_of_forall fun t ht ↦ hunary _ (hus t ht)).append ih
  | strings _ hstrings =>
    refine balanced_of_forall fun t ht ↦ ?_
    rw [hstrings t ht]
    decide
  | constant ht => exact balanced_singleton (hconstant _ ht).1 (hconstant _ ht).2
  | complex _ _ ihhead ihmods => exact (ihhead.append ihmods).mono (by decide)
  | parens hl hr _ _ ihinside ihmods =>
    exact .group (hparens hl hr) (ihinside.mono (by decide)) (ihmods.mono (by decide))
  | name ht | typeName_some ht =>
    exact balanced_singleton (by rw [ht]; decide) (by rw [ht]; decide)
  | globalCall ht _ ih => exact .token (by rw [ht]; decide) (by rw [ht]; decide) ih
  | new ht _ _ ihtype ihcall =>
    exact .token (by rw [ht]; decide) (by rw [ht]; decide) (Balanced.append ihtype ihcall)
  | ternary hq hl _ hc _ hc' _ hr ihcondition ihyes ihno =>
    -- The commas of a choice stand within its parentheses, where they count for nothing.
    have hcomma {c : Token} {v : List Token} (hc : c.kind = .comma) (hv : Balanced [] v) :
        Balanced [] (c :: v) := .token (by rw [hc]; decide) List.not_mem_nil hv
    have hinside := (ihcondition.mono (List.nil_subset _)).append
      (hcomma hc ((ihyes.mono (List.nil_subset _)).append
        (hcomma hc' (ihno.mono (List.nil_subset _)))))
    have hgroup : Balanced Part.head.never _ := .group (hparens hl hr) hinside .nil
    simp only [List.append_assoc, List.cons_append] at hgroup
    exact .token (by rw [hq]; decide) (by rw [hq]; decide) hgroup
  | call_some _ ih => exact ih
  | modifiers_cons _ _ ihfirst ihothers => exact ihfirst.append ihothers
  | property hd ht =>
    exact .token (by rw [hd]; decide) (by rw [hd]; decide)
      (balanced_singleton (isName_notMem ht).1 (isName_notMem ht).2)
  | methodCall hd ht _ ih =>
    exact .token (by rw [hd]; decide) (by rw [hd]; decide)
      (.token (isName_notMem ht).1 (isName_notMem ht).2 ih)
  | index hl _ hr ih => exact .group (.inr ⟨hl, hr⟩) (ih.mono (List.nil_subset _)) .nil
  | call hl _ _ hr ihfirst ihothers =>
    rw [← List.append_assoc]
    exact .group (hparens hl hr) ((ihfirst.mono (List.nil_subset _)).append ihothers) .nil
  | argument_some _ ih => exact ih
  | arguments_cons hc _ _ ihfirst ihothers =>
    exact .token (by rw [hc]; decide) List.not_mem_nil
      ((ihfirst.mono (List.nil_subset _)).append ihothers)

/-- The arguments of a call stand in parentheses, and nothing is left open between them. -/
theorem Derives.exists_parens {cs : List Tree} (h : Derives .call w cs) :
    ∃ l u r, w = l :: (u ++ [r]) ∧ l.kind = .leftParen ∧ r.kind = .rightParen ∧ Balanced [] u := by
  cases h with
  | @call l r u v _ _ hl hfirst hothers hr =>
    have hinside := (hfirst.balanced.mono (List.nil_subset _)).append hothers.balanced
    exact ⟨l, u ++ v, r, by rw [List.append_assoc], hl, hr, hinside⟩

/-! ### Looking for an equals sign -/

/-- What opens takes the search one level down, -/
theorem assignmentAhead_of_open {d : Nat} (ht : t.kind = .leftParen ∨ t.kind = .leftBracket) :
    assignmentAhead d (t :: k) = assignmentAhead (d + 1) k := by
  rcases ht with ht | ht <;> simp only [assignmentAhead, ht]

/-- and what closes takes it up again, but not above the outermost. -/
theorem assignmentAhead_of_close {d : Nat} (ht : t.kind = .rightParen ∨ t.kind = .rightBracket) :
    assignmentAhead d (t :: k) = assignmentAhead (d - 1) k := by
  rcases ht with ht | ht <;> simp only [assignmentAhead, ht]

/-- So a pair is passed over with all that is in it. -/
theorem IsPair.assignmentAhead {l r : Token} (h : IsPair l.kind r.kind) (d : Nat) {u : List Token}
    (hu : ∀ k, assignmentAhead (d + 1) (u ++ k) = assignmentAhead (d + 1) k) :
    assignmentAhead d (l :: (u ++ r :: k)) = assignmentAhead d k := by
  rw [assignmentAhead_of_open (h.imp And.left And.left), hu,
    assignmentAhead_of_close (h.imp And.right And.right), Nat.add_sub_cancel]

/-- Inside of parentheses nothing counts but their end. -/
theorem Balanced.assignmentAhead_succ (h : Balanced kinds w) (d : Nat) (k : List Token) :
    assignmentAhead (d + 1) (w ++ k) = assignmentAhead (d + 1) k := by
  induction h generalizing d k with
  | nil => rfl
  | @token _ t w ht _ _ ih =>
    have hpass : assignmentAhead (d + 1) (t :: (w ++ k)) = assignmentAhead (d + 1) (w ++ k) := by
      rw [assignmentAhead]
      split <;> simp_all [nestingKinds]
    exact hpass.trans (ih d k)
  | group hpair _ _ ihinside ihothers =>
    rw [List.cons_append, List.append_assoc, List.cons_append,
      hpair.assignmentAhead (d + 1) (ihinside (d + 1)), ihothers]

/-- Without an equals sign outside of parentheses the answer comes from behind, unless a word makes
an end to the search before. -/
theorem Balanced.exists_assignmentAhead (h : Balanced kinds w) (hkind : .equal ∈ kinds) :
    ∃ b : Bool, ∀ k, assignmentAhead 0 (w ++ k) = (b && assignmentAhead 0 k) := by
  induction h with
  | nil => exact ⟨true, fun _ ↦ rfl⟩
  | @token kinds t w ht hnot _ ih =>
    obtain ⟨b, hb⟩ := ih hkind
    have hequal : t.kind ≠ .equal := fun heq ↦ hnot (heq ▸ hkind)
    -- A word may end the search; everything else is passed over.
    by_cases hword : ∃ word, t.kind = .keyword word
    · obtain ⟨word, hword⟩ := hword
      refine ⟨isExpressionKeyword word && b, fun k ↦ ?_⟩
      rw [List.cons_append, assignmentAhead, hword, Bool.and_assoc, ← hb k]
      rfl
    · refine ⟨b, fun k ↦ ?_⟩
      rw [← hb k, List.cons_append, assignmentAhead]
      split <;> simp_all [nestingKinds]
  | group hpair hinside _ _ ih =>
    obtain ⟨b, hb⟩ := ih hkind
    refine ⟨b, fun k ↦ ?_⟩
    rw [← hb k, List.cons_append, List.append_assoc, List.cons_append,
      hpair.assignmentAhead 0 (hinside.assignmentAhead_succ 0)]

/-- Once an equals sign is found, what comes behind does not matter. -/
theorem assignmentAhead_append {d : Nat} (h : assignmentAhead d w = true) (k : List Token) :
    assignmentAhead d (w ++ k) = true := by
  fun_induction assignmentAhead d w with
  | case6 d t ts ht ih =>
    rw [Bool.or_eq_true] at h
    simp only [List.cons_append, assignmentAhead, ht, Bool.or_eq_true]
    exact h.imp_right ih
  | _ => simp_all [assignmentAhead]

/-! ### Looking for a comma -/

/-- The same for the search for a comma, which begins inside of a parenthesis, -/
theorem commaAhead_of_open {d : Nat} (ht : t.kind = .leftParen ∨ t.kind = .leftBracket) :
    commaAhead d (t :: k) = commaAhead (d + 1) k := by
  rcases ht with ht | ht <;> simp only [commaAhead, ht]

/-- and ends at the one that closes it. -/
theorem commaAhead_of_close {d : Nat} (ht : t.kind = .rightParen ∨ t.kind = .rightBracket) :
    commaAhead d (t :: k) = (d - 1 != 0 && commaAhead (d - 1) k) := by
  rcases ht with ht | ht <;> simp only [commaAhead, ht]

/-- Other pairs are passed over. -/
theorem IsPair.commaAhead {l r : Token} (h : IsPair l.kind r.kind) (d : Nat) {u : List Token}
    (hu : ∀ k, commaAhead (d + 2) (u ++ k) = commaAhead (d + 2) k) :
    commaAhead (d + 1) (l :: (u ++ r :: k)) = commaAhead (d + 1) k := by
  rw [commaAhead_of_open (h.imp And.left And.left), hu,
    commaAhead_of_close (h.imp And.right And.right)]
  rfl

/-- Inside of a second pair of parentheses no comma counts. -/
theorem Balanced.commaAhead_succ_succ (h : Balanced kinds w) (d : Nat) (k : List Token) :
    commaAhead (d + 2) (w ++ k) = commaAhead (d + 2) k := by
  induction h generalizing d k with
  | nil => rfl
  | @token _ t w ht _ _ ih =>
    have hpass : commaAhead (d + 2) (t :: (w ++ k)) = commaAhead (d + 2) (w ++ k) := by
      rw [commaAhead]
      split <;> simp_all [nestingKinds]
    exact hpass.trans (ih d k)
  | group hpair _ _ ihinside ihothers =>
    rw [List.cons_append, List.append_assoc, List.cons_append,
      hpair.commaAhead (d + 1) (ihinside (d + 1)), ihothers]

/-- The answer is yes at a comma outside of all other parentheses, and comes from behind if there is
none. -/
theorem Balanced.exists_commaAhead (h : Balanced kinds w) :
    ∃ b : Bool, (∀ k, commaAhead 1 (w ++ k) = (b || commaAhead 1 k)) ∧
      (.comma ∈ kinds → b = false) := by
  induction h with
  | nil => exact ⟨false, fun _ ↦ rfl, fun _ ↦ rfl⟩
  | @token kinds t w ht hnot _ ih =>
    obtain ⟨b, hb, hfalse⟩ := ih
    by_cases hcomma : t.kind = .comma
    · refine ⟨true, fun k ↦ ?_, fun hmem ↦ absurd (hcomma ▸ hmem) hnot⟩
      rw [List.cons_append, commaAhead, hcomma]
      rfl
    · refine ⟨b, fun k ↦ ?_, hfalse⟩
      rw [← hb k, List.cons_append, commaAhead]
      split <;> simp_all [nestingKinds]
  | group hpair hinside _ _ ih =>
    obtain ⟨b, hb, hfalse⟩ := ih
    refine ⟨b, fun k ↦ ?_, hfalse⟩
    rw [← hb k, List.cons_append, List.append_assoc, List.cons_append,
      hpair.commaAhead 0 (hinside.commaAhead_succ_succ 0)]

/-- Whether there is a comma between the parentheses of a call is told by the call. -/
theorem Derives.commaAhead_append {cs : List Tree} (h : Derives .call w cs) (k : List Token) :
    commaAhead 0 (w ++ k) = commaAhead 0 w := by
  obtain ⟨l, u, r, rfl, hl, hr, hinside⟩ := h.exists_parens
  obtain ⟨b, hb, -⟩ := hinside.exists_commaAhead
  have hclose (k : List Token) : commaAhead 0 (l :: (u ++ [r]) ++ k) = b := by
    rw [List.cons_append, commaAhead_of_open (.inl hl), List.append_assoc, hb,
      List.singleton_append, commaAhead_of_close (.inl hr)]
    exact Bool.or_false b
  rw [hclose, ← List.append_nil (l :: (u ++ [r])), hclose]

/-- A value that begins with a parenthesis is an expression in parentheses, so there is no comma
inside of it and of no other. -/
theorem Derives.commaAhead_of_value {ts : List Token} {cs : List Tree} (h : Derives .value w cs)
    (hw : w = t :: ts) (ht : t.kind = .leftParen) (k : List Token) :
    commaAhead 0 (w ++ k) = false := by
  cases h with
  | parens hl hr inside =>
    obtain ⟨b, hb, hfalse⟩ := inside.balanced.exists_commaAhead
    simp only [List.cons_append, List.append_assoc]
    rw [commaAhead_of_open (.inl hl), hb, hfalse (by decide), commaAhead_of_close (.inl hr)]
    rfl
  | strings _ hstrings =>
    have hkind := hstrings t (hw ▸ List.mem_cons_self)
    exact nomatch ht.symm.trans hkind
  | constant hconstant =>
    obtain ⟨rfl, -⟩ := List.cons.inj hw
    rw [ht] at hconstant
    exact absurd hconstant (by decide)
  | complex head =>
    obtain ⟨q, qs, rfl, hq⟩ := head.begins_of_ne rfl
    obtain ⟨rfl, -⟩ := List.cons.inj hw
    rw [ht] at hq
    exact absurd hq (by decide)

/-- An expression is not taken for a list of arguments. -/
theorem Derives.commaAhead_of_expression {cs : List Tree} (h : Derives .expression w cs)
    (k : List Token) : (isAt .leftParen (w ++ k) && commaAhead 0 (w ++ k)) = false := by
  obtain ⟨t, ts, rfl, -⟩ := h.begins_of_ne rfl
  rw [List.cons_append, isAt_cons, Bool.and_eq_false_imp, beq_iff_eq]
  intro ht
  generalize hw : t :: ts = w at h
  cases h with
  | @expression u v _ _ first others =>
    cases first with
    -- With a parenthesis in front there are no signs, and the member is its value.
    | @member us x _ hus value =>
      obtain ⟨s, ss, hx, -⟩ := value.begins_of_ne rfl
      have hnone : us = [] := by
        cases us with
        | nil => rfl
        | cons s us =>
          have hs := hus s List.mem_cons_self
          rw [← (List.cons.inj hw).1, ht] at hs
          exact absurd hs (by decide)
      subst hnone
      have hsame : s = t := by
        rw [hx] at hw
        exact (List.cons.inj hw).1.symm
      rw [← List.cons_append, hw, List.nil_append, List.append_assoc]
      exact value.commaAhead_of_value hx (hsame ▸ ht) _

/-- A comma outside of all parentheses but the first makes a list of arguments. -/
theorem Derives.commaAhead_of_argument {cs : List Tree} (h : Derives .argument w cs) {l c : Token}
    (hl : l.kind = .leftParen) (hc : c.kind = .comma) (k : List Token) :
    commaAhead 0 (l :: (w ++ c :: k)) = true := by
  obtain ⟨b, hb, -⟩ := h.balanced.exists_commaAhead
  have hcomma : commaAhead 1 (c :: k) = true := by rw [commaAhead, hc]; rfl
  rw [commaAhead_of_open (.inl hl), hb, hcomma, Bool.or_true]

/-- Once a comma is found, what comes behind does not matter. -/
theorem commaAhead_append {d : Nat} (h : commaAhead d w = true) (k : List Token) :
    commaAhead d (w ++ k) = true := by
  fun_induction commaAhead d w with
  | case6 d t ts ht ih =>
    rw [Bool.or_eq_true] at h
    simp only [List.cons_append, commaAhead, ht, Bool.or_eq_true]
    exact h.imp_right ih
  | _ => simp_all [commaAhead]

/-! ### Looking past arguments -/

/-- Brackets are no parentheses, but what stands in a pair of them is balanced too. -/
theorem Balanced.afterParens_succ (h : Balanced kinds w) (d : Nat) (k : List Token) :
    afterParens (d + 1) (w ++ k) = afterParens (d + 1) k := by
  induction h generalizing d k with
  | nil => rfl
  | @token _ t w ht _ _ ih =>
    have hpass : afterParens (d + 1) (t :: (w ++ k)) = afterParens (d + 1) (w ++ k) := by
      rw [afterParens]
      split <;> simp_all [nestingKinds]
    exact hpass.trans (ih d k)
  | @group _ l r u w hpair _ _ ihinside ihothers =>
    rw [List.cons_append, List.append_assoc, List.cons_append]
    obtain ⟨hl, hr⟩ | ⟨hl, hr⟩ := hpair
    · -- Parentheses are entered one level deeper, and brackets on the same level.
      have hopen : afterParens (d + 1) (l :: (u ++ r :: (w ++ k))) =
          afterParens (d + 2) (u ++ r :: (w ++ k)) := by rw [afterParens, hl]
      have hclose : afterParens (d + 2) (r :: (w ++ k)) = afterParens (d + 1) (w ++ k) := by
        rw [afterParens, hr]
        exact if_neg (by omega)
      rw [hopen, ihinside (d + 1), hclose, ihothers]
    · have hopen : afterParens (d + 1) (l :: (u ++ r :: (w ++ k))) =
          afterParens (d + 1) (u ++ r :: (w ++ k)) := by rw [afterParens, hl]
      have hclose : afterParens (d + 1) (r :: (w ++ k)) = afterParens (d + 1) (w ++ k) := by
        rw [afterParens, hr]
      rw [hopen, ihinside d, hclose, ihothers]

/-- Behind the arguments of a call comes what stands behind it. -/
theorem Derives.afterParens_append {cs : List Tree} (h : Derives .call w cs) (k : List Token) :
    afterParens 0 (w ++ k) = k := by
  obtain ⟨l, u, r, rfl, hl, hr, hinside⟩ := h.exists_parens
  have hopen : afterParens 0 (l :: (u ++ [r]) ++ k) = afterParens 1 (u ++ r :: k) := by
    rw [List.cons_append, List.append_assoc, List.singleton_append, afterParens, hl]
  rw [hopen, hinside.afterParens_succ 0, afterParens, hr]
  rfl

end BslLint.Grammar
