import BslLint.Proofs.Expression.Recurrence
import BslLint.Proofs.Grammar.Brackets

/-!
# What a row is written with

The pieces of a row are made from tokens: an operator from one, an operand from those of a value
(`Piece.Worded`). Two things are said of the expression that such a row comes to.

The tokens recur: wherever the same words stand they are an expression of the same shape
(`Piece.Worded.recurs`).

The range of the expression is not all of the tokens, because parentheses around an operand belong
to no expression. What is left out are parentheses that open in front and parentheses that close
behind (`Expr.Sits`). A range that covers the ranges of operands reaches over the parentheses
between them, and so **the tokens of a range are unbalanced, or the range has lost no parentheses
that an operation needs**: balanced ones recur as well.
-/

namespace BslLint

open Grammar

/-! ### The tokens of a range -/

namespace Expr

/-- The tokens `m` are those of the range of the expression. In front of them stand parentheses that
open, and behind them some that close. -/
structure Sits (d : Document) (l m r : List Token) (x : Expr) : Prop where
  /-- The range is not empty. -/
  ne_nil : m ≠ []
  /-- The tokens are those of the range. -/
  spans : d.Spans x.range m
  /-- In front of the range parentheses open. -/
  left : ∀ t ∈ l, t.kind = .leftParen
  /-- Behind the range parentheses close. -/
  right : ∀ t ∈ r, t.kind = .rightParen
  /-- As many parentheses close as open, if those around the range are counted. -/
  closed_eq : closed (l ++ (m ++ r)) = opened (l ++ (m ++ r))
  /-- Balanced tokens have no parentheses around them, or are an expression without these. -/
  recurs : IsBalanced (m.map (·.kind)) → l = [] ∧ r = [] ∨ Recurs IsExpression d m x

/-- The range of the expression lies in the tokens, with nothing but parentheses around it. -/
def SitsIn (d : Document) (w : List Token) (x : Expr) : Prop :=
  ∃ l m r, w = l ++ (m ++ r) ∧ Sits d l m r x

/-- The tokens are a value that recurs, and the range of the expression lies in them. -/
structure IsOperand (d : Document) (w : List Token) (x : Expr) : Prop where
  /-- The tokens are a value. -/
  recurs : Recurs IsValue d w x
  /-- The range lies in the tokens. -/
  sitsIn : SitsIn d w x

end Expr

namespace Piece

open BslLint.Expr

/-- The pieces of a row and the tokens that they are made from. The flag says whether an operand is
due. -/
inductive Worded (d : Document) : Bool → List Token → List Piece → Prop where
  | nil : Worded d false [] []
  | unary {t : Token} {p : Pending} {w : List Token} {row : List Piece}
      (hop : Operator.unary? t.kind = some p.operator) (hspans : d.Spans p.origin.range [t])
      (h : Worded d true w row) : Worded d true (t :: w) (unary p :: row)
  | operand {x : Expr} {u w : List Token} {row : List Piece} (hx : IsOperand d u x)
      (h : Worded d false w row) : Worded d true (u ++ w) (operand x :: row)
  | binary {t : Token} {p : Pending} {w : List Token} {row : List Piece}
      (hop : Operator.binary? t.kind = some p.operator) (h : Worded d true w row) :
    Worded d false (t :: w) (binary p :: row)

variable {d : Document} {due : Bool} {w : List Token} {front row rest : List Piece}

theorem Worded.isRow (h : Worded d due w row) : Row (fun _ ↦ True) due row := by
  induction h with
  | nil => exact .nil
  | unary hop _ _ ih => exact .unary (Operator.isUnary_of_unary? hop) ih
  | operand _ _ ih => exact .operand trivial ih
  | binary hop _ ih => exact .binary hop ih

/-- Pieces at the end of a row are made from tokens at the end. -/
theorem Worded.exists_drop (h : Worded d due w (front ++ row)) :
    ∃ due' u v, w = u ++ v ∧ Worded d due' v row := by
  induction front generalizing due w with
  | nil => exact ⟨due, [], w, rfl, h⟩
  | cons piece front ih =>
    cases h with
    | @unary t _ _ _ _ _ h | @binary t _ _ _ _ h =>
      obtain ⟨due', u, v, rfl, hv⟩ := ih h
      exact ⟨due', t :: u, v, rfl, hv⟩
    | @operand _ u' _ _ _ h =>
      obtain ⟨due', u, v, rfl, hv⟩ := ih h
      exact ⟨due', u' ++ u, v, by rw [List.append_assoc], hv⟩

/-- A row at the front of pieces is made from tokens at the front. -/
theorem Worded.exists_take (h : Worded d due w (front ++ row))
    (hfront : Row (fun _ ↦ True) due front) : ∃ u v, w = u ++ v ∧ Worded d due u front := by
  -- The row in front says what the next piece is, and the tokens are taken along with it.
  induction hfront generalizing w with
  | nil => exact ⟨[], w, rfl, .nil⟩
  | unary _ _ ih =>
    cases h with
    | @unary t _ _ _ hop hspans h =>
      obtain ⟨u, v, rfl, hu⟩ := ih h
      exact ⟨t :: u, v, rfl, .unary hop hspans hu⟩
  | operand _ _ ih =>
    cases h with
    | @operand _ u' _ _ hx h =>
      obtain ⟨u, v, rfl, hu⟩ := ih h
      exact ⟨u' ++ u, v, by rw [List.append_assoc], .operand hx hu⟩
  | binary _ _ ih =>
    cases h with
    | @binary t _ _ _ hop h =>
      obtain ⟨u, v, rfl, hu⟩ := ih h
      exact ⟨t :: u, v, rfl, .binary hop hu⟩

/-- A row among pieces is made from tokens among those that the pieces are made from. -/
theorem Worded.exists_infix (h : Worded d due w (rest ++ front ++ row))
    (hfront : Row (fun _ ↦ True) true front) : ∃ u, u <:+: w ∧ Worded d true u front := by
  rw [List.append_assoc] at h
  obtain ⟨due', u, v, rfl, hv⟩ := h.exists_drop
  obtain rfl : due' = true := by
    cases hfront <;> cases hv <;> rfl
  obtain ⟨v', k, rfl, hfront⟩ := hv.exists_take hfront
  exact ⟨v', ⟨u, k, by rw [List.append_assoc]⟩, hfront⟩

/-! ### Rows recur -/

/-- The operators of the same tokens in front of an operand are alike. -/
theorem alike_unaries {d' : Document} {us : List Token} {qs ps : List Pending}
    (hqs : List.Forall₂ (fun t q ↦ Operator.unary? t.kind = some q.operator) us qs)
    (hps : List.Forall₂ (fun t p ↦ Operator.unary? t.kind = some p.operator) us ps) :
    List.Forall₂ (Alike d' d) (qs.map .unary) (ps.map .unary) := by
  induction hqs generalizing ps with
  | nil =>
    cases hps
    exact .nil
  | cons hq _ ih =>
    obtain _ | ⟨hp, hps⟩ := hps
    exact .cons (.unary (Option.some.inj (hq.symm.trans hp))) (ih hps)

/-- In the other document the tokens are a row, or a member and a row behind it, if some operators
are put in front. -/
def IsRowAlike (d' d : Document) (v : List Token) (row : List Piece) : Bool → Prop
  | false => ∃ cs, Derives .row v cs ∧
      YieldsAll d' pieces? cs fun rows ↦ List.Forall₂ (Alike d' d) rows.flatten row
  | true => ∀ us ps, List.Forall₂ (fun t p ↦ Operator.unary? t.kind = some p.operator) us ps →
      ∃ v₁ v₂ c cs, v = v₁ ++ v₂ ∧ Derives .member (us ++ v₁) [c] ∧ Derives .row v₂ cs ∧
        YieldsAll d' pieces? (c :: cs) fun rows ↦
          List.Forall₂ (Alike d' d) rows.flatten (ps.map .unary ++ row)

theorem Worded.isRowAlike (h : Worded d due w row) {d' : Document} :
    ∀ {v}, SameWords v w → IsRowAlike d' d v row due := by
  induction h with
  | nil =>
    intro v hv
    obtain rfl := hv.eq_nil
    exact ⟨[], .row_nil, .nil .nil⟩
  -- Signs are gathered in `us` until the operand that they belong to is reached.
  | @unary t p w row hop _ _ ih =>
    intro v hv us ps hus
    obtain ⟨t', v, rfl, ht', -, hv⟩ := hv.exists_cons
    have hus' : List.Forall₂ (fun t p ↦ Operator.unary? t.kind = some p.operator)
        (us ++ [t']) (ps ++ [p]) := List.rel_append hus (.cons (by rw [ht', hop]) .nil)
    obtain ⟨v₁, v₂, c, cs, rfl, hmember, hrow, hyields⟩ := ih hv _ _ hus'
    rw [List.append_assoc] at hmember
    refine ⟨t' :: v₁, v₂, c, cs, rfl, hmember, hrow, hyields.mono fun rows hrows ↦ ?_⟩
    rwa [List.map_append, List.append_assoc] at hrows
  | @operand x u w row hx _ ih =>
    intro v hv us ps hus
    obtain ⟨u', v, rfl, hu', hv⟩ := hv.exists_append
    have hkinds : ∀ t ∈ us, t.kind ∈ unaryKinds := by
      intro t ht
      obtain ⟨p, -, hp⟩ := exists_of_mem_right hus.flip ht
      exact mem_unaryKinds hp
    obtain ⟨c, hc, hyields⟩ := (hx.recurs d' u' hu').exists_member us hkinds
    obtain ⟨cs, hcs, hrest⟩ := ih hv
    refine ⟨u', v, c, cs, rfl, hc, hcs, .cons hyields hrest ?_⟩
    rintro _ rows ⟨qs, y, rfl, hy, hqs⟩ hrows
    rw [List.flatten_cons, List.append_assoc]
    exact List.rel_append (alike_unaries hqs hus) (.cons (.operand hy) hrows)
  | @binary t p w row hop _ ih =>
    intro v hv
    obtain ⟨t', v, rfl, ht', -, hv⟩ := hv.exists_cons
    obtain ⟨v₁, v₂, c, cs, rfl, hmember, hrow, hyields⟩ := ih hv [] [] .nil
    have hop' : Operator.binary? t'.kind = some p.operator := by rw [ht', hop]
    refine ⟨_, .row_cons (mem_binaryKinds hop') hmember hrow,
      .cons (yields_operation hop') hyields ?_⟩
    rintro _ rows ⟨q, rfl, hq⟩ hrows
    exact .cons (.binary hq) hrows

/-- **What a row comes to recurs** wherever the same words stand. -/
theorem Worded.recurs (h : Worded d true w row) {x : Expr} (hx : resolve? row = some x) :
    Recurs IsExpression d w x := by
  intro d' v hv
  obtain ⟨v₁, v₂, c, cs, rfl, hmember, hrow, hyields⟩ := h.isRowAlike hv [] [] .nil
  refine ⟨_, .expression hmember hrow, rfl, yields_expression hyields fun rows hrows ↦ ?_⟩
  exact h.isRow.exists_resolve?_alike hx hrows

end Piece

/-! ### Ranges -/

section

variable {w : List Token} {t : Token}

theorem counts_of_leftParen (h : ∀ t ∈ w, t.kind = .leftParen) :
    opened w = w.length ∧ closed w = 0 := by
  refine ⟨List.countP_eq_length.2 fun t ht ↦ decide_eq_true (h t ht), ?_⟩
  refine List.countP_eq_zero.2 fun t ht ↦ ?_
  rw [h t ht]
  decide

theorem counts_of_rightParen (h : ∀ t ∈ w, t.kind = .rightParen) :
    opened w = 0 ∧ closed w = w.length := by
  refine ⟨List.countP_eq_zero.2 fun t ht ↦ ?_,
    List.countP_eq_length.2 fun t ht ↦ decide_eq_true (h t ht)⟩
  rw [h t ht]
  decide

/-- An operator is no parenthesis. -/
theorem counts_of_operator (h : t.kind ∈ unaryKinds ++ binaryKinds) (w : List Token) :
    opened (t :: w) = opened w ∧ closed (t :: w) = closed w := by
  have hkinds : ∀ k ∈ unaryKinds ++ binaryKinds, k ≠ .leftParen ∧ k ≠ .rightParen := by decide
  obtain ⟨hl, hr⟩ := hkinds _ h
  exact ⟨List.countP_cons_of_neg (by simpa using hl), List.countP_cons_of_neg (by simpa using hr)⟩

end

namespace Expr

variable {d : Document} {l m r l' m' r' u w : List Token} {x y : Expr} {p : Pending} {t : Token}

namespace Sits

/-- An operator in front of an operand. Parentheses in front of the operand are kept. -/
theorem before (hd : d.tokens.toList.Nodup) (h : Sits d l m r x)
    (hop : Operator.unary? t.kind = some p.operator) (hspans : d.Spans p.origin.range [t])
    (hw : t :: (l ++ (m ++ r)) <:+: d.tokens.toList) :
    Sits d [] (t :: (l ++ m)) r (p.before x) := by
  have hcounts := counts_of_operator (List.mem_append_left binaryKinds (mem_unaryKinds hop))
  have hx := h.closed_eq
  simp only [closed_append, opened_append] at hx
  refine ⟨List.cons_ne_nil _ _, ?_, nofun, h.right, ?_, fun hbalanced ↦ .inl ⟨rfl, ?_⟩⟩
  · refine hspans.cover hd h.spans (List.cons_ne_nil _ _) h.ne_nil (.trans ?_ hw)
    exact ⟨[], r, by simp⟩
  · simp only [List.nil_append, closed_append, opened_append, hcounts]
    omega
  · obtain ⟨hopened, hclosed⟩ := counts_of_rightParen h.right
    have heq := hbalanced.closed_eq
    simp only [closed_append, opened_append, hcounts] at heq
    exact List.length_eq_zero_iff.1 (by omega)

/-- An operator between two operands. Parentheses around it are kept, those at the ends are lost. -/
theorem between (hd : d.tokens.toList.Nodup) (hx : Sits d l m r x) (hy : Sits d l' m' r' y)
    (hop : Operator.binary? t.kind = some p.operator)
    (hw : l ++ (m ++ r) ++ t :: (l' ++ (m' ++ r')) <:+: d.tokens.toList) :
    Sits d l (m ++ (r ++ t :: l' ++ m')) r' (p.between x y) := by
  have hcounts := counts_of_operator (List.mem_append_right unaryKinds (mem_binaryKinds hop))
  have hxcounts := hx.closed_eq
  have hycounts := hy.closed_eq
  simp only [closed_append, opened_append] at hxcounts hycounts
  refine ⟨?_, ?_, hx.left, hy.right, ?_, fun hbalanced ↦ .inl ?_⟩
  · exact fun h ↦ hx.ne_nil (List.append_eq_nil_iff.1 h).1
  · refine hx.spans.cover hd hy.spans hx.ne_nil hy.ne_nil (.trans ?_ hw)
    exact ⟨l, r', by simp⟩
  · simp only [closed_append, opened_append, hcounts]
    omega
  · -- In front of the operator no more is closed than opened, so nothing was lost there.
    have hfront : IsBalanced ((m ++ r ++ (t :: l' ++ m')).map (·.kind)) := by
      simpa using hbalanced
    have hle := hfront.closed_le
    have heq := hbalanced.closed_eq
    obtain ⟨hopenedl, hclosedl⟩ := counts_of_leftParen hx.left
    obtain ⟨hopenedr, hclosedr⟩ := counts_of_rightParen hy.right
    simp only [closed_append, opened_append, hcounts] at hle heq
    exact ⟨List.length_eq_zero_iff.1 (by omega), List.length_eq_zero_iff.1 (by omega)⟩

end Sits

theorem SitsIn.before (hd : d.tokens.toList.Nodup) (h : SitsIn d w x)
    (hop : Operator.unary? t.kind = some p.operator) (hspans : d.Spans p.origin.range [t])
    (hw : t :: w <:+: d.tokens.toList) : SitsIn d (t :: w) (p.before x) := by
  obtain ⟨l, m, r, rfl, hx⟩ := h
  exact ⟨[], _, r, by simp, hx.before hd hop hspans hw⟩

theorem SitsIn.between (hd : d.tokens.toList.Nodup) (hx : SitsIn d u x) (hy : SitsIn d w y)
    (hop : Operator.binary? t.kind = some p.operator)
    (hw : u ++ t :: w <:+: d.tokens.toList) : SitsIn d (u ++ t :: w) (p.between x y) := by
  obtain ⟨l, m, r, rfl, hx⟩ := hx
  obtain ⟨l', m', r', rfl, hy⟩ := hy
  exact ⟨l, _, r', by simp, hx.between hd hy hop hw⟩

end Expr

namespace Piece

open BslLint.Expr

variable {d : Document} {min : Nat} {o : Option Expr} {u w : List Token} {row rest : List Piece}
  {x : Expr}

/-- The tokens in front of a climb, where the range of the operand lies that it goes on behind. -/
def IsFront (d : Document) (o : Option Expr) (u : List Token) : Prop :=
  match o with
  | none => u = []
  | some left => SitsIn d u left

/-- **The range of what is climbed lies in the tokens that were read.** -/
theorem Climbs.exists_sitsIn (hd : d.tokens.toList.Nodup) (h : Climbs min o row x rest)
    (hfront : IsFront d o u) (hrow : Worded d o.isNone w row) (hw : u ++ w <:+: d.tokens.toList) :
    ∃ v k, w = v ++ k ∧ Worded d false k rest ∧ SitsIn d (u ++ v) x := by
  have hleft : ∀ {u v k : List Token}, u ++ (v ++ k) <:+: d.tokens.toList →
      u ++ v <:+: d.tokens.toList := by
    intro u v k huvk
    exact List.IsInfix.trans ⟨[], k, by simp⟩ huvk
  -- The tokens `u` of the operand in front are followed by those that the climb reads.
  induction h generalizing u w with
  | unary _ _ _ ih ihOn =>
    obtain rfl : u = [] := hfront
    cases hrow with
    | @unary t _ w _ hop hspans hrow =>
      obtain ⟨v, k, rfl, hk, hx⟩ := @ih [] w rfl hrow hw.tail
      have hbefore : SitsIn d (t :: v) _ := hx.before hd hop hspans (hleft (u := [t]) hw)
      obtain ⟨v', k, rfl, hk, hy⟩ := @ihOn (t :: v) k hbefore hk hw
      exact ⟨t :: (v ++ v'), k, by simp, hk, by simpa using hy⟩
  | operand _ ihOn =>
    obtain rfl : u = [] := hfront
    cases hrow with
    | @operand _ v k _ hx hrow =>
      obtain ⟨v', k, rfl, hk, hy⟩ := ihOn hx.sitsIn hrow hw
      exact ⟨v ++ v', k, by simp, hk, hy⟩
  | binary _ _ _ _ ih ihOn =>
    cases hrow with
    | @binary t _ w _ hop hrow =>
      obtain ⟨v, k, rfl, hk, hright⟩ := @ih [] w rfl hrow hw.right.tail
      have hbetween : SitsIn d (u ++ t :: v) _ :=
        SitsIn.between hd hfront hright hop (hleft (k := k) hw)
      obtain ⟨v', k, rfl, hk, hy⟩ := @ihOn _ k hbetween hk (by simpa using hw)
      exact ⟨t :: (v ++ v'), k, by simp, hk, by simpa using hy⟩
  | stop _ => exact ⟨[], w, rfl, hrow, by rwa [List.append_nil]⟩

/-- **What a row comes to sits in the tokens of the row.** If the tokens of its range are balanced,
they recur too. -/
theorem Worded.exists_sits (hd : d.tokens.toList.Nodup) (h : Worded d true w row)
    (hw : w <:+: d.tokens.toList) (hx : resolve? row = some x) :
    ∃ l m r, w = l ++ (m ++ r) ∧ Sits d l m r x ∧
      (IsBalanced (m.map (·.kind)) → Recurs IsExpression d m x) := by
  have hrow := h.isRow
  obtain ⟨w, _, rfl, hrest, l, m, r, hlmr, hsits⟩ :=
    (hrow.climbs_of_resolve? hx).exists_sitsIn hd rfl h hw
  cases hrest
  rw [List.nil_append] at hlmr
  refine ⟨l, m, r, by rw [List.append_nil, hlmr], hsits, fun hbalanced ↦ ?_⟩
  obtain ⟨rfl, rfl⟩ | hrecurs := hsits.recurs hbalanced
  · rw [List.append_nil, List.nil_append] at hlmr
    have hwhole := h.recurs hx
    rwa [List.append_nil, hlmr] at hwhole
  · exact hrecurs

end Piece

end BslLint
