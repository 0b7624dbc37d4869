import BslLint.Expression.Equality
import BslLint.Proofs.Expression.Matching

/-!
# Equality of expressions is an equivalence

`Comparison.same` is reflexive, symmetric and transitive, with regard to the order of chains and
without (`equivalence_same`). Shape by shape this is plain but for chains, where operands are
matched greedily: there the answer does not depend on the choices made only because the operands'
own comparison already is an equivalence. So the three laws are proved **together**, for one
expression against all others (`LawfulAt`), and pass from the parts of an expression to the whole.
Nothing is asked of the expressions on the other side, which may be of any size.
-/

namespace BslLint

namespace Comparison

variable (c : Comparison)

/-! ### The comparison shape by shape -/

/-- An operation is compared with the same operation, as a chain or operand by operand. -/
theorem same_binary (op op' : Operator) (left right left' right' : Expr) (o o' : Origin) :
    c.same (.binary op left right o) (.binary op' left' right' o') =
      (op == op' &&
        if c.chains && op.isLogical then
          matchedGreedily c.same (left :: Expr.chain op right) (left' :: Expr.chain op right')
        else c.same left left' && c.same right right') := by
  rw [same, matchedGreedily_map Subtype.val, List.attach_map_subtype_val]

/-- A call is compared with what it calls and with its arguments one by one. -/
theorem same_call (kind kind' : CallKind) (callee callee' : Expr) (args args' : List Expr)
    (o o' : Origin) :
    c.same (.call kind callee args o) (.call kind' callee' args' o') =
      (kind == kind' && c.same callee callee' && allPaired c.same args args') := by
  rw [same, allPaired_map Subtype.val, List.attach_map_subtype_val]

/-! ### The three laws at one expression -/

/-- What an equivalence says about comparing one expression with any other. -/
structure LawfulAt (x : Expr) : Prop where
  /-- The expression is the same as itself. -/
  refl : c.same x x = true
  /-- It does not matter on which side the expression stands. -/
  comm : ∀ y, c.same x y = c.same y x
  /-- What is the same as something that the expression is the same as is the same as it. -/
  trans : ∀ y z, c.same x y = true → c.same y z = true → c.same x z = true

variable {c}

namespace LawfulAt

variable {x : Expr}

theorem symm (h : c.LawfulAt x) {y : Expr} (hxy : c.same x y = true) : c.same y x = true :=
  (h.comm y).symm.trans hxy

theorem of_symm (h : c.LawfulAt x) {y : Expr} (hyx : c.same y x = true) : c.same x y = true :=
  (h.comm y).trans hyx

end LawfulAt

/-! ### The laws for lists

The expressions of one list are known to be lawful, those of the others are arbitrary. -/

section Lists

variable {xs : List Expr} (hxs : ∀ x ∈ xs, c.LawfulAt x)

include hxs

theorem allPaired_refl : allPaired c.same xs xs = true :=
  allPaired_iff_forall₂.2 (List.forall₂_same.2 fun x hx ↦ (hxs x hx).refl)

/-- Lists that are paired may be exchanged if what is in the one is lawful, -/
theorem allPaired_comm (ys : List Expr) : allPaired c.same xs ys = allPaired c.same ys xs := by
  induction xs generalizing ys with
  | nil => cases ys <;> rfl
  | cons x xs ih =>
    cases ys with
    | nil => rfl
    | cons y ys =>
      rw [allPaired, allPaired, (hxs x List.mem_cons_self).comm y,
        ih (fun z hz ↦ hxs z (List.mem_cons_of_mem _ hz))]

/-- and pairings may be put together. -/
theorem allPaired_trans {ys zs : List Expr} (hxy : allPaired c.same xs ys = true)
    (hyz : allPaired c.same ys zs = true) : allPaired c.same xs zs = true := by
  rw [allPaired_iff_forall₂] at hxy hyz ⊢
  induction hxy generalizing zs with
  | nil => exact hyz
  | cons hxy _ ih =>
    obtain ⟨z, zs, hz, hrest, rfl⟩ := List.forall₂_cons_left_iff.1 hyz
    exact .cons ((hxs _ List.mem_cons_self).trans _ _ hxy hz)
      (ih (fun w hw ↦ hxs w (List.mem_cons_of_mem _ hw)) hrest)

/-- Partners can be exchanged in front of lawful expressions: `x' ~ y ~ x ~ y'`. -/
theorem exchangeable_left (ys : List Expr) : Exchangeable c.same xs ys := by
  intro x hx x' hx' y _ y' _ hxy hxy' hx'y
  have hx'x : c.same x' x = true := (hxs x' hx').trans y x hx'y ((hxs x hx).symm hxy)
  exact (hxs x' hx').trans x y' hx'x hxy'

/-- They can be exchanged behind lawful expressions too. Transitivity is then used at an
expression of the second list, which is the lawful one. -/
theorem exchangeable_right (ys : List Expr) : Exchangeable c.same ys xs := by
  intro y _ y' _ x hx x' hx' hyx hyx' hy'x
  have hx'x : c.same x' x = true := (hxs x' hx').trans y x ((hxs x' hx').of_symm hyx') hyx
  exact (hxs x' hx').symm ((hxs x' hx').trans x y' hx'x ((hxs x hx).of_symm hy'x))

theorem matchedGreedily_refl : matchedGreedily c.same xs xs = true :=
  matchedGreedily_of_matchable (exchangeable_left hxs xs) (.refl fun x hx ↦ (hxs x hx).refl)

/-- Matching in any order is symmetric too, -/
theorem matchedGreedily_comm (ys : List Expr) :
    matchedGreedily c.same xs ys = matchedGreedily c.same ys xs := by
  refine Bool.eq_iff_iff.2 ⟨fun h ↦ ?_, fun h ↦ ?_⟩
  · exact matchedGreedily_of_matchable (exchangeable_right hxs ys)
      ((matchable_of_matchedGreedily h).symm fun x hx _ _ ↦ (hxs x hx).symm)
  · exact matchedGreedily_of_matchable (exchangeable_left hxs ys)
      ((matchable_of_matchedGreedily h).symm fun _ _ x hx ↦ (hxs x hx).of_symm)

/-- and transitive. -/
theorem matchedGreedily_trans {ys zs : List Expr} (hxy : matchedGreedily c.same xs ys = true)
    (hyz : matchedGreedily c.same ys zs = true) : matchedGreedily c.same xs zs = true :=
  matchedGreedily_of_matchable (exchangeable_left hxs zs)
    ((matchable_of_matchedGreedily hxy).trans (fun x hx ↦ (hxs x hx).trans)
      (matchable_of_matchedGreedily hyz))

end Lists

/-! ### From the parts to the whole -/

/-- Terminals are compared by their texts, which is lawful. -/
theorem lawfulAt_terminal (s : Symbol) (o : Origin) : c.LawfulAt (.terminal s o) where
  refl := by simp [same]
  comm y := by
    cases y <;> simp only [same]
    rw [BEq.comm (a := s), BEq.comm (a := c.texts o.range)]
  trans y z hxy hyz := by
    cases y <;> simp only [same, Bool.false_eq_true] at hxy
    cases z <;> simp only [same, Bool.false_eq_true] at hyz
    simp only [same, Bool.and_eq_true, beq_iff_eq] at hxy hyz ⊢
    exact ⟨hxy.1.trans hyz.1, hxy.2.trans hyz.2⟩

/-- What is compared part by part is lawful if its parts are. -/
theorem lawfulAt_unary {op : Operator} {x : Expr} (hx : c.LawfulAt x) (o : Origin) :
    c.LawfulAt (.unary op x o) where
  refl := by simp [same, hx.refl]
  comm y := by
    cases y <;> simp only [same]
    rw [BEq.comm (a := op), hx.comm]
  trans y z hxy hyz := by
    cases y <;> simp only [same, Bool.false_eq_true] at hxy
    cases z <;> simp only [same, Bool.false_eq_true] at hyz
    simp only [same, Bool.and_eq_true, beq_iff_eq] at hxy hyz ⊢
    exact ⟨hxy.1.trans hyz.1, hx.trans _ _ hxy.2 hyz.2⟩

theorem lawfulAt_ternary {x y z : Expr} (hx : c.LawfulAt x) (hy : c.LawfulAt y)
    (hz : c.LawfulAt z) (o : Origin) : c.LawfulAt (.ternary x y z o) where
  refl := by simp [same, hx.refl, hy.refl, hz.refl]
  comm w := by
    cases w <;> simp only [same]
    rw [hx.comm, hy.comm, hz.comm]
  trans v w hxv hvw := by
    cases v <;> simp only [same, Bool.false_eq_true] at hxv
    cases w <;> simp only [same, Bool.false_eq_true] at hvw
    simp only [same, Bool.and_eq_true] at hxv hvw ⊢
    exact ⟨⟨hx.trans _ _ hxv.1.1 hvw.1.1, hy.trans _ _ hxv.1.2 hvw.1.2⟩,
      hz.trans _ _ hxv.2 hvw.2⟩

/-- The arguments of a call must be equally many. -/
theorem lawfulAt_call {kind : CallKind} {callee : Expr} {args : List Expr}
    (hcallee : c.LawfulAt callee) (hargs : ∀ x ∈ args, c.LawfulAt x) (o : Origin) :
    c.LawfulAt (.call kind callee args o) where
  refl := by simp [same_call, hcallee.refl, allPaired_refl hargs]
  comm y := by
    cases y with
    | call => rw [same_call, same_call, BEq.comm (a := kind), hcallee.comm, allPaired_comm hargs]
    | _ => simp only [same]
  trans y z hxy hyz := by
    cases y with
    | call =>
      cases z with
      | call =>
        rw [same_call] at hxy hyz ⊢
        simp only [Bool.and_eq_true, beq_iff_eq] at hxy hyz ⊢
        exact ⟨⟨hxy.1.1.trans hyz.1.1, hcallee.trans _ _ hxy.1.2 hyz.1.2⟩,
          allPaired_trans hargs hxy.2 hyz.2⟩
      | _ => simp [same] at hyz
    | _ => simp [same] at hxy

/-- The operands of the chain that the operation begins are what is compared if chains are. The
operation's own operands are what is compared otherwise, and the right one need not be an operand
of the chain. -/
theorem lawfulAt_binary {op : Operator} {left right : Expr} (hleft : c.LawfulAt left)
    (hright : c.LawfulAt right) (hchain : ∀ x ∈ Expr.chain op right, c.LawfulAt x) (o : Origin) :
    c.LawfulAt (.binary op left right o) := by
  have hoperands : ∀ x ∈ left :: Expr.chain op right, c.LawfulAt x := by
    rintro x (_ | ⟨_, hx⟩)
    · exact hleft
    · exact hchain x hx
  -- The three laws one after the other, each for the chain and for the two operands.
  refine ⟨?_, fun y ↦ ?_, fun y z hxy hyz ↦ ?_⟩
  · rw [same_binary]
    split
    · rw [matchedGreedily_refl hoperands, beq_self_eq_true, Bool.and_self]
    · rw [hleft.refl, hright.refl, beq_self_eq_true, Bool.and_self, Bool.and_self]
  · cases y with
    | binary op' =>
      rw [same_binary, same_binary, BEq.comm (a := op)]
      by_cases hop : op' = op
      · subst hop
        rw [matchedGreedily_comm hoperands, hleft.comm, hright.comm]
      · rw [beq_false_of_ne hop, Bool.false_and, Bool.false_and]
    -- With anything but an operation it is the same neither way round.
    | _ => simp only [same]
  · cases y with
    | binary op' =>
      cases z with
      | binary op'' =>
        rw [same_binary, Bool.and_eq_true, beq_iff_eq] at hxy hyz ⊢
        obtain ⟨rfl, hxy⟩ := hxy
        obtain ⟨rfl, hyz⟩ := hyz
        refine ⟨rfl, ?_⟩
        split at hxy
        next h =>
          rw [if_pos h] at hyz ⊢
          exact matchedGreedily_trans hoperands hxy hyz
        next h =>
          rw [if_neg h] at hyz ⊢
          rw [Bool.and_eq_true] at hxy hyz ⊢
          exact ⟨hleft.trans _ _ hxy.1 hyz.1, hright.trans _ _ hxy.2 hyz.2⟩
      | _ => simp [same] at hyz
    | _ => simp [same] at hxy

/-- The laws hold at every expression. -/
theorem lawfulAt (c : Comparison) : (x : Expr) → c.LawfulAt x
  | .terminal s o => lawfulAt_terminal s o
  | .unary _ x o => lawfulAt_unary (lawfulAt c x) o
  | .binary _ left right o =>
    lawfulAt_binary (lawfulAt c left) (lawfulAt c right)
      (fun x hx ↦ have := Expr.sizeOf_le_of_mem_chain hx; lawfulAt c x) o
  | .ternary x y z o => lawfulAt_ternary (lawfulAt c x) (lawfulAt c y) (lawfulAt c z) o
  | .call _ callee args o =>
    lawfulAt_call (lawfulAt c callee)
      (fun x hx ↦ have := List.sizeOf_lt_of_mem hx; lawfulAt c x) o
termination_by x => sizeOf x
decreasing_by all_goals simp only [Expr.unary.sizeOf_spec, Expr.binary.sizeOf_spec,
  Expr.ternary.sizeOf_spec, Expr.call.sizeOf_spec]; omega

/-- However the texts of terminals are found, comparing is an equivalence. -/
theorem equivalence_same (c : Comparison) : Equivalence fun x y ↦ c.same x y = true where
  refl x := (c.lawfulAt x).refl
  symm := (c.lawfulAt _).symm
  trans := (c.lawfulAt _).trans _ _

end Comparison

/-- **Over the text of a document comparing is an equivalence**, by shape alone as well as with the
order of chains regarded or disregarded. -/
theorem Document.equivalence_of_comparisons (d : Document) :
    Equivalence (fun x y ↦ d.exactly.same x y = true) ∧
      Equivalence (fun x y ↦ d.upToChains.same x y = true) ∧
      ∀ chains : Bool, Equivalence fun x y ↦ (Comparison.mk d.tokenTexts chains).same x y = true :=
  ⟨Comparison.equivalence_same _, Comparison.equivalence_same _,
    fun _ ↦ Comparison.equivalence_same _⟩

end BslLint
