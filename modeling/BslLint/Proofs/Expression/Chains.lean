import Mathlib.Data.List.FinRange
import BslLint.Proofs.Expression.Equality
import BslLint.Proofs.Expression.Shape

/-!
# Chains are compared as multisets

With the order of chains disregarded, two operations of one logical operator are the same exactly if
the operands of their chains can be paired off, each with one that it is the same as
(`Comparison.same_binary_iff_matchable`). Greedy matching finds such a pairing only if it never has
to go back on a choice, which rests on `Comparison.lawfulAt`: operands are compared by an
equivalence.

Where the order counts, two expressions are the same exactly if they have one shape
(`Comparison.same_iff_shapeOf_eq`). Expressions of one shape have chains of one shape, so they are
the same for either comparison, and disregarding the order never tells apart what looks alike.
-/

namespace BslLint

/-! ### Pairings as bijections of places -/

/-- Two lists can be reordered to pass a test place by place exactly if a bijection of their places
leads from each element to one that passes the test with it. -/
theorem matchable_iff_exists_equiv {α β : Type} {test : α → β → Bool} {xs : List α} {ys : List β} :
    Matchable test xs ys ↔
      ∃ e : Fin xs.length ≃ Fin ys.length, ∀ i, test (xs.get i) (ys.get (e i)) = true := by
  classical
  constructor
  · rintro ⟨zs, hzs, hall⟩
    obtain ⟨hlength, hget⟩ := List.forall₂_iff_get.1 hall
    -- A permutation gives a bijection of places, taken from the library.
    let places : Fin zs.length ≃ Fin ys.length :=
      ⟨hzs.idxBij, hzs.symm.idxBij, hzs.idxBij_rightInverse_idxBij_symm,
        hzs.idxBij_leftInverse_idxBij_symm⟩
    refine ⟨(finCongr hlength).trans places, fun i ↦ ?_⟩
    have hplace : ys.get (places (finCongr hlength i)) = zs.get (finCongr hlength i) :=
      hzs.getElem_idxBij_eq_getElem (finCongr hlength i)
    rw [Equiv.trans_apply, hplace]
    exact hget i i.isLt (hlength ▸ i.isLt)
  · rintro ⟨e, he⟩
    -- A bijection gives a permutation: that of the elements at the places it leads to.
    have hplaces : ((List.finRange xs.length).map e).Perm (List.finRange ys.length) :=
      (List.perm_ext_iff_of_nodup ((List.nodup_finRange _).map e.injective)
        (List.nodup_finRange _)).2 fun j ↦
          ⟨fun _ ↦ List.mem_finRange j,
            fun _ ↦ List.mem_map.2 ⟨e.symm j, List.mem_finRange _, e.apply_symm_apply j⟩⟩
    refine ⟨((List.finRange xs.length).map e).map ys.get, ?_, ?_⟩
    · simpa only [List.map_get_finRange] using hplaces.map ys.get
    · refine List.forall₂_iff_get.2 ⟨by simp, fun i hi hi' ↦ ?_⟩
      simpa using he ⟨i, hi⟩

/-- Two lists have the same images if they have them place by place. -/
theorem map_eq_map_iff_forall₂ {α β γ : Type} {f : α → γ} {g : β → γ} {xs : List α} {ys : List β} :
    xs.map f = ys.map g ↔ List.Forall₂ (fun x y ↦ f x = g y) xs ys := by
  rw [← List.forall₂_map_right_iff (R := fun x z ↦ f x = z), ← List.forall₂_map_left_iff,
    List.forall₂_eq_eq_eq]

theorem forall₂_of_mem {α β : Type} {R S : α → β → Prop} {xs : List α} {ys : List β}
    (hmem : ∀ x ∈ xs, ∀ {y}, R x y → S x y) (h : List.Forall₂ R xs ys) : List.Forall₂ S xs ys :=
  ((List.forall₂_and_left (p := fun x ↦ ∀ {y}, R x y → S x y) _ _).2 ⟨hmem, h⟩).imp
    fun _ _ h ↦ h.1 h.2

/-! ### Chains -/

namespace Expr

/-- Whether the expression is an operation of `op`. -/
def joins (op : Operator) : Expr → Bool
  | binary op' _ _ _ => op' = op
  | _ => false

/-- The chain of `op` that joins operands, links on the right-hand side. Each operand but the last
comes with the origin of the link that it is the left operand of. -/
def joined (op : Operator) (last : Expr) : List (Expr × Origin) → Expr
  | [] => last
  | (x, o) :: links => binary op x (joined op last links) o

/-- An operation of the chain is its left operand and what its right one goes on with. -/
theorem chain_binary (op : Operator) (left right : Expr) (o : Origin) :
    chain op (binary op left right o) = left :: chain op right := by
  rw [chain, if_pos rfl]

/-- What is no such operation is the last operand. -/
theorem chain_of_joins_eq_false {op : Operator} {x : Expr} (h : x.joins op = false) :
    chain op x = [x] := by
  cases x with
  | binary op' => rw [chain, if_neg (of_decide_eq_false h)]
  | _ => rfl

/-- A chain consists of the operands that it was made from. -/
theorem chain_joined {op : Operator} {last : Expr} (h : last.joins op = false)
    (links : List (Expr × Origin)) :
    chain op (joined op last links) = links.map Prod.fst ++ [last] := by
  induction links with
  | nil => exact chain_of_joins_eq_false h
  | cons link links ih => rw [joined, chain_binary, ih, List.map_cons, List.cons_append]

/-- Induction over an expression in which an operation may rely on the operands of its chain, which
lie deeper than its own operands. -/
@[elab_as_elim]
theorem inductionOnChains {motive : Expr → Prop} (terminal : ∀ s o, motive (terminal s o))
    (unary : ∀ op x o, motive x → motive (unary op x o))
    (binary : ∀ op left right o, motive left → motive right →
      (∀ x ∈ chain op right, motive x) → motive (binary op left right o))
    (ternary : ∀ x y z o, motive x → motive y → motive z → motive (ternary x y z o))
    (call : ∀ kind callee args o, motive callee → (∀ x ∈ args, motive x) →
      motive (call kind callee args o)) (x : Expr) : motive x := by
  -- The induction is on the size, because the operands of a chain are no arguments of its
  -- constructor.
  have ih (y : Expr) (hy : sizeOf y < sizeOf x) : motive y :=
    inductionOnChains terminal unary binary ternary call y
  cases x with
  | terminal s o => exact terminal s o
  | unary op x o => exact unary op x o (ih x (by simp only [Expr.unary.sizeOf_spec]; omega))
  | binary op left right o =>
    simp only [Expr.binary.sizeOf_spec] at ih
    refine binary op left right o (ih left (by omega)) (ih right (by omega)) fun x hx ↦ ih x ?_
    have := sizeOf_le_of_mem_chain hx
    omega
  | ternary x y z o =>
    simp only [Expr.ternary.sizeOf_spec] at ih
    exact ternary x y z o (ih x (by omega)) (ih y (by omega)) (ih z (by omega))
  | call kind callee args o =>
    simp only [Expr.call.sizeOf_spec] at ih
    refine call kind callee args o (ih callee (by omega)) fun x hx ↦ ih x ?_
    have := List.sizeOf_lt_of_mem hx
    omega
termination_by sizeOf x

/-- Every expression is joined from the operands of its chain. -/
theorem exists_joined (op : Operator) (x : Expr) :
    ∃ links last, last.joins op = false ∧ x = joined op last links := by
  induction x using inductionOnChains with
  | binary op' left right o _ ih =>
    by_cases hop : op' = op
    · obtain ⟨links, last, hlast, rfl⟩ := ih
      exact ⟨(left, o) :: links, last, hlast, by rw [hop, joined]⟩
    · exact ⟨[], binary op' left right o, decide_eq_false hop, rfl⟩
  | _ => exact ⟨[], _, rfl, rfl⟩

end Expr

namespace Comparison

variable {c : Comparison}

/-- **Greedy comparison of chains is exact.** -/
theorem same_binary_iff_matchable (hc : c.chains = true) {op : Operator} (hop : op.isLogical = true)
    (left right left' right' : Expr) (o o' : Origin) :
    c.same (.binary op left right o) (.binary op left' right' o') = true ↔
      Matchable c.same (Expr.chain op (.binary op left right o))
        (Expr.chain op (.binary op left' right' o')) := by
  rw [same_binary, beq_self_eq_true, Bool.true_and, hc, hop, Bool.and_self, if_pos rfl,
    Expr.chain_binary, Expr.chain_binary]
  exact ⟨matchable_of_matchedGreedily,
    matchedGreedily_of_matchable (exchangeable_left (fun x _ ↦ c.lawfulAt x) _)⟩

/-- Operands may be put into any order before they are joined. An operand that is a chain itself
would prolong the chain if it came last, so there is none. -/
theorem same_joined (hc : c.chains = true) {op : Operator} (hop : op.isLogical = true)
    {links links' : List (Expr × Origin)} {last last' : Expr}
    (hlinks : (links.map Prod.fst ++ [last]).Perm (links'.map Prod.fst ++ [last']))
    (hoperands : ∀ x ∈ links.map Prod.fst ++ [last], x.joins op = false) :
    c.same (Expr.joined op last links) (Expr.joined op last' links') = true := by
  have hlast : last.joins op = false := hoperands last (by simp)
  have hlast' : last'.joins op = false := hoperands last' (hlinks.symm.subset (by simp))
  have hmatch : Matchable c.same (links.map Prod.fst ++ [last]) (links'.map Prod.fst ++ [last']) :=
    ⟨_, hlinks, List.forall₂_same.2 fun x _ ↦ (c.lawfulAt x).refl⟩
  cases links with
  | nil =>
    obtain rfl : links' = [] := by simpa using hlinks.length_eq
    obtain rfl : last = last' := by simpa using hlinks
    exact (c.lawfulAt last).refl
  | cons link links =>
    cases links' with
    | nil => simpa using hlinks.length_eq
    | cons link' links' =>
      rw [Expr.joined, Expr.joined, same_binary_iff_matchable hc hop]
      simpa only [Expr.chain_binary, Expr.chain_joined hlast, Expr.chain_joined hlast',
        List.map_cons, List.cons_append] using hmatch

/-! ### Comparing by shape -/

/-- The shape of an expression with the texts that terminals are compared by. -/
def shapeOf (c : Comparison) (x : Expr) : Shape := x.shape (c.texts ·.range) (c.texts ·.range)

@[simp]
theorem shapeOf_terminal (s : Symbol) (o : Origin) :
    c.shapeOf (.terminal s o) = .terminal s (c.texts o.range) := rfl

@[simp]
theorem shapeOf_unary (op : Operator) (x : Expr) (o : Origin) :
    c.shapeOf (.unary op x o) = .unary op (c.shapeOf x) := rfl

@[simp]
theorem shapeOf_binary (op : Operator) (left right : Expr) (o : Origin) :
    c.shapeOf (.binary op left right o) = .binary op (c.shapeOf left) (c.shapeOf right) := rfl

@[simp]
theorem shapeOf_ternary (x y z : Expr) (o : Origin) :
    c.shapeOf (.ternary x y z o) = .ternary (c.shapeOf x) (c.shapeOf y) (c.shapeOf z) := rfl

@[simp]
theorem shapeOf_call (kind : CallKind) (callee : Expr) (args : List Expr) (o : Origin) :
    c.shapeOf (.call kind callee args o) =
      .call kind (c.shapeOf callee) (args.map c.shapeOf) := by
  cases kind <;> rw [shapeOf, Expr.shape, Expr.shapeList_eq_map] <;> rfl

/-- What has the shape of an operation is an operation. -/
theorem exists_of_shapeOf_binary_eq {op : Operator} {left right y : Expr} {o : Origin}
    (h : c.shapeOf (.binary op left right o) = c.shapeOf y) :
    ∃ left' right' o', y = .binary op left' right' o' ∧ c.shapeOf left = c.shapeOf left' ∧
      c.shapeOf right = c.shapeOf right' := by
  cases y <;> simp at h
  obtain ⟨rfl, hleft, hright⟩ := h
  exact ⟨_, _, _, rfl, hleft, hright⟩

/-- The chains of two expressions of one shape have operands of one shape, place by place. -/
theorem forall₂_chain_of_shapeOf_eq (op : Operator) {x y : Expr} (h : c.shapeOf x = c.shapeOf y) :
    List.Forall₂ (fun x y ↦ c.shapeOf x = c.shapeOf y) (Expr.chain op x) (Expr.chain op y) := by
  fun_induction Expr.chain op x generalizing y with
  | case1 left right o ih =>
    obtain ⟨left', right', o', rfl, hleft, hright⟩ := exists_of_shapeOf_binary_eq h
    rw [Expr.chain_binary]
    exact .cons hleft (ih hright)
  | case2 op' left right o hop =>
    obtain ⟨left', right', o', rfl, -, -⟩ := exists_of_shapeOf_binary_eq h
    rw [Expr.chain, if_neg hop]
    exact .cons h .nil
  | case3 x hx =>
    -- What is no operation has a partner that is none either, and both are chains of one.
    have hy : y.joins op = false := by
      cases y with
      | binary =>
        obtain ⟨_, _, _, rfl, -, -⟩ := exists_of_shapeOf_binary_eq h.symm
        exact absurd rfl (hx _ _ _ _)
      | _ => rfl
    rw [Expr.chain_of_joins_eq_false hy]
    exact .cons h .nil

/-- Expressions of one shape are the same, whether the order of chains counts or not. -/
theorem same_of_shapeOf_eq {x y : Expr} (h : c.shapeOf x = c.shapeOf y) : c.same x y = true := by
  induction x using Expr.inductionOnChains generalizing y with
  | terminal s o =>
    cases y <;> simp at h
    rw [same, h.1, h.2, beq_self_eq_true, beq_self_eq_true, Bool.and_self]
  | unary op x o ih =>
    cases y <;> simp at h
    rw [same, h.1, ih h.2, beq_self_eq_true, Bool.and_self]
  | binary op left right o ihleft ihright ihchain =>
    have hchain := forall₂_chain_of_shapeOf_eq op h
    obtain ⟨left', right', o', rfl, hleft, hright⟩ := exists_of_shapeOf_binary_eq h
    rw [same_binary, beq_self_eq_true, Bool.true_and]
    split
    next =>
      rw [Expr.chain_binary, Expr.chain_binary] at hchain
      -- Greedy matching finds a partner for each if places in turn do, by the laws of comparing.
      exact matchedGreedily_of_matchable (exchangeable_left (fun x _ ↦ c.lawfulAt x) _)
        ⟨_, .refl _, forall₂_of_mem (List.forall_mem_cons.2 ⟨ihleft, ihchain⟩) hchain⟩
    next => rw [ihleft hleft, ihright hright, Bool.and_self]
  | ternary x₁ x₂ x₃ o ih₁ ih₂ ih₃ =>
    cases y <;> simp at h
    rw [same, ih₁ h.1, ih₂ h.2.1, ih₃ h.2.2, Bool.and_self, Bool.and_self]
  | call kind callee args o ihcallee ihargs =>
    cases y <;> simp only [shapeOf_terminal, shapeOf_unary, shapeOf_binary, shapeOf_ternary,
      shapeOf_call, reduceCtorEq, Shape.call.injEq] at h
    obtain ⟨rfl, hcallee, hargs⟩ := h
    rw [same_call, beq_self_eq_true, Bool.true_and, ihcallee hcallee, Bool.true_and,
      allPaired_iff_forall₂]
    exact forall₂_of_mem ihargs (map_eq_map_iff_forall₂.1 hargs)

/-- Where the order of chains counts, expressions are the same exactly if they have one shape. -/
theorem same_iff_shapeOf_eq (hc : c.chains = false) {x y : Expr} :
    c.same x y = true ↔ c.shapeOf x = c.shapeOf y := by
  refine ⟨fun h ↦ ?_, same_of_shapeOf_eq⟩
  induction x using Expr.inductionOnChains generalizing y with
  | terminal s o => cases y <;> simp_all [same]
  | unary op x o ih =>
    cases y <;> simp only [same, Bool.false_eq_true, Bool.and_eq_true, beq_iff_eq] at h
    rw [shapeOf_unary, shapeOf_unary, h.1, ih h.2]
  | binary op left right o ihleft ihright _ =>
    -- Without chains the operands are compared in their places, as in the shape.
    cases y <;> simp only [same_binary, same, hc, Bool.false_and, Bool.false_eq_true, if_false,
      Bool.and_eq_true, beq_iff_eq] at h
    rw [shapeOf_binary, shapeOf_binary, h.1, ihleft h.2.1, ihright h.2.2]
  | ternary x₁ x₂ x₃ o ih₁ ih₂ ih₃ =>
    cases y <;> simp only [same, Bool.false_eq_true, Bool.and_eq_true] at h
    rw [shapeOf_ternary, shapeOf_ternary, ih₁ h.1.1, ih₂ h.1.2, ih₃ h.2]
  | call kind callee args o ihcallee ihargs =>
    cases y <;> simp only [same_call, same, Bool.false_eq_true, Bool.and_eq_true, beq_iff_eq,
      allPaired_iff_forall₂] at h
    rw [shapeOf_call, shapeOf_call, h.1.1, ihcallee h.1.2,
      map_eq_map_iff_forall₂.2 (forall₂_of_mem ihargs h.2)]

/-- Where the order of chains counts, expressions are compared by shape alone. -/
theorem same_eq (hc : c.chains = false) (x y : Expr) : c.same x y = x.same c.texts y := by
  induction x using Expr.inductionOnChains generalizing y with
  | terminal s o => cases y <;> simp [same, Expr.same, allPaired_beq]
  | unary op x o ih => cases y <;> simp [same, Expr.same, ih]
  | binary op left right o ihleft ihright _ =>
    cases y <;> simp [same, same_binary, Expr.same, hc, ihleft, ihright, Bool.and_assoc]
  | ternary x₁ x₂ x₃ o ih₁ ih₂ ih₃ => cases y <;> simp [same, Expr.same, ih₁, ih₂, ih₃]
  | call kind callee args o ihcallee ihargs =>
    cases y with
    | call kind' callee' args' o' =>
      have hargs : allPaired c.same args args' =
          allPaired (fun x y ↦ Expr.same c.texts x.val y) args.attach args' := by
        rw [allPaired_map Subtype.val, List.attach_map_subtype_val]
        exact allPaired_congr ihargs args'
      rw [same_call, ihcallee, hargs, Expr.same, allPaired_eq_all, List.length_attach]
      simp only [Bool.and_assoc, Bool.and_left_comm]
    | _ => simp [same, Expr.same]

end Comparison

/-- **Chains are compared as multisets of operands.** Two operations of one logical operator are the
same exactly if a bijection between the operands of their chains pairs each with one that it is the
same as, so operands that are no chains themselves may be joined in any order. Told not to disregard
the order of chains, this is the comparison by shape alone: expressions are the same exactly if they
have one shape, and then they are the same as well if the order of chains is disregarded. -/
theorem Document.chains_compare_as_multisets (d : Document) :
    (∀ (op : Operator) (left right left' right' : Expr) (o o' : Origin), op.isLogical = true →
      (d.upToChains.same (.binary op left right o) (.binary op left' right' o') = true ↔
        ∃ e : Fin (Expr.chain op (.binary op left right o)).length ≃
            Fin (Expr.chain op (.binary op left' right' o')).length,
          ∀ i, d.upToChains.same ((Expr.chain op (.binary op left right o)).get i)
            ((Expr.chain op (.binary op left' right' o')).get (e i)) = true)) ∧
      (∀ (op : Operator) (links links' : List (Expr × Origin)) (last last' : Expr),
        op.isLogical = true →
        (links.map Prod.fst ++ [last]).Perm (links'.map Prod.fst ++ [last']) →
        (∀ x ∈ links.map Prod.fst ++ [last], x.joins op = false) →
        d.upToChains.same (Expr.joined op last links) (Expr.joined op last' links') = true) ∧
      (∀ x y, (Comparison.mk d.tokenTexts false).same x y = d.exactly.same x y ∧
        (d.exactly.same x y = true ↔ d.shapeOf x = d.shapeOf y)) ∧
      (∀ x y, d.exactly.same x y = x.same d.tokenTexts y) ∧
      ∀ x y, d.exactly.same x y = true → d.upToChains.same x y = true := by
  refine ⟨fun op left right left' right' o o' hop ↦ ?_, fun op links links' last last' hop ↦ ?_,
    fun x y ↦ ⟨rfl, Comparison.same_iff_shapeOf_eq (c := d.exactly) rfl⟩,
    Comparison.same_eq (c := d.exactly) rfl, fun x y h ↦ ?_⟩
  · rw [Comparison.same_binary_iff_matchable (c := d.upToChains) rfl hop]
    exact matchable_iff_exists_equiv
  · exact Comparison.same_joined (c := d.upToChains) rfl hop
  · exact Comparison.same_of_shapeOf_eq (c := d.upToChains)
      ((Comparison.same_iff_shapeOf_eq (c := d.exactly) rfl).1 h)

/-- A condition is the same with its last operand in front. -/
theorem Document.rotated_chain_is_same :
    ∃ d a b c o o', d = Document.ofText "Х=А ИЛИ(Б ИЛИ В);" ∧
      d.nodes[8]?.bind Node.expr? = some (Expr.joined .or c [(a, o), (b, o')]) ∧
      d.upToChains.same (Expr.joined .or c [(a, o), (b, o')])
        (Expr.joined .or b [(c, o), (a, o')]) = true ∧
      (∃ e : Fin (Expr.chain .or (Expr.joined .or c [(a, o), (b, o')])).length ≃
          Fin (Expr.chain .or (Expr.joined .or b [(c, o), (a, o')])).length,
        ∀ i, d.upToChains.same
          ((Expr.chain .or (Expr.joined .or c [(a, o), (b, o')])).get i)
          ((Expr.chain .or (Expr.joined .or b [(c, o), (a, o')])).get (e i)) = true) ∧
      d.exactly.same (Expr.joined .or c [(a, o), (b, o')])
        (Expr.joined .or c [(a, o'), (b, o)]) = true ∧
      d.upToChains.same (Expr.joined .or c [(a, o), (b, o')])
        (Expr.joined .or c [(a, o'), (b, o)]) = true := by
  obtain ⟨d, hd⟩ : ∃ d, d = Document.ofText "Х=А ИЛИ(Б ИЛИ В);" := ⟨_, rfl⟩
  -- What is computed is only that the chain has three operands; the rest follows from the theorem.
  have hread : (d.nodes[8]?.bind Node.expr?).any (fun x ↦
      (Expr.chain .or x).map (·.joins .or) = [false, false, false]) = true := by
    rw [hd, Document.ofText_eq_evaluated]
    decide +kernel
  obtain ⟨x, hx, hchain⟩ := (Option.any_eq_true _ _).1 hread
  replace hchain := of_decide_eq_true hchain
  obtain ⟨links, c, hc, rfl⟩ := Expr.exists_joined .or x
  rw [Expr.chain_joined hc] at hchain
  have hlength : links.length = 2 := by simpa using congrArg List.length hchain
  obtain ⟨⟨a, o⟩, ⟨b, o'⟩, rfl⟩ := List.length_eq_two.1 hlength
  have hperm : [a, b, c].Perm [c, a, b] :=
    ((List.Perm.swap _ _ _).cons _).trans (List.Perm.swap _ _ _)
  obtain ⟨hpaired, hjoined, hshape, -, hexactly⟩ := d.chains_compare_as_multisets
  have hsame := hjoined .or [(a, o), (b, o')] [(c, o), (a, o')] c b rfl hperm
    (by simpa using hchain)
  have hmoved : d.exactly.same (Expr.joined .or c [(a, o), (b, o')])
      (Expr.joined .or c [(a, o'), (b, o)]) = true := (hshape _ _).2.2 rfl
  exact ⟨d, a, b, c, o, o', hd, hx, hsame, (hpaired .or _ _ _ _ o o rfl).1 hsame, hmoved,
    hexactly _ _ hmoved⟩

end BslLint
