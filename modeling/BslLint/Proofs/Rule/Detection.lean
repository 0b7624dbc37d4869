import BslLint.Grammar.Parse
import BslLint.Proofs.Expression.Positions
import BslLint.Proofs.Expression.Provenance
import BslLint.Rule.IdenticalExpressions

/-!
# What the rule about equal operands reports

The search goes down an expression and leaves out what is read from an object or a collection, and
along a chain it compares the left operand with each operand and each rest. Here it is said without
a search which operations are reported: those at a position that is not sheltered, with an operator
whose operands are compared, that repeat their left operand (`IsReported`). The findings are these
operations in the order of their positions (`reports_exactly`).

What is found in the parts of an expression is put together to a `Listing` of the whole.
-/

namespace BslLint.IdenticalExpressions

/-- An operation as an expression. -/
def Operation.expr (o : Operation) : Expr := .binary o.operator o.left o.right o.origin

theorem Operation.expr_injective : Function.Injective Operation.expr := by
  rintro ⟨op, left, right, origin⟩ ⟨op', left', right', origin'⟩ h
  simpa [Operation.expr] using h

/-! ### Repetition -/

/-- The left operand of an operation comes again. -/
inductive Repeats (c : Comparison) (o : Operation) : Prop
  /-- It is the same as the right operand. -/
  | sides (h : c.same o.left o.right = true)
  /-- It is the same as a later operand of the chain that the operation begins. -/
  | operand {j : Nat} {x : Expr} (hop : o.operator.isLogical = true) (hj : 1 ≤ j)
    (hx : (Expr.chain o.operator o.expr)[j]? = some x) (h : c.same o.left x = true)
  /-- It is the same as a rest of that chain, from a later operand on that is not the last. -/
  | rest {j : Nat} {x : Expr} (hop : o.operator.isLogical = true) (hj : 1 ≤ j)
    (hlast : j + 1 < (Expr.chain o.operator o.expr).length)
    (hx : o.expr.at? (List.replicate j 1) = some x) (h : c.same o.left x = true)

variable {c : Comparison} {op : Operator} {x y : Expr}

/-- The expression `x` is the same as an operand of a chain, or as a rest of it that is not the last
operand. The whole chain is a rest too. -/
def Occurs (c : Comparison) (op : Operator) (x y : Expr) : Prop :=
  (∃ e ∈ Expr.chain op y, c.same x e = true) ∨
    ∃ j z, j + 1 < (Expr.chain op y).length ∧ y.at? (List.replicate j 1) = some z ∧
      c.same x z = true

/-- Where there is no chain, there is one operand to compare with. -/
theorem occurs_of_joins_eq_false (h : y.joins op = false) :
    Occurs c op x y ↔ c.same x y = true := by
  simp [Occurs, Expr.chain_of_joins_eq_false h]

/-- An operand of a chain is its first link, or it stands in the rest. -/
theorem occurs_binary {left right : Expr} {o : Origin} :
    Occurs c op x (.binary op left right o) ↔
      c.same x (.binary op left right o) = true ∨ c.same x left = true ∨ Occurs c op x right := by
  have hpos := List.length_pos_of_ne_nil (Expr.chain_ne_nil op right)
  rw [Occurs, Expr.chain_binary]
  constructor
  · rintro (⟨e, he, h⟩ | ⟨_ | j, z, hlast, hz, h⟩)
    · obtain rfl | he := List.mem_cons.1 he
      · exact .inr (.inl h)
      · exact .inr (.inr (.inl ⟨e, he, h⟩))
    · obtain rfl := Option.some.inj hz
      exact .inl h
    · exact .inr (.inr (.inr ⟨j, z, Nat.lt_of_succ_lt_succ hlast, hz, h⟩))
  · rintro (h | h | ⟨e, he, h⟩ | ⟨j, z, hlast, hz, h⟩)
    · exact .inr ⟨0, _, Nat.succ_lt_succ hpos, rfl, h⟩
    · exact .inl ⟨left, List.mem_cons_self, h⟩
    · exact .inl ⟨e, List.mem_cons_of_mem _ he, h⟩
    · exact .inr ⟨j + 1, z, Nat.succ_lt_succ hlast, hz, h⟩

/-- The walk along a chain looks at all operands and rests but the whole chain. -/
theorem same_or_occursInChain_iff :
    c.same x y = true ∨ occursInChain c op x y = true ↔ Occurs c op x y := by
  induction y using occursInChain.induct with
  | case1 op' left right o ih =>
    rw [occursInChain]
    by_cases hop : op' = op
    · subst hop
      rw [occurs_binary, ← ih, beq_self_eq_true, Bool.true_and, Bool.or_eq_true, Bool.or_eq_true,
        or_assoc]
    · have hjoins : (Expr.binary op' left right o).joins op = false := decide_eq_false hop
      simp [occurs_of_joins_eq_false hjoins, hop]
  | case2 y hy =>
    have hjoins : y.joins op = false := by
      cases y with
      | binary => exact absurd rfl (hy _ _ _ _)
      | _ => rfl
    simp [occurs_of_joins_eq_false hjoins, occursInChain]

/-- **What is reported repeats its left operand**, and whatever does is reported. -/
theorem isRedundant_iff {o : Operation} : isRedundant c o = true ↔ Repeats c o := by
  have hchain : Expr.chain o.operator o.expr = o.left :: Expr.chain o.operator o.right :=
    Expr.chain_binary ..
  rw [isRedundant, Bool.or_eq_true, Bool.and_eq_true]
  constructor
  · -- The chain begins with the left operand, so places in its rest are one less.
    rintro (h | ⟨hop, h⟩)
    · exact .sides h
    · obtain ⟨e, he, h⟩ | ⟨j, z, hlast, hz, h⟩ := same_or_occursInChain_iff.1 (.inr h)
      · obtain ⟨j, hj⟩ := List.mem_iff_getElem?.1 he
        exact .operand hop (Nat.le_add_left 1 j) (by rw [hchain]; exact hj) h
      · exact .rest hop (Nat.le_add_left 1 j) (by rw [hchain]; exact Nat.succ_lt_succ hlast) hz h
  · intro h
    rw [or_iff_not_imp_left]
    intro hsides
    have hoccurs (hop : o.operator.isLogical = true) (h : Occurs c o.operator o.left o.right) :
        o.operator.isLogical = true ∧ occursInChain c o.operator o.left o.right = true :=
      ⟨hop, (same_or_occursInChain_iff.2 h).resolve_left hsides⟩
    cases h with
    | sides h => exact absurd h hsides
    | @operand j e hop hj he h =>
      obtain ⟨j, rfl⟩ := Nat.exists_eq_add_of_le' hj
      rw [hchain] at he
      exact hoccurs hop (.inl ⟨e, List.mem_of_getElem? he, h⟩)
    | @rest j z hop hj hlast hz h =>
      obtain ⟨j, rfl⟩ := Nat.exists_eq_add_of_le' hj
      rw [hchain] at hlast
      exact hoccurs hop (.inr ⟨j, z, Nat.lt_of_succ_lt_succ hlast, hz, h⟩)

/-! ### Listings -/

/-- Operations in the order of their positions: all that `kept` tells of, and nothing else. -/
structure Listing (kept : List Nat → Operation → Prop) (ps : List (List Nat))
    (os : List Operation) : Prop where
  /-- Positions ascend. -/
  sorted : ps.Pairwise (· < ·)
  /-- What is listed is kept. -/
  found : List.Forall₂ kept ps os
  /-- What is kept is listed. -/
  complete : ∀ p o, kept p o → p ∈ ps

namespace Listing

variable {kept kept' : List Nat → Operation → Prop} {ps qs : List (List Nat)}
  {os os' : List Operation}

/-- A position is listed if there is something to keep at it. -/
theorem mem_iff (h : Listing kept ps os) {p : List Nat} : p ∈ ps ↔ ∃ o, kept p o := by
  refine ⟨fun hp ↦ ?_, fun ⟨o, ho⟩ ↦ h.complete p o ho⟩
  obtain ⟨o, -, ho⟩ := exists_of_mem_right h.found.flip hp
  exact ⟨o, ho⟩

theorem nil (h : ∀ p o, ¬ kept p o) : Listing kept [] [] :=
  ⟨.nil, .nil, fun p o ho ↦ absurd ho (h p o)⟩

theorem congr (h : Listing kept ps os) (hkept : ∀ p o, kept p o ↔ kept' p o) :
    Listing kept' ps os :=
  ⟨h.sorted, h.found.imp fun p o ↦ (hkept p o).1, fun p o ho ↦ h.complete p o ((hkept p o).2 ho)⟩

/-- Listings may be put together if the positions of the one come before those of the other. -/
theorem append (h : Listing kept ps os) (h' : Listing kept' qs os')
    (hlt : ∀ p o q o', kept p o → kept' q o' → p < q) :
    Listing (fun p o ↦ kept p o ∨ kept' p o) (ps ++ qs) (os ++ os') := by
  refine ⟨List.pairwise_append.2 ⟨h.sorted, h'.sorted, fun p hp q hq ↦ ?_⟩, ?_, ?_⟩
  · obtain ⟨o, ho⟩ := h.mem_iff.1 hp
    obtain ⟨o', ho'⟩ := h'.mem_iff.1 hq
    exact hlt p o q o' ho ho'
  · exact List.rel_append (h.found.imp fun _ _ ↦ .inl) (h'.found.imp fun _ _ ↦ .inr)
  · rintro p o (ho | ho)
    · exact List.mem_append_left _ (h.complete p o ho)
    · exact List.mem_append_right _ (h'.complete p o ho)

/-- The operations of a part, seen from the whole. -/
theorem shift (h : Listing kept ps os) (i : Nat) :
    Listing (fun p o ↦ ∃ q, p = i :: q ∧ kept q o) (ps.map (i :: ·)) os := by
  refine ⟨List.pairwise_map.2 (h.sorted.imp fun hlt ↦ List.cons_lt_cons_iff.2 (.inr ⟨rfl, hlt⟩)),
    List.forall₂_map_left_iff.2 (h.found.imp fun p o ho ↦ ⟨p, rfl, ho⟩), ?_⟩
  rintro _ o ⟨q, rfl, ho⟩
  exact List.mem_map_of_mem (h.complete q o ho)

end Listing

/-! ### The search for operations -/

section

variable (keep : Operation → Bool)

/-- The operation stands at the position, which is not sheltered, its operands are compared, and it
is one to keep. -/
structure IsKept (x : Expr) (p : List Nat) (o : Operation) : Prop where
  /-- The operation stands there. -/
  at_eq : x.at? p = some o.expr
  /-- Its operands are compared. -/
  isCompared : isCompared o.operator = true
  /-- It is not part of what is read from something. -/
  notSheltered : ¬ x.IsSheltered p
  /-- It is one to keep. -/
  keep : keep o = true

variable {keep} {p : List Nat} {o : Operation} {i : Nat}

theorem isKept_nil_iff :
    IsKept keep x [] o ↔ x = o.expr ∧ isCompared o.operator = true ∧ keep o = true :=
  ⟨fun h ↦ ⟨Option.some.inj h.at_eq, h.isCompared, h.keep⟩,
    fun ⟨hx, hcompared, hkeep⟩ ↦ ⟨congrArg some hx, hcompared, Expr.not_isSheltered_nil, hkeep⟩⟩

/-- What is kept further down is kept in a part, unless accesses shelter it. -/
theorem isKept_cons_iff :
    IsKept keep x (i :: p) o ↔
      x.isAccess = false ∧ ∃ y, x.direct[i]? = some y ∧ IsKept keep y p o := by
  constructor
  · rintro ⟨hat, hcompared, hsheltered, hkeep⟩
    obtain ⟨y, hy, hat⟩ := Option.bind_eq_some_iff.1 hat
    rw [Expr.isSheltered_cons_iff, not_or] at hsheltered
    exact ⟨by simpa using hsheltered.1, y, hy, hat, hcompared,
      fun h ↦ hsheltered.2 ⟨y, hy, h⟩, hkeep⟩
  · rintro ⟨haccess, y, hy, hat, hcompared, hsheltered, hkeep⟩
    refine ⟨?_, hcompared, fun h ↦ ?_, hkeep⟩
    · rw [Expr.at?, hy]
      exact hat
    · obtain h | ⟨z, hz, h⟩ := Expr.isSheltered_cons_iff.1 h
      · exact absurd h (by simp [haccess])
      · obtain rfl := Option.some.inj (hy.symm.trans hz)
        exact hsheltered h

/-- The expression as an operation whose operands are compared. -/
def own : Expr → List Operation
  | .binary op left right o => if isCompared op then [⟨op, left, right, o⟩] else []
  | _ => []

theorem operationsOfAll_eq_flatMap (xs : List Expr) :
    operationsOfAll xs = xs.flatMap operations := by
  induction xs with
  | nil => rfl
  | cons x xs ih => rw [operationsOfAll, ih, List.flatMap_cons]

/-- An expression is searched from left to right, if it is not an access. A name that is called
holds nothing. -/
theorem operations_eq (hx : x.CallsNames) :
    operations x = own x ++ if x.isAccess then [] else x.direct.flatMap operations := by
  cases x with
  | terminal => rfl
  | unary => simp [operations, own, Expr.isAccess, Expr.direct]
  | binary op =>
    cases op <;> simp [operations, own, Expr.isAccess, Expr.direct, isEntered, isCompared]
  | ternary => simp [operations, own, Expr.isAccess, Expr.direct]
  | call =>
    obtain ⟨⟨s, o, rfl⟩, -⟩ := Expr.callsNames_call.1 hx
    simp [operations, own, Expr.isAccess, Expr.direct, operationsOfAll_eq_flatMap]

/-- An expression is an operation of its own if its operands are compared. -/
theorem mem_own_iff : o ∈ own x ↔ x = o.expr ∧ isCompared o.operator = true := by
  constructor
  · intro h
    unfold own at h
    split at h
    · split at h
      · obtain rfl := List.mem_singleton.1 h
        exact ⟨rfl, by assumption⟩
      · exact nomatch h
    · exact nomatch h
  · rintro ⟨rfl, hcompared⟩
    rw [Operation.expr, own, if_pos hcompared]
    exact List.mem_singleton_self _

theorem own_eq_nil_or_singleton (x : Expr) : own x = [] ∨ ∃ o, own x = [o] := by
  cases x with
  | binary op => by_cases h : isCompared op = true <;> simp [own, h]
  | _ => exact .inl rfl

/-- The expression itself is listed before its parts. -/
theorem exists_listing_own (keep : Operation → Bool) (x : Expr) :
    ∃ ps, Listing (fun p o ↦ p = [] ∧ IsKept keep x [] o) ps ((own x).filter keep) := by
  have hkept (o : Operation) : IsKept keep x [] o ↔ o ∈ (own x).filter keep := by
    rw [isKept_nil_iff, List.mem_filter, mem_own_iff, and_assoc]
  have hown : (own x).filter keep = [] ∨ ∃ o, (own x).filter keep = [o] := by
    obtain h | ⟨o, h⟩ := own_eq_nil_or_singleton x <;> rw [h]
    · exact .inl rfl
    · cases hkeep : keep o <;> simp [hkeep]
  simp only [hkept]
  obtain h | ⟨o, h⟩ := hown <;> rw [h]
  · exact ⟨[], .nil (by simp)⟩
  · exact ⟨[[]], List.pairwise_singleton _ _, .cons (by simp) .nil, by simp +contextual⟩

/-- What is found in parts that stand side by side, the first of which has the number `i`. -/
theorem exists_listing_flatMap {xs : List Expr}
    (h : ∀ x ∈ xs, ∃ ps, Listing (IsKept keep x) ps ((operations x).filter keep)) (i : Nat) :
    ∃ ps, Listing (fun p o ↦ ∃ j y q, p = (i + j) :: q ∧ xs[j]? = some y ∧ IsKept keep y q o) ps
      ((xs.flatMap operations).filter keep) := by
  induction xs generalizing i with
  | nil => exact ⟨[], .nil (by simp)⟩
  | cons x xs ih =>
    obtain ⟨hx, hxs⟩ := List.forall_mem_cons.1 h
    obtain ⟨ps, hps⟩ := hx
    obtain ⟨qs, hqs⟩ := ih hxs (i + 1)
    refine ⟨ps.map (i :: ·) ++ qs, ?_⟩
    rw [List.flatMap_cons, List.filter_append]
    refine ((hps.shift i).append hqs ?_).congr ?_
    · -- Positions in the first part come before those in the parts behind it.
      rintro _ o _ o' ⟨p, rfl, -⟩ ⟨j, y, q, rfl, -⟩
      exact List.cons_lt_cons_iff.2 (.inl (by omega))
    · intro p o
      constructor
      · rintro (⟨q, rfl, ho⟩ | ⟨j, y, q, rfl, hy, ho⟩)
        · exact ⟨0, x, q, rfl, rfl, ho⟩
        · exact ⟨j + 1, y, q, by rw [Nat.add_right_comm, Nat.add_assoc], hy, ho⟩
      · rintro ⟨_ | j, y, q, rfl, hy, ho⟩
        · obtain rfl := Option.some.inj hy
          exact .inl ⟨q, rfl, ho⟩
        · exact .inr ⟨j, y, q, by rw [Nat.add_right_comm, Nat.add_assoc], hy, ho⟩

/-- **The search finds what is to be kept, in the order of positions.** -/
theorem exists_listing (keep : Operation → Bool) (hx : x.CallsNames) :
    ∃ ps, Listing (IsKept keep x) ps ((operations x).filter keep) := by
  induction x using Expr.inductionOnDirect with
  | step x ih =>
    obtain ⟨ps, hps⟩ := exists_listing_own keep x
    rw [operations_eq hx, List.filter_append]
    -- Nothing is searched behind an access, and `IsKept` says the same of its position.
    cases haccess : x.isAccess with
    | true =>
      refine ⟨ps, ?_⟩
      rw [if_pos rfl, List.filter_nil, List.append_nil]
      refine hps.congr fun p o ↦ ?_
      cases p with
      | nil => simp
      | cons i p => simp [isKept_cons_iff, haccess]
    | false =>
      obtain ⟨qs, hqs⟩ := exists_listing_flatMap
        (fun y hy ↦ ih y hy (hx.of_mem_direct hy)) 0
      refine ⟨ps ++ qs, ?_⟩
      rw [if_neg Bool.false_ne_true]
      refine (hps.append hqs ?_).congr fun p o ↦ ?_
      · rintro _ o _ o' ⟨rfl, -⟩ ⟨j, y, q, rfl, -⟩
        exact List.nil_lt_cons _ _
      · cases p with
        | nil => simp
        | cons i p => simp [isKept_cons_iff, haccess]

/-- What the search finds stands somewhere in the expression, -/
theorem exists_isKept_of_mem (hx : x.CallsNames) (ho : o ∈ operations x) (hkeep : keep o = true) :
    ∃ p, IsKept keep x p o := by
  obtain ⟨ps, hps⟩ := exists_listing keep hx
  obtain ⟨p, -, hkept⟩ := exists_of_mem_right hps.found (List.mem_filter.2 ⟨ho, hkeep⟩)
  exact ⟨p, hkept⟩

/-- and what stands there is found. -/
theorem mem_filter_of_isKept (hx : x.CallsNames) (h : IsKept keep x p o) :
    o ∈ (operations x).filter keep := by
  obtain ⟨ps, hps⟩ := exists_listing keep hx
  obtain ⟨o', ho', hkept⟩ := exists_of_mem_right hps.found.flip (hps.complete p o h)
  obtain rfl : o' = o :=
    Operation.expr_injective (Option.some.inj (hkept.at_eq.symm.trans h.at_eq))
  exact ho'

end

/-! ### Chains of plain operands -/

theorem joins_eq_of_same (h : c.same x y = true) : x.joins op = y.joins op := by
  cases x <;> cases y <;> simp_all [Comparison.same, Comparison.same_binary, Expr.joins]

/-- Where no operand of a chain is a chain itself, none is the same as a rest. -/
theorem repeats_iff_of_plain {o : Operation} (hop : o.operator.isLogical = true)
    (hplain : ∀ e ∈ Expr.chain o.operator o.expr, e.joins o.operator = false) :
    Repeats c o ↔ ∃ j e, 1 ≤ j ∧ (Expr.chain o.operator o.expr)[j]? = some e ∧
      c.same o.left e = true := by
  have hchain : Expr.chain o.operator o.expr = o.left :: Expr.chain o.operator o.right :=
    Expr.chain_binary ..
  have hleft : o.left.joins o.operator = false := hplain _ (by simp [hchain])
  constructor
  · rintro (h | @⟨j, e, -, hj, he, h⟩ | @⟨j, z, -, -, hlast, hz, h⟩)
    · have hright : o.right.joins o.operator = false := by rw [← joins_eq_of_same h, hleft]
      exact ⟨1, o.right, Nat.le_refl 1, by simp [hchain, Expr.chain_of_joins_eq_false hright], h⟩
    · exact ⟨j, e, hj, he, h⟩
    · obtain ⟨left, right, origin, hlink, -⟩ := Expr.exists_operation_of_link hlast
      obtain rfl := Option.some.inj (hz.symm.trans hlink)
      have hjoins : (Expr.binary o.operator left right origin).joins o.operator = true :=
        decide_eq_true rfl
      rw [joins_eq_of_same h, hjoins] at hleft
      exact nomatch hleft
  · rintro ⟨j, e, hj, he, h⟩
    exact .operand hop hj he h

/-! ### What is reported -/

/-- The operation stands at the position of an expression and is to be reported. -/
structure IsReported (c : Comparison) (x : Expr) (p : List Nat) (o : Operation) : Prop where
  /-- The operation stands there. -/
  at_eq : x.at? p = some o.expr
  /-- It does not lie inside of an operand of an access. -/
  notSheltered : ¬ x.IsSheltered p
  /-- It is not an access, an addition or a multiplication. -/
  operator_notMem : o.operator ∉ [.dereference, .indexAccess, .add, .multiply]
  /-- Its left operand comes again. -/
  repeats : Repeats c o

/-- The operands of all operators are compared but for two accesses and two sums. -/
theorem isCompared_iff {op : Operator} :
    isCompared op = true ↔ op ∉ [.dereference, .indexAccess, .add, .multiply] := by
  cases op <;> simp [isCompared]

/-- What the search keeps is what is to be reported. -/
theorem isKept_iff_isReported {p : List Nat} {o : Operation} :
    IsKept (isRedundant c) x p o ↔ IsReported c x p o :=
  ⟨fun h ↦ ⟨h.at_eq, h.notSheltered, isCompared_iff.1 h.isCompared, isRedundant_iff.1 h.keep⟩,
    fun h ↦ ⟨h.at_eq, isCompared_iff.2 h.operator_notMem, h.notSheltered,
      isRedundant_iff.2 h.repeats⟩⟩

mutual

/-- Operations are found in preorder. -/
theorem operations_sublist : ∀ x : Expr, ((operations x).map Operation.expr).Sublist x.parts
  | .terminal .. => List.nil_sublist _
  | .unary _ x _ => (operations_sublist x).cons _
  -- The operation itself is kept or left out, and its sides are searched in their order.
  | .binary op left right o => by
    have hsides := (operations_sublist left).append (operations_sublist right)
    rw [operations, Expr.parts]
    split
    · rw [List.append_assoc, List.map_append, List.map_append]
      split
      · exact hsides.cons_cons _
      · exact hsides.cons _
    · exact List.nil_sublist _
  | .ternary x y z _ => by
    rw [operations, Expr.parts, List.append_assoc, List.map_append, List.map_append]
    exact ((operations_sublist x).append
      ((operations_sublist y).append (operations_sublist z))).cons _
  | .call _ callee args _ => by
    rw [operations, Expr.parts]
    exact ((operationsOfAll_sublist args).trans (List.sublist_append_right _ _)).cons _

theorem operationsOfAll_sublist :
    ∀ xs : List Expr, ((operationsOfAll xs).map Operation.expr).Sublist (Expr.partsList xs)
  | [] => .slnil
  | x :: xs => by
    rw [operationsOfAll, Expr.partsList, List.map_append]
    exact (operations_sublist x).append (operationsOfAll_sublist xs)

end

/-- Only the operation that stands at a position can be reported there. -/
theorem exists_isReported_iff {p : List Nat} {o : Operation} (hat : x.at? p = some o.expr) :
    (∃ o', IsReported c x p o') ↔ IsReported c x p o := by
  refine ⟨fun ⟨o', h⟩ ↦ ?_, fun h ↦ ⟨o, h⟩⟩
  obtain rfl : o' = o := Operation.expr_injective (Option.some.inj (h.at_eq.symm.trans hat))
  exact h

/-- A link of a chain of plain operands is reported if its operand comes again further on. -/
theorem exists_isReported_link_iff {p : List Nat} {i : Nat} {a : Expr} (hop : op.isLogical = true)
    (hy : x.at? p = some y) (hsheltered : ¬ x.IsSheltered p)
    (hplain : ∀ e ∈ Expr.chain op y, e.joins op = false) (hi : i + 1 < (Expr.chain op y).length)
    (ha : (Expr.chain op y)[i]? = some a) :
    (∃ o, IsReported c x (p ++ List.replicate i 1) o) ↔
      ∃ j b, i < j ∧ (Expr.chain op y)[j]? = some b ∧ c.same a b = true := by
  obtain ⟨left, right, origin, hlink, hchain⟩ := Expr.exists_operation_of_link hi
  let o : Operation := ⟨op, left, right, origin⟩
  have hdrop : Expr.chain o.operator o.expr = (Expr.chain op y).drop i := hchain
  have hat : x.at? (p ++ List.replicate i 1) = some o.expr := by
    -- A link of the chain is an operation of its own, with the rest of the chain behind it.
    rw [Expr.at?_append, hy]
    exact hlink
  obtain rfl : left = a := by
    rw [Expr.chain_binary] at hchain
    have hhead := congrArg (·[0]?) hchain
    simpa [ha] using hhead
  have hoperator : op ∉ [.dereference, .indexAccess, .add, .multiply] := by
    cases op <;> first | decide | exact nomatch hop
  have hreported : IsReported c x (p ++ List.replicate i 1) o ↔ Repeats c o :=
    ⟨fun h ↦ h.repeats, fun h ↦ ⟨hat, Expr.not_isSheltered_append_replicate hsheltered hy hop
      (Nat.lt_of_succ_lt hi), hoperator, h⟩⟩
  rw [exists_isReported_iff hat, hreported, repeats_iff_of_plain hop
    (fun e he ↦ hplain e (List.mem_of_mem_drop (hdrop ▸ he)))]
  simp only [hdrop, List.getElem?_drop]
  constructor
  · rintro ⟨j, e, hj, he, h⟩
    exact ⟨i + j, e, by omega, he, h⟩
  · rintro ⟨j, b, hj, hb, h⟩
    exact ⟨j - i, b, by omega, by rw [Nat.add_sub_cancel' (Nat.le_of_lt hj), hb], h⟩

/-- **The rule reports just the operations that repeat their left operand.** Where an expression is
large enough and its node comes to something, the findings are the operations that are to be
reported, in the order of their positions. So in a chain of operands that are no chains themselves,
the links that are reported are those whose operand comes again at a later place. -/
theorem reports_exactly (d : Document) (min : Nat) (n : Node) (x : Expr)
    (hsize : min ≤ n.children.length) (hx : n.expr? = some x) :
    ∃ (ps : List (List Nat)) (os : List Operation),
      (pass min).visit d n () =
        ⟨os.map fun o ↦ .atNode d n (message d n o), .done .skipChildren, ()⟩ ∧
      List.Forall₂ (IsReported d.upToChains x) ps os ∧
      (∀ p, p ∈ ps ↔ ∃ o, IsReported d.upToChains x p o) ∧
      ps.Pairwise (· < ·) ∧ (os.map Operation.expr).Sublist x.parts ∧
      ∀ (op : Operator) (p : List Nat) (y : Expr), op.isLogical = true → x.at? p = some y →
        ¬ x.IsSheltered p → (∀ e ∈ Expr.chain op y, e.joins op = false) →
        ∀ i a, i + 1 < (Expr.chain op y).length → (Expr.chain op y)[i]? = some a →
          (p ++ List.replicate i 1 ∈ ps ↔
            ∃ j b, i < j ∧ (Expr.chain op y)[j]? = some b ∧ d.upToChains.same a b = true) := by
  obtain ⟨ps, hps⟩ := exists_listing (isRedundant d.upToChains) (Node.stemsFrom_expr? hx).2
  replace hps := hps.congr fun p o ↦ isKept_iff_isReported
  refine ⟨ps, (operations x).filter (isRedundant d.upToChains), ?_, hps.found, fun p ↦ hps.mem_iff,
    hps.sorted, (List.filter_sublist.map _).trans (operations_sublist x), ?_⟩
  · simp only [pass, if_neg (Nat.not_lt.2 hsize), hx]
    rfl
  · intro op p y hop hy hsheltered hplain i a hi ha
    rw [hps.mem_iff]
    exact exists_isReported_link_iff hop hy hsheltered hplain hi ha

/-- Where the first condition of a chain comes again as the last one, the chain is reported and its
second link is not. -/
theorem repeated_condition_is_reported :
    ∃ d n a b a' o o', d = Document.ofText "Х=А И(Б И А);" ∧ d.nodes[8]? = some n ∧
      3 ≤ n.children.length ∧ n.expr? = some (Expr.joined .and a' [(a, o), (b, o')]) ∧
      ∃ (ps : List (List Nat)) (os : List Operation),
        (pass 3).visit d n () =
          ⟨os.map fun o ↦ .atNode d n (message d n o), .done .skipChildren, ()⟩ ∧
        ps.length = os.length ∧ [] ∈ ps ∧ [1] ∉ ps := by
  obtain ⟨d, hd⟩ : ∃ d, d = Document.ofText "Х=А И(Б И А);" := ⟨_, rfl⟩
  -- Which operands of the chain are the same, as a table.
  have hread : d.nodes[8]?.any (fun n ↦ 3 ≤ n.children.length ∧ n.expr?.any fun x ↦
      (Expr.chain .and x).map (fun a ↦
        (a.joins .and, (Expr.chain .and x).map (d.upToChains.same a))) =
        [(false, [true, false, true]), (false, [false, true, false]),
          (false, [true, false, true])]) = true := by
    rw [hd, Document.ofText_eq_evaluated]
    decide +kernel
  obtain ⟨n, hn, hread⟩ := (Option.any_eq_true _ _).1 hread
  obtain ⟨hsize, hread⟩ := of_decide_eq_true hread
  obtain ⟨x, hx, htable⟩ := (Option.any_eq_true _ _).1 hread
  replace htable := of_decide_eq_true htable
  obtain ⟨links, a', ha', rfl⟩ := Expr.exists_joined .and x
  rw [Expr.chain_joined ha'] at htable
  have hlength : links.length = 2 := by simpa using congrArg List.length htable
  obtain ⟨⟨a, o⟩, ⟨b, o'⟩, rfl⟩ := List.length_eq_two.1 hlength
  simp only [List.map_cons, List.map_nil, List.cons_append, List.nil_append, List.cons.injEq,
    Prod.mk.injEq] at htable
  obtain ⟨⟨ha, -, -, hsame, -⟩, ⟨hb, -, -, hother, -⟩, -⟩ := htable
  obtain ⟨ps, os, hvisit, hfound, -, -, -, hlinks⟩ := reports_exactly d 3 n _ hsize hx
  replace hlinks := hlinks .and [] _ rfl rfl Expr.not_isSheltered_nil
  rw [Expr.chain_joined ha'] at hlinks
  replace hlinks := hlinks (by simp [ha, hb, ha'])
  have hfirst : [] ∈ ps ↔ _ := hlinks 0 a (Nat.succ_lt_succ (Nat.succ_pos 1)) rfl
  have hsecond : [1] ∈ ps ↔ _ := hlinks 1 b (Nat.lt_succ_self 2) rfl
  refine ⟨d, n, a, b, a', o, o', hd, hn, hsize, hx, ps, os, hvisit, hfound.length_eq,
    hfirst.2 ⟨2, a', by decide, rfl, hsame⟩, fun hmem ↦ ?_⟩
  obtain ⟨j, y, hj, hy, hsame'⟩ := hsecond.1 hmem
  -- Behind the second link comes nothing but the last operand.
  have hlt : j < 3 := (List.getElem?_eq_some_iff.1 hy).1
  obtain rfl : j = 2 := by omega
  obtain rfl := Option.some.inj hy
  exact Bool.eq_false_iff.1 hother hsame'

end BslLint.IdenticalExpressions
