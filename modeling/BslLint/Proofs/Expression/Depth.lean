import BslLint.Proofs.Expression.Members
import Mathlib.Data.Option.Basic

/-!
# Expressions inside of expressions

`Node.expr?` goes down as many levels as the node is large, and each level takes what lies deeper
from the one below. All that is asked of a deeper level is about smaller nodes. So any depth that is
enough gives the same answer, and `Node.expr?` is the function that is its own `inner`
(`Node.expr?_eq`).
-/

namespace BslLint

/-- Two functions that agree on a list give the same answers for it. -/
theorem mapM_congr {m : Type → Type} [Monad m] [LawfulMonad m] {α β : Type} {f g : α → m β}
    {xs : List α} (h : ∀ x ∈ xs, f x = g x) : xs.mapM f = xs.mapM g := by
  induction xs with
  | nil => rfl
  | cons x xs ih =>
    obtain ⟨hx, hxs⟩ := List.forall_mem_cons.1 h
    rw [List.mapM_cons, List.mapM_cons, hx, ih hxs]

namespace Node

variable {n c : Node} {bound : Nat}

/-- A child is smaller, so what is smaller than the child is too. -/
theorem size_le_of_mem_children (hc : c ∈ n.children) (hn : n.size ≤ bound) : c.size ≤ bound :=
  Nat.le_of_lt (Nat.lt_of_lt_of_le (size_lt_of_mem_children hc) hn)

theorem mem_children_of_head? (h : n.children.head? = some c) : c ∈ n.children :=
  List.mem_of_head? h

theorem mem_children_of_find? {p : Node → Bool} (h : n.children.find? p = some c) :
    c ∈ n.children := List.mem_of_find?_eq_some h

end Node

namespace Expr

section

variable {f g : Node → Option Expr} {bound : Nat} (h : ∀ m : Node, m.size < bound → f m = g m)
  {n : Node} (hn : n.size ≤ bound)

include h hn

/-- The two functions for the expressions inside agree on the children. -/
theorem inner_congr {c : Node} (hc : c ∈ n.children) : f c = g c :=
  h c (Nat.lt_of_lt_of_le (Node.size_lt_of_mem_children hc) hn)

/-- So an argument comes to the same with both, -/
theorem argument?_congr : argument? f n = argument? g n := by
  rw [argument?, argument?]
  cases hc : n.childOfKind? .expression with
  | none => rfl
  | some c => exact inner_congr h hn (Node.mem_children_of_find? hc)

/-- a list of arguments, -/
theorem arguments?_congr : arguments? f n = arguments? g n := by
  refine Option.bind_congr fun list hlist ↦ ?_
  have hle := Node.size_le_of_mem_children (Node.mem_children_of_find? hlist) hn
  refine congrArg (Option.bind · _) (mapM_congr fun c hc ↦ argument?_congr h ?_)
  exact Node.size_le_of_mem_children (List.mem_of_mem_filter hc) hle

/-- a call, -/
theorem methodCall?_congr : methodCall? f n = methodCall? g n := by
  refine Option.bind_congr fun name _ ↦ Option.bind_congr fun token _ ↦
    Option.bind_congr fun doCall hdoCall ↦ congrArg (Option.bind · _) ?_
  exact arguments?_congr h (Node.size_le_of_mem_children (Node.mem_children_of_find? hdoCall) hn)

/-- the making of an object, -/
theorem newExpression?_congr : newExpression? f n = newExpression? g n := by
  rw [newExpression?_eq, newExpression?_eq]
  refine Option.bind_congr fun callee _ ↦ congrArg (Option.map _) ?_
  unfold optionalArguments?
  split
  next doCall hdoCall =>
    exact arguments?_congr h (Node.size_le_of_mem_children (Node.mem_children_of_find? hdoCall) hn)
  next => rfl

/-- a choice, -/
theorem ternaryOperator?_congr : ternaryOperator? f n = ternaryOperator? g n := by
  have hpart {i : Nat} {c : Node} (hc : (n.childrenOfKind .expression)[i]? = some c) : f c = g c :=
    inner_congr h hn (List.mem_of_mem_filter (List.mem_of_getElem? hc))
  unfold ternaryOperator?
  refine Option.bind_congr fun a ha ↦ Option.bind_congr' (hpart ha) fun x _ ↦
    Option.bind_congr fun b hb ↦ Option.bind_congr' (hpart hb) fun y _ ↦
    Option.bind_congr fun c hc ↦ Option.bind_congr' (hpart hc) fun z _ ↦ rfl

/-- an access, -/
theorem access?_congr : access? f n = access? g n := by
  refine Option.bind_congr fun access haccess ↦ ?_
  have hle := Node.size_le_of_mem_children (Node.mem_children_of_head? haccess) hn
  split
  · rfl
  · refine Option.bind_congr fun index hindex ↦ congrArg (Option.bind · _) ?_
    exact inner_congr h hle (Node.mem_children_of_find? hindex)
  · refine Option.bind_congr fun method hmethod ↦ congrArg (Option.bind · _) ?_
    exact methodCall?_congr h
      (Node.size_le_of_mem_children (Node.mem_children_of_find? hmethod) hle)
  · rfl

theorem modified?_congr (base : Expr) : modified? f base n = modified? g base n :=
  congrArg (Option.bind · _) (access?_congr h hn)

/-- all accesses of a value, -/
theorem allModified?_congr (base : Expr) : allModified? f base n = allModified? g base n := by
  have hfold (ms : List Node) (hms : ∀ m ∈ ms, m.size ≤ bound) (base : Expr) :
      ms.foldlM (modified? f) base = ms.foldlM (modified? g) base := by
    induction ms generalizing base with
    | nil => rfl
    | cons m ms ih =>
      obtain ⟨hm, hms⟩ := List.forall_mem_cons.1 hms
      rw [List.foldlM_cons, List.foldlM_cons, modified?_congr h hm]
      exact Option.bind_congr fun x _ ↦ ih hms x
  exact hfold _ (fun m hm ↦ Node.size_le_of_mem_children (List.mem_of_mem_filter hm) hn) base

/-- the value with them, -/
theorem complexIdentifier?_congr : complexIdentifier? f n = complexIdentifier? g n := by
  rw [complexIdentifier?_eq, complexIdentifier?_eq]
  refine Option.bind_congr fun first hfirst ↦ ?_
  have hle := Node.size_le_of_mem_children (Node.mem_children_of_head? hfirst) hn
  refine Option.bind_congr' ?_ fun base _ ↦ allModified?_congr h hn base
  unfold base?
  split
  · rfl
  · exact methodCall?_congr h hle
  · exact newExpression?_congr h hle
  · exact ternaryOperator?_congr h hle
  · rfl

/-- an operand, -/
theorem operand?_congr : operand? f n = operand? g n := by
  refine Option.bind_congr fun first hfirst ↦ ?_
  split
  · rfl
  · exact complexIdentifier?_congr h
      (Node.size_le_of_mem_children (Node.mem_children_of_find? hfirst) hn)
  · split
    · refine Option.bind_congr fun inside hinside ↦ ?_
      refine Option.bind_congr' ?_ fun base _ ↦ allModified?_congr h hn base
      exact inner_congr h hn (Node.mem_children_of_find? hinside)
    · rfl
  · rfl

/-- the pieces of a child, -/
theorem pieces?_congr : pieces? f n = pieces? g n := by
  unfold pieces?
  split
  · exact Option.bind_congr fun _ _ ↦ congrArg (Option.bind · _) (operand?_congr h hn)
  · rfl
  · rfl

/-- and an expression as a whole. -/
theorem ofNode?_congr : ofNode? f n = ofNode? g n := by
  unfold ofNode?
  split
  · refine congrArg (Option.bind · _) (mapM_congr fun c hc ↦ pieces?_congr h ?_)
    exact Node.size_le_of_mem_children hc hn
  · rfl

end

/-- Any depth that is enough gives the same answer. -/
theorem nested?_eq {n : Node} {depth : Nat} (hn : n.size ≤ depth) : nested? depth n = n.expr? := by
  rw [Node.expr?]
  induction hsize : n.size using Nat.strongRecOn generalizing n depth with
  | _ size ih =>
    obtain ⟨depth, rfl⟩ := Nat.exists_eq_add_one_of_ne_zero (Nat.ne_of_gt
      (Nat.lt_of_lt_of_le n.size_pos hn))
    obtain ⟨size, rfl⟩ := Nat.exists_eq_add_one_of_ne_zero (Nat.ne_of_gt (hsize ▸ n.size_pos))
    refine ofNode?_congr (fun m (hm : m.size < size + 1) ↦ ?_) (Nat.le_of_eq hsize)
    exact (ih m.size hm (by omega) rfl).trans (ih m.size hm (Nat.le_of_lt_succ hm) rfl).symm

end Expr

/-- **The expression of a node is made of those that lie deeper.** -/
theorem Node.expr?_eq (n : Node) : n.expr? = Expr.ofNode? Node.expr? n := by
  rw [← Expr.nested?_eq (Nat.le_succ n.size), Expr.nested?]
  exact Expr.ofNode?_congr (fun m hm ↦ Expr.nested?_eq (Nat.le_of_lt hm)) (Nat.le_refl _)

end BslLint
