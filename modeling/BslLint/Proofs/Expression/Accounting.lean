import BslLint.Proofs.Data.Attempts
import BslLint.Proofs.Expression.Account
import BslLint.Proofs.Expression.Members

/-!
# What the expression of a node accounts for

`Node.ComesTo id first cs a` says that the trees `cs`, given their places, have just the nodes with
a role that the account `a` lists, and that its ranges lie one behind the other among their tokens.
It is put together from left to right, as the places are.

A rule of the grammar has a lemma: if the answers for the trees inside account for them, then the
answer for the tree accounts for it (`Expr.Keeps`). Nothing is said of trees without an answer. The
rules of this module are those for values; accesses, operators and rows come after them.
-/

namespace BslLint

namespace TokenRange

/-- Ranges that hold tokens and lie one behind the other within a range. -/
def Strung (r : TokenRange) : List TokenRange → Prop
  | [] => r.first ≤ r.stop
  | s :: ss => r.first ≤ s.first ∧ s.first < s.stop ∧ Strung ⟨s.stop, r.stop⟩ ss

variable {i j k : Nat} {rs ss : List TokenRange}

/-- The range around may begin earlier. -/
theorem Strung.widen (h : Strung ⟨j, k⟩ rs) (hij : i ≤ j) : Strung ⟨i, k⟩ rs := by
  cases rs with
  | nil => exact Nat.le_trans hij h
  | cons r rs => exact ⟨Nat.le_trans hij h.1, h.2⟩

/-- Two strings of ranges, one behind the other, make one. -/
theorem Strung.append (hrs : Strung ⟨i, j⟩ rs) (hss : Strung ⟨j, k⟩ ss) :
    Strung ⟨i, k⟩ (rs ++ ss) := by
  induction rs generalizing i with
  | nil => exact hss.widen hrs
  | cons r rs ih => exact ⟨hrs.1, hrs.2.1, ih hrs.2.2⟩

/-- Every one of the ranges lies within and holds a token. -/
theorem Strung.forall_mem {r : TokenRange} (h : r.Strung rs) :
    ∀ s ∈ rs, r.first ≤ s.first ∧ s.first < s.stop := by
  induction rs generalizing r with
  | nil => simp
  | cons s ss ih =>
    obtain ⟨hfirst, hs, hss⟩ := h
    refine List.forall_mem_cons.2 ⟨⟨hfirst, hs⟩, fun u hu ↦ ?_⟩
    obtain ⟨hle, hu⟩ := ih hss u hu
    exact ⟨Nat.le_trans hfirst (Nat.le_trans (Nat.le_of_lt hs) hle), hu⟩

/-- No two of the ranges have a token in common. -/
theorem Strung.pairwise {r : TokenRange} (h : r.Strung rs) :
    rs.Pairwise fun s u ↦ s.stop ≤ u.first := by
  induction rs generalizing r with
  | nil => exact .nil
  | cons s ss ih => exact .cons (fun u hu ↦ (h.2.2.forall_mem u hu).1) (ih h.2.2)

end TokenRange

namespace Node

/-- The nodes of a list and below that do something in an expression. -/
def roles (ns : List Node) : Multiset (Role × Nat) :=
  (preorderAll ns).filterMap fun n ↦ n.kind.role?.map (·, n.id)

theorem roles_append (ns ms : List Node) : roles (ns ++ ms) = roles ns + roles ms := by
  simp [roles, preorderAll_append]

theorem roles_node_of_none {id first : Nat} {k : NodeKind} {cs : List Tree} (hk : k.role? = none) :
    roles [⟨id, first, .node k cs⟩] = roles (place (id + 1) first cs) := by
  rw [roles, preorderAll_cons, List.append_nil, List.filterMap_cons_none]
  · rfl
  · rw [kind, Tree.kind_node, hk, Option.map_none]

/-- A node with a role comes before those below it. -/
theorem roles_node_of_some {id first : Nat} {k : NodeKind} {cs : List Tree} {r : Role}
    (hk : k.role? = some r) :
    roles [⟨id, first, .node k cs⟩] = {(r, id)} + roles (place (id + 1) first cs) := by
  rw [roles, preorderAll_cons, List.append_nil, List.filterMap_cons_some (b := (r, id))]
  · rfl
  · rw [kind, Tree.kind_node, hk, Option.map_some]

/-- The trees, from a place on, have the nodes with a role that the account lists, and the ranges of
the account lie one behind the other among their tokens. -/
structure ComesTo (id first : Nat) (cs : List Tree) (a : Account) : Prop where
  /-- The nodes with a role are those of the account. -/
  roles_eq : a.roles = roles (place id first cs)
  /-- The ranges of the account lie one behind the other. -/
  strung : TokenRange.Strung ⟨first, first + Tree.widthAll cs⟩ a.ranges

namespace ComesTo

variable {id first : Nat} {c : Tree} {cs ds : List Tree} {a b : Account}

theorem nil : ComesTo id first [] 0 := ⟨by simp [place, roles, preorderAll], Nat.le_refl _⟩

/-- Accounts of trees that stand one behind the other are put together. -/
theorem append (hcs : ComesTo id first cs a)
    (hds : ComesTo (id + Tree.sizeAll cs) (first + Tree.widthAll cs) ds b) :
    ComesTo id first (cs ++ ds) (a + b) := by
  constructor
  · rw [place_append, roles_append, Account.roles_add, hcs.roles_eq, hds.roles_eq]
  · rw [Tree.widthAll_append, ← Nat.add_assoc]
    exact hcs.strung.append hds.strung

theorem cons (hc : ComesTo id first [c] a) (hcs : ComesTo (id + c.size) (first + c.width) cs b) :
    ComesTo id first (c :: cs) (a + b) :=
  hc.append hcs

theorem leaf (t : Token) : ComesTo id first [.leaf t] 0 := by
  refine ⟨?_, Nat.le_add_right _ _⟩
  rw [roles, preorderAll_place_leaf, place, preorderAll]
  rfl

/-- A token in front that no part tells of leaves the account as it is. -/
theorem cons_leaf {t : Token} (h : ComesTo (id + 1) (first + 1) cs a) :
    ComesTo id first (.leaf t :: cs) a := by
  have hcons := (leaf t).cons h
  rwa [zero_add] at hcons

/-- So does a token behind. -/
theorem append_leaf {t : Token} (h : ComesTo id first cs a) :
    ComesTo id first (cs ++ [.leaf t]) a := by
  have happend := h.append (leaf t)
  rwa [add_zero] at happend

/-- A node without a role comes to what its children come to. -/
theorem node {k : NodeKind} (hk : k.role? = none) (h : ComesTo (id + 1) first cs a) :
    ComesTo id first [.node k cs] a :=
  ⟨h.roles_eq.trans (roles_node_of_none hk).symm, h.strung⟩

/-- A node with a role adds its own number. -/
theorem role {k : NodeKind} {r : Role} (hk : k.role? = some r) (h : ComesTo (id + 1) first cs a) :
    ComesTo id first [.node k cs] (.role r id + a) := by
  refine ⟨?_, h.strung⟩
  rw [Account.roles_add, h.roles_eq]
  exact (roles_node_of_some hk).symm

/-- Trees without a role can be accounted for by their tokens. -/
theorem range (h : ComesTo id first [c] 0) (hc : 0 < c.width) :
    ComesTo id first [c] (.range (Node.mk id first c).range) :=
  ⟨h.roles_eq, Nat.le_refl _, Nat.lt_add_of_pos_right hc, Nat.le_refl _⟩

theorem leaves (ts : List Token) : ComesTo id first (ts.map .leaf) 0 := by
  induction ts generalizing id first with
  | nil => exact nil
  | cons t ts ih => exact cons_leaf ih

end ComesTo

/-! ### Children by their trees and places -/

theorem children_mk (id first : Nat) (k : NodeKind) (cs : List Tree) :
    (Node.mk id first (.node k cs)).children = place (id + 1) first cs := rfl

theorem kind_mk (id first : Nat) (t : Tree) : (Node.mk id first t).kind = t.kind := rfl

/-- Where the trees alone decide, none of their nodes is picked. -/
theorem filter_place_eq_nil {p : Node → Bool} {id first : Nat} {cs : List Tree}
    (h : ∀ c ∈ cs, ∀ i j, p ⟨i, j, c⟩ = false) : (place id first cs).filter p = [] := by
  induction cs generalizing id first with
  | nil => rfl
  | cons c cs ih =>
    obtain ⟨hc, hcs⟩ := List.forall_mem_cons.1 h
    rw [place, List.filter_cons_of_neg (by rw [hc]; decide), ih hcs]

/-- Or all of them are. -/
theorem filter_place_eq_self {p : Node → Bool} {id first : Nat} {cs : List Tree}
    (h : ∀ c ∈ cs, ∀ i j, p ⟨i, j, c⟩ = true) :
    (place id first cs).filter p = place id first cs := by
  induction cs generalizing id first with
  | nil => rfl
  | cons c cs ih =>
    obtain ⟨hc, hcs⟩ := List.forall_mem_cons.1 h
    rw [place, List.filter_cons_of_pos (hc _ _), ih hcs]

/-- Trees that are not looked for are passed over. -/
theorem find?_place_append {p : Node → Bool} {id first : Nat} {cs ds : List Tree}
    (h : ∀ c ∈ cs, ∀ i j, p ⟨i, j, c⟩ = false) :
    (place id first (cs ++ ds)).find? p =
      (place (id + Tree.sizeAll cs) (first + Tree.widthAll cs) ds).find? p := by
  have hnone : (place id first cs).find? p = none := by
    rw [← List.head?_filter, filter_place_eq_nil h, List.head?_nil]
  rw [place_append, List.find?_append, hnone, Option.none_or]

/-- Behind a token the first tree is found by its kind. -/
theorem find?_kind_behind_leaf {id first : Nat} {k : NodeKind} {l : Token} {c : Tree}
    {cs : List Tree} (hc : c.kind = k) (hk : k ≠ .token) :
    (place id first (.leaf l :: c :: cs)).find? (·.kind = k) = some ⟨id + 1, first + 1, c⟩ := by
  refine (List.find?_cons_of_neg fun h ↦ hk (of_decide_eq_true h).symm).trans ?_
  exact List.find?_cons_of_pos (decide_eq_true hc)

end Node

namespace Expr

open Node (ComesTo)

/-! ### Answers that account for their trees -/

section

variable {β : Type}

/-- Whatever the function answers at a node with the tree, the answer accounts for it. -/
def Keeps (f : Node → Option β) (account : β → Account) (t : Tree) : Prop :=
  ∀ id first b, f ⟨id, first, t⟩ = some b → ComesTo id first [t] (account b)

/-- Whatever the function answers at the nodes that are picked, it accounts for all the trees. -/
def KeepsAll (f : Node → Option β) (account : β → Account) (pick : Node → Bool) (cs : List Tree) :
    Prop :=
  ∀ id first bs, ((Node.place id first cs).filter pick).mapM f = some bs →
    ComesTo id first cs (bs.map account).sum

variable {f : Node → Option β} {account : β → Account} {pick : Node → Bool} {t : Tree}
  {cs : List Tree}

theorem KeepsAll.nil : KeepsAll f account pick [] := by
  intro id first bs h
  obtain rfl := Option.some.inj h
  exact .nil

/-- A tree that is picked is accounted for, and so are those behind it. -/
theorem KeepsAll.cons (ht : Keeps f account t) (hpick : ∀ i j, pick ⟨i, j, t⟩ = true)
    (hcs : KeepsAll f account pick cs) : KeepsAll f account pick (t :: cs) := by
  intro id first bs h
  rw [Node.place, List.filter_cons_of_pos (hpick _ _), mapM_eq_some_iff] at h
  cases h with
  | cons hb hbs =>
    rw [List.map_cons, List.sum_cons]
    exact (ht _ _ _ hb).cons (hcs _ _ _ (mapM_eq_some_iff.2 hbs))

/-- A token that is not picked may stand in front. -/
theorem KeepsAll.cons_leaf {x : Token} (hpick : ∀ i j, pick ⟨i, j, .leaf x⟩ = false)
    (hcs : KeepsAll f account pick cs) : KeepsAll f account pick (.leaf x :: cs) := by
  intro id first bs h
  rw [Node.place, List.filter_cons_of_neg (by rw [hpick]; decide)] at h
  exact .cons_leaf (hcs _ _ _ h)

end

/-- Accounts of several expressions are added up. -/
theorem accountList_eq_sum (xs : List Expr) : accountList xs = (xs.map account).sum := by
  induction xs with
  | nil => rfl
  | cons x xs ih => rw [accountList, ih, List.map_cons, List.sum_cons]

/-- An argument left out leaves nothing to account for. -/
theorem accountList_trimmed (xs : List Expr) : accountList (trimmed xs) = accountList xs := by
  unfold trimmed
  split
  next x =>
    split
    next hx => rw [accountList, accountList, account_of_isEmpty hx, zero_add, accountList]
    · rfl
  · rfl

/-- A terminal accounts for the tokens of a tree in which nothing else has a role. -/
theorem comesTo_ofTerminal {id first : Nat} {t : Tree} {symbol : Symbol}
    (h : ComesTo id first [t] 0) (ht : 0 < t.width) (hsymbol : symbol ≠ .empty) :
    ComesTo id first [t] (ofTerminal symbol ⟨id, first, t⟩).account := by
  rw [ofTerminal, account, if_neg hsymbol]
  exact h.range ht

variable {inner : Node → Option Expr}

/-! ### Arguments and calls -/

/-- An argument that is left out accounts for its node, in which there is nothing. -/
theorem keeps_argument_none : Keeps (argument? inner) account (.node .callParam []) := by
  intro id first x h
  obtain rfl : _ = x := Option.some.inj h
  exact .node rfl .nil

/-- An argument accounts for what its expression accounts for. -/
theorem keeps_argument_some {t : Tree} (ht : t.kind = .expression) (h : Keeps inner account t) :
    Keeps (argument? inner) account (.node .callParam [t]) := by
  intro id first x hx
  have hfind : (Node.mk id first (.node .callParam [t])).childOfKind? .expression =
      some ⟨id + 1, first, t⟩ := by
    rw [Node.childOfKind?, Node.children_mk, Node.place, List.find?_cons_of_pos]
    exact decide_eq_true ht
  rw [argument?, hfind] at hx
  exact .node rfl (h _ _ _ hx)

/-- The parentheses and the commas of a call are told of by no part. -/
theorem keeps_arguments {l r : Token} {cs : List Tree}
    (h : KeepsAll (argument? inner) account (·.kind = .callParam) cs) :
    Keeps (arguments? inner) accountList
      (.node .doCall [.leaf l, .node .callParamList cs, .leaf r]) := by
  intro id first args hargs
  obtain ⟨list, xs, hlist, hxs, rfl⟩ := of_arguments? hargs
  obtain rfl : Node.mk (id + 2) (first + 1) (.node .callParamList cs) = list :=
    Option.some.inj hlist
  rw [accountList_trimmed, accountList_eq_sum]
  exact .node rfl (.cons_leaf (.append_leaf (.node rfl (h _ _ _ hxs))))

/-- A call has the role, and the name of the method is a terminal. -/
theorem keeps_methodCall {k : NodeKind} {t : Token} {c : Tree} (hk : k.role? = some .call)
    (hc : c.kind = .doCall) (h : Keeps (arguments? inner) accountList c) :
    Keeps (methodCall? inner) account (.node k [.node .methodName [.leaf t], c]) := by
  intro id first x hx
  obtain ⟨name, word, doCall, args, hname, hword, hdoCall, hargs, rfl⟩ := of_methodCall? hx
  obtain rfl : Node.mk (id + 1) first (.node .methodName [.leaf t]) = name := Option.some.inj hname
  obtain rfl : Node.mk (id + 2) first (.leaf t) = word := Option.some.inj hword
  obtain rfl : Node.mk (id + 3) (first + 1) c = doCall := by
    rw [Node.childOfKind?, Node.children_mk, Node.place,
      List.find?_cons_of_neg (by simp [Node.kind]), Node.place,
      List.find?_cons_of_pos (by exact decide_eq_true hc)] at hdoCall
    exact Option.some.inj hdoCall
  refine .role hk (.cons (.node rfl ?_) (h _ _ _ hargs))
  exact comesTo_ofTerminal (.leaf t) Nat.one_pos (by decide)

/-- What the grammar has behind the word for a new object and the type. -/
def KeepsOptional (inner : Node → Option Expr) (ds : List Tree) : Prop :=
  ds = [] ∨ ∃ c, ds = [c] ∧ c.kind = .doCall ∧ Keeps (arguments? inner) accountList c

/-- Where the arguments are left out, there is nothing behind the type. -/
theorem comesTo_optionalArguments {id first : Nat} {k : NodeKind} {cs ds : List Tree}
    {args : List Expr} (hcs : ∀ c ∈ cs, c.kind ≠ .doCall) (hds : KeepsOptional inner ds)
    (h : optionalArguments? inner ⟨id, first, .node k (cs ++ ds)⟩ = some args) :
    ComesTo (id + 1 + Tree.sizeAll cs) (first + Tree.widthAll cs) ds (accountList args) := by
  rw [optionalArguments?, Node.childOfKind?, Node.children_mk,
    Node.find?_place_append fun c hc _ _ ↦ decide_eq_false (hcs c hc)] at h
  obtain rfl | ⟨c, rfl, hc, hkeeps⟩ := hds
  · obtain rfl := Option.some.inj h
    exact .nil
  · rw [Node.place, List.find?_cons_of_pos (by exact decide_eq_true hc)] at h
    exact hkeeps _ _ _ h

/-- Where the type is left out, the word for a new object stands for it. -/
theorem comesTo_callee {id first : Nat} {k : NodeKind} {w : Token} {cs ds : List Tree} {n : Node}
    (hw : w.kind = .keyword .new) (hcs : cs = [] ∨ ∃ type, cs = [.node .typeName [.leaf type]])
    (hds : ∀ d ∈ ds, d.kind ≠ .typeName)
    (h : callee? ⟨id, first, .node k (.leaf w :: (cs ++ ds))⟩ = some n) :
    ComesTo (id + 1) first (.leaf w :: cs) (ofTerminal .identifier n).account := by
  obtain rfl | ⟨type, rfl⟩ := hcs
  · have hnone : (Node.mk id first (.node k (.leaf w :: ds))).childOfKind? .typeName = none := by
      refine Node.find?_eq_none (fun t ↦ t.kind = .typeName) (List.find?_eq_none.2 fun c hc ↦ ?_)
      obtain rfl | hc := List.mem_cons.1 hc
      · simp
      · simpa using hds c hc
    have hword : (Node.mk id first (.node k (.leaf w :: ds))).childToken? (.keyword .new) =
        some ⟨id + 1, first, .leaf w⟩ := by
      refine List.find?_cons_of_pos (decide_eq_true ?_)
      rw [Node.tokenKind?, Tree.token?, Option.map_some, hw]
    rw [List.nil_append, callee?, hnone, hword] at h
    obtain rfl := Option.some.inj h
    exact comesTo_ofTerminal (.leaf w) Nat.one_pos (by decide)
  · obtain rfl : Node.mk (id + 2) (first + 1) (.node .typeName [.leaf type]) = n :=
      Option.some.inj h
    exact .cons_leaf (comesTo_ofTerminal (.node rfl (.leaf type)) Nat.one_pos (by decide))

/-- The making of an object accounts for its type and its arguments. -/
theorem keeps_newExpression {w : Token} {cs ds : List Tree} (hw : w.kind = .keyword .new)
    (hcs : cs = [] ∨ ∃ type, cs = [.node .typeName [.leaf type]]) (hds : KeepsOptional inner ds) :
    Keeps (newExpression? inner) account (.node .newExpression (.leaf w :: (cs ++ ds))) := by
  intro id first x hx
  obtain ⟨n, args, hn, hargs, rfl⟩ := of_newExpression? hx
  -- The call behind the type does not pass for the type, nor the type for the call.
  have hnoType : ∀ d ∈ ds, d.kind ≠ .typeName := by
    obtain rfl | ⟨c, rfl, hc, -⟩ := hds <;> simp [*]
  have hnoCall : ∀ c ∈ .leaf w :: cs, c.kind ≠ .doCall := by
    obtain rfl | ⟨type, rfl⟩ := hcs <;> simp
  have hcallee := comesTo_callee hw hcs hnoType hn
  exact .role rfl (hcallee.append (comesTo_optionalArguments hnoCall hds hargs))

/-- A choice accounts for its three parts, and none of its signs is told of. -/
theorem keeps_ternaryOperator {q l c c' r : Token} {t₁ t₂ t₃ : Tree} (ht₁ : t₁.kind = .expression)
    (ht₂ : t₂.kind = .expression) (ht₃ : t₃.kind = .expression) (h₁ : Keeps inner account t₁)
    (h₂ : Keeps inner account t₂) (h₃ : Keeps inner account t₃) :
    Keeps (ternaryOperator? inner) account (.node .ternaryOperator
      [.leaf q, .leaf l, t₁, .leaf c, t₂, .leaf c', t₃, .leaf r]) := by
  intro id first x hx
  obtain ⟨n₁, n₂, n₃, rest, x, y, z, hparts, hx₁, hx₂, hx₃, rfl⟩ := of_ternaryOperator? hx
  simp only [Node.childrenOfKind, Node.children_mk, Node.place, List.filter_cons, Node.kind_mk,
    Tree.kind_leaf, ht₁, ht₂, ht₃, decide_true, reduceCtorEq, decide_false, if_true,
    Bool.false_eq_true, if_false, List.filter_nil, List.cons.injEq] at hparts
  obtain ⟨rfl, rfl, rfl, -⟩ := hparts
  -- From right to left, as the places of the later parts follow from the earlier ones.
  have hno := (h₃ _ _ _ hx₃).append_leaf (t := r)
  have hyes := (h₂ _ _ _ hx₂).cons (hno.cons_leaf (t := c'))
  have hcondition := (h₁ _ _ _ hx₁).cons (hyes.cons_leaf (t := c))
  exact .role rfl hcondition.cons_leaf.cons_leaf

end Expr

end BslLint
