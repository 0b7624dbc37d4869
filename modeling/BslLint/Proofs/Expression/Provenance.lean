import BslLint.Proofs.Expression.Accounting
import BslLint.Proofs.Expression.Depth
import BslLint.Proofs.Expression.Positions
import Mathlib.Algebra.Order.Group.Multiset

/-!
# Where the parts of an expression come from

In the tree of any text, faulty or not, the expression of a node is made of nodes from it downwards,
and none is used twice (`Node.stemsFrom_expr?`). Nothing is said of nodes that are not used: where a
tree is broken, children are looked for by their kinds, and further ones of a kind are passed over.
What is picked that way lies in different children, which is all that is needed.

On the way it is seen that calls are by name: what is called is never an operation.
-/

namespace BslLint

namespace Node

/-! ### The nodes with a role below some nodes -/

variable {n : Node} {ns ms : List Node}

theorem roles_nil : roles [] = 0 := by simp [roles, preorderAll]

/-- The roles below some nodes add up. -/
theorem roles_cons (n : Node) (ns : List Node) : roles (n :: ns) = roles [n] + roles ns :=
  roles_append [n] ns

/-- Below fewer nodes there are fewer nodes with a role. -/
theorem roles_le_of_sublist (h : ns.Sublist ms) : roles ns ≤ roles ms := by
  induction h with
  | slnil => exact le_refl _
  | cons n _ ih =>
    rw [roles_cons n]
    exact ih.trans (Multiset.le_add_left ..)
  | @cons_cons ns ms n _ ih =>
    rw [roles_cons n ns, roles_cons n ms]
    exact add_le_add_right ih _

theorem roles_le_of_mem (h : n ∈ ns) : roles [n] ≤ roles ns :=
  roles_le_of_sublist (List.singleton_sublist.2 h)

/-- A node with a role adds its own to those below it. -/
theorem roles_children_of_some {r : Role} (h : n.kind.role? = some r) :
    {(r, n.id)} + roles n.children = roles [n] := by
  rw [roles, roles, preorderAll_cons, List.append_nil, List.filterMap_cons_some (b := (r, n.id))]
  · rfl
  · rw [h, Option.map_some]

/-- What lies below the children lies below the node. -/
theorem roles_children_le (n : Node) : roles n.children ≤ roles [n] := by
  cases h : n.kind.role? with
  | none =>
    rw [roles, roles, preorderAll_cons, List.append_nil, List.filterMap_cons_none]
    rw [h, Option.map_none]
  | some r => exact roles_children_of_some h ▸ Multiset.le_add_left ..

/-- Nodes of two sorts have nothing in common below them. -/
theorem roles_filter_add_le {p q : Node → Bool} (hpq : ∀ n, p n = true → q n = false) :
    roles (ns.filter p) + roles (ns.filter q) ≤ roles ns := by
  induction ns with
  | nil => simp [roles_nil]
  | cons n ns ih =>
    rw [roles_cons n]
    -- A node is of one sort, of the other or of neither, and in each case counts at most once.
    cases hp : p n with
    | true =>
      rw [List.filter_cons_of_pos hp, List.filter_cons_of_neg (by simp [hpq n hp]), roles_cons n,
        add_assoc]
      exact add_le_add_right ih _
    | false =>
      rw [List.filter_cons_of_neg (by simp [hp])]
      cases hq : q n with
      | true =>
        rw [List.filter_cons_of_pos hq, roles_cons n, add_left_comm]
        exact add_le_add_right ih _
      | false =>
        rw [List.filter_cons_of_neg (by simp [hq])]
        exact ih.trans (Multiset.le_add_left ..)

/-- A kind is looked for among all children, and among those that are of no other kind alike. -/
theorem childrenOfKind_eq_filter (n : Node) {k k' : NodeKind} (hk : k ≠ k') :
    n.childrenOfKind k = (n.children.filter (·.kind ≠ k')).filter (·.kind = k) := by
  rw [childrenOfKind, List.filter_filter]
  refine List.filter_congr fun m _ ↦ ?_
  by_cases hm : m.kind = k <;> simp [hm, hk]

end Node

/-! ### Calls by name -/

namespace Expr

/-- Whether the expression, if it is a call, calls something by its name. -/
def callsName : Expr → Bool
  | call _ (terminal ..) _ _ => true
  | call .. => false
  | _ => true

/-- All calls in the expression are by name. -/
def CallsNames (x : Expr) : Prop := ∀ y ∈ x.parts, y.callsName = true

variable {x y : Expr}

theorem callsNames_terminal (s : Symbol) (o : Origin) : (terminal s o).CallsNames := by
  simp [CallsNames, parts, callsName]

theorem callsNames_unary {op : Operator} {o : Origin} :
    (unary op x o).CallsNames ↔ x.CallsNames := by
  simp [CallsNames, parts, callsName]

/-- All calls of an operation by name are those of its operands. -/
theorem callsNames_binary {op : Operator} {o : Origin} :
    (binary op x y o).CallsNames ↔ x.CallsNames ∧ y.CallsNames := by
  simp [CallsNames, parts, callsName, or_imp, forall_and]

theorem callsNames_ternary {z : Expr} {o : Origin} :
    (ternary x y z o).CallsNames ↔ x.CallsNames ∧ y.CallsNames ∧ z.CallsNames := by
  simp [CallsNames, parts, callsName, or_imp, forall_and]

/-- A call is by name if what is called is a terminal, and its arguments may hold calls themselves.
-/
theorem callsNames_call {kind : CallKind} {args : List Expr} {o : Origin} :
    (call kind x args o).CallsNames ↔ (∃ s p, x = terminal s p) ∧ ∀ a ∈ args, a.CallsNames := by
  rw [CallsNames, parts, List.forall_mem_cons, List.forall_mem_append]
  constructor
  · rintro ⟨hcall, -, hargs⟩
    refine ⟨?_, fun a ha y hy ↦ hargs y (mem_partsList.2 ⟨a, ha, hy⟩)⟩
    cases x with
    | terminal s p => exact ⟨s, p, rfl⟩
    | _ => exact nomatch hcall
  · rintro ⟨⟨s, p, rfl⟩, hargs⟩
    refine ⟨rfl, callsNames_terminal s p, fun y hy ↦ ?_⟩
    obtain ⟨a, ha, hya⟩ := mem_partsList.1 hy
    exact hargs a ha y hya

/-- The parts of an expression inherit this from the whole. -/
theorem CallsNames.of_mem_direct (hx : x.CallsNames) (hy : y ∈ x.direct) : y.CallsNames := by
  cases x with
  | terminal => exact nomatch hy
  | unary =>
    obtain rfl := List.mem_singleton.1 hy
    exact callsNames_unary.1 hx
  | binary =>
    obtain ⟨hleft, hright⟩ := callsNames_binary.1 hx
    simp only [direct, List.mem_cons, List.not_mem_nil, or_false] at hy
    obtain rfl | rfl := hy <;> assumption
  | ternary =>
    obtain ⟨hcondition, hyes, hno⟩ := callsNames_ternary.1 hx
    simp only [direct, List.mem_cons, List.not_mem_nil, or_false] at hy
    obtain rfl | rfl | rfl := hy <;> assumption
  | call =>
    obtain ⟨⟨s, o, rfl⟩, hargs⟩ := callsNames_call.1 hx
    obtain rfl | hy := List.mem_cons.1 hy
    · exact callsNames_terminal s o
    · exact hargs y hy

end Expr

/-! ### Rows of calls by name -/

namespace Pending

variable {p : Pending} {ps qs : List Pending} {xs ys : List Expr}

/-- Applying an operator makes no calls. -/
theorem callsNames_of_applied? (hxs : ∀ x ∈ xs, x.CallsNames) (h : p.applied? xs = some ys) :
    ∀ y ∈ ys, y.CallsNames := by
  unfold applied? at h
  split at h <;> split at h <;> cases h
  · obtain ⟨hx, hxs⟩ := List.forall_mem_cons.1 hxs
    exact List.forall_mem_cons.2 ⟨Expr.callsNames_unary.2 hx, hxs⟩
  · obtain ⟨hright, hxs⟩ := List.forall_mem_cons.1 hxs
    obtain ⟨hleft, hxs⟩ := List.forall_mem_cons.1 hxs
    exact List.forall_mem_cons.2 ⟨Expr.callsNames_binary.2 ⟨hleft, hright⟩, hxs⟩

/-- Nor does applying all operators that go before the next one. -/
theorem callsNames_of_reduce? {next : Operator} (hxs : ∀ x ∈ xs, x.CallsNames)
    (h : reduce? next ps xs = some (qs, ys)) : ∀ y ∈ ys, y.CallsNames := by
  induction ps generalizing xs with
  | nil =>
    obtain ⟨rfl, rfl⟩ := Prod.mk.inj (Option.some.inj h)
    exact hxs
  | cons p ps ih =>
    rw [reduce?] at h
    split at h
    · obtain ⟨zs, hzs, h⟩ := Option.bind_eq_some_iff.1 h
      exact ih (callsNames_of_applied? hxs hzs) h
    · obtain ⟨rfl, rfl⟩ := Prod.mk.inj (Option.some.inj h)
      exact hxs

/-- Nor does applying the operators that are left at the end. -/
theorem callsNames_of_finish? (hxs : ∀ x ∈ xs, x.CallsNames) (h : finish? ps xs = some ys) :
    ∀ y ∈ ys, y.CallsNames := by
  induction ps generalizing xs with
  | nil =>
    obtain rfl := Option.some.inj h
    exact hxs
  | cons p ps ih =>
    obtain ⟨zs, hzs, h⟩ := Option.bind_eq_some_iff.1 h
    exact ih (callsNames_of_applied? hxs hzs) h

end Pending

namespace Piece

/-- All calls in the operands of a row are by name. -/
def CallNames (row : List Piece) : Prop := ∀ x, .operand x ∈ row → x.CallsNames

/-- **Resolving a row makes no calls**, so those in the result are those of the operands. -/
theorem callsNames_of_resolveFrom? {row : List Piece} {ps : List Pending} {xs : List Expr}
    {x : Expr} (hrow : CallNames row) (hxs : ∀ x ∈ xs, x.CallsNames)
    (h : resolveFrom? row ps xs = some x) : x.CallsNames := by
  induction row generalizing ps xs with
  | nil =>
    rw [resolveFrom?] at h
    split at h
    next hy =>
      obtain rfl := Option.some.inj h
      exact Pending.callsNames_of_finish? hxs hy _ List.mem_cons_self
    · cases h
  | cons piece row ih =>
    have hrest : CallNames row := fun x hx ↦ hrow x (List.mem_cons_of_mem _ hx)
    cases piece with
    | unary p => exact ih hrest hxs h
    | operand y => exact ih hrest (List.forall_mem_cons.2 ⟨hrow y List.mem_cons_self, hxs⟩) h
    -- An operator only moves what is on the stack, and makes no call out of it.
    | binary p =>
      rw [resolveFrom?] at h
      split at h
      next hreduce => exact ih hrest (Pending.callsNames_of_reduce? hxs hreduce) h
      · cases h

end Piece

/-! ### Expressions made of nodes -/

namespace Expr

/-- The expressions use only nodes from some downwards, and none of them twice. -/
structure StemFrom (xs : List Expr) (ns : List Node) : Prop where
  /-- The nodes that the parts come from lie there, each as often as it is used. -/
  roles_le : (accountList xs).roles ≤ Node.roles ns
  /-- Calls are by name. -/
  callsNames : ∀ x ∈ xs, x.CallsNames

namespace StemFrom

variable {xs ys : List Expr} {ns ms : List Node}

theorem nil : StemFrom [] ns := ⟨Multiset.zero_le _, nofun⟩

theorem terminal (s : Symbol) (o : Origin) : StemFrom [.terminal s o] ns := by
  refine ⟨?_, by simp [callsNames_terminal]⟩
  rw [accountList, accountList, account]
  split <;> exact Multiset.zero_le _

/-- It is enough to use nodes from among more. -/
theorem mono (h : StemFrom xs ns) (hle : Node.roles ns ≤ Node.roles ms) : StemFrom xs ms :=
  ⟨h.roles_le.trans hle, h.callsNames⟩

theorem of_mem {n : Node} (h : StemFrom xs [n]) (hn : n ∈ ns) : StemFrom xs ns :=
  h.mono (Node.roles_le_of_mem hn)

/-- What stems from the children of a node stems from the node. -/
theorem up {n : Node} (h : StemFrom xs n.children) : StemFrom xs [n] := h.mono n.roles_children_le

/-- Expressions below different nodes share none of them. -/
theorem append (hxs : StemFrom xs ns) (hys : StemFrom ys ms) : StemFrom (xs ++ ys) (ns ++ ms) := by
  refine ⟨?_, List.forall_mem_append.2 ⟨hxs.callsNames, hys.callsNames⟩⟩
  rw [accountList_eq_sum, List.map_append, List.sum_append, ← accountList_eq_sum,
    ← accountList_eq_sum, Account.roles_add, Node.roles_append]
  exact add_le_add hxs.roles_le hys.roles_le

/-- The arguments of a call stem from nodes below the one that makes the call. -/
theorem call {kind : CallKind} {n m : Node} (hn : n.kind.role? = some .call)
    (h : StemFrom xs n.children) :
    StemFrom [.call kind (ofTerminal .identifier m) xs (.ofNode n)] [n] := by
  refine ⟨?_, List.forall_mem_singleton.2 (callsNames_call.2 ⟨⟨_, _, rfl⟩, h.callsNames⟩)⟩
  rw [accountList, accountList, add_zero, account, ofTerminal, account, if_neg (by decide),
    Account.roles_add, Account.roles_add, ← Node.roles_children_of_some hn]
  exact add_le_add_right (by simpa [Account.range] using h.roles_le) _

/-- A choice stems from its node if its three parts stem from the children. -/
theorem ternary {n : Node} {x y z : Expr} (hn : n.kind.role? = some .choice)
    (h : StemFrom [x, y, z] n.children) : StemFrom [.ternary x y z (.ofNode n)] [n] := by
  obtain ⟨hroles, hcalls⟩ := h
  refine ⟨?_, by simpa [callsNames_ternary] using hcalls⟩
  rw [accountList, accountList, add_zero, account, Account.roles_add,
    ← Node.roles_children_of_some hn]
  refine add_le_add_right ?_ _
  simpa [accountList] using hroles

/-- A value that is accessed stems from other nodes than what it is accessed with. -/
theorem access {op : Operator} {n : Node} {x y : Expr} {o : Origin} (ho : o.node = n.id)
    (hop : op.role = .access) (hn : n.kind.role? = some .access) (hx : StemFrom [x] ns)
    (hy : StemFrom [y] n.children) : StemFrom [.binary op x y o] (ns ++ [n]) := by
  refine ⟨?_, List.forall_mem_singleton.2 (callsNames_binary.2
    ⟨hx.callsNames x List.mem_cons_self, hy.callsNames y List.mem_cons_self⟩)⟩
  have hx' := hx.roles_le
  have hy' := hy.roles_le
  simp only [accountList, add_zero] at hx' hy' ⊢
  rw [account, hop, ho, Account.roles_add, Account.roles_add, Node.roles_append,
    ← Node.roles_children_of_some hn, add_left_comm]
  exact add_le_add hx' (add_le_add_right hy' _)

/-- Without the missing arguments at the end nothing new is used. -/
theorem trimmed (h : StemFrom xs ns) : StemFrom (trimmed xs) ns := by
  refine ⟨by rw [accountList_trimmed]; exact h.roles_le, ?_⟩
  unfold Expr.trimmed
  split
  · split
    · exact nofun
    · exact h.callsNames
  · exact h.callsNames

/-- What several nodes come to stems from all of them, if what each comes to stems from it. -/
theorem mapM {f : Node → Option Expr} (hf : ∀ {n x}, f n = some x → StemFrom [x] [n])
    (h : ns.mapM f = some xs) : StemFrom xs ns := by
  induction mapM_eq_some_iff.1 h with
  | nil => exact nil
  | cons hx hxs ih => exact (hf hx).append (ih (mapM_eq_some_iff.2 hxs))

end StemFrom

end Expr

/-! ### Rows made of nodes -/

namespace Piece

/-- The pieces of a row use only nodes from some downwards, and none of them twice. -/
structure StemFrom (row : List Piece) (ns : List Node) : Prop where
  /-- The nodes that the pieces come from lie there, each as often as it is used. -/
  roles_le : (accountAll row).roles ≤ Node.roles ns
  /-- Calls are by name. -/
  callNames : CallNames row

variable {row row' : List Piece} {ns ms : List Node}

namespace StemFrom

theorem nil : StemFrom [] ns := ⟨Multiset.zero_le _, nofun⟩

theorem mono (h : StemFrom row ns) (hle : Node.roles ns ≤ Node.roles ms) : StemFrom row ms :=
  ⟨h.roles_le.trans hle, h.callNames⟩

theorem append (h : StemFrom row ns) (h' : StemFrom row' ms) :
    StemFrom (row ++ row') (ns ++ ms) := by
  refine ⟨?_, fun x hx ↦ (List.mem_append.1 hx).elim (h.callNames x) (h'.callNames x)⟩
  rw [accountAll_append, Account.roles_add, Node.roles_append]
  exact add_le_add h.roles_le h'.roles_le

theorem operand {x : Expr} (h : Expr.StemFrom [x] ns) : StemFrom [.operand x] ns := by
  refine ⟨?_, fun y hy ↦ ?_⟩
  · simpa [accountAll, account, Expr.accountList] using h.roles_le
  · obtain rfl : y = x := by simpa using hy
    exact h.callsNames y List.mem_cons_self

/-- An operator that waits for operands uses the node of its sign. -/
theorem roles_pending_le {p : Pending} {n : Node} (hn : n.kind.role? = some p.role)
    (hp : p.origin.node = n.id) : p.account.roles ≤ Node.roles [n] := by
  rw [← Node.roles_children_of_some hn, Pending.account, hp]
  exact Multiset.le_add_right _ _

theorem unary {p : Pending} {n : Node} (hn : n.kind.role? = some p.role)
    (hp : p.origin.node = n.id) : StemFrom [.unary p] [n] :=
  ⟨by simpa [accountAll, account] using roles_pending_le hn hp, by simp [CallNames]⟩

theorem binary {p : Pending} {n : Node} (hn : n.kind.role? = some p.role)
    (hp : p.origin.node = n.id) : StemFrom [.binary p] [n] :=
  ⟨by simpa [accountAll, account] using roles_pending_le hn hp, by simp [CallNames]⟩

/-- **Resolving a row uses no other nodes** than the row does. -/
theorem resolve? {x : Expr} (h : StemFrom row ns) (hx : Piece.resolve? row = some x) :
    Expr.StemFrom [x] ns := by
  refine ⟨?_, List.forall_mem_singleton.2 (callsNames_of_resolveFrom? h.callNames
    (List.forall_mem_nil _) hx)⟩
  rw [Expr.accountList, Expr.accountList, add_zero, account_of_resolve? hx]
  exact h.roles_le

end StemFrom

/-- Rows one behind the other, each of which stems from a node. -/
theorem stemFrom_flatten {f : Node → Option (List Piece)} {rows : List (List Piece)}
    (hf : ∀ {n row}, f n = some row → StemFrom row [n]) (h : ns.mapM f = some rows) :
    StemFrom rows.flatten ns := by
  induction mapM_eq_some_iff.1 h with
  | nil => exact .nil
  | cons hrow hrows ih => exact (hf hrow).append (ih (mapM_eq_some_iff.2 hrows))

/-- The operators in front of an operand. -/
theorem stemFrom_signs {us : List Pending} (hns : ∀ n ∈ ns, n.kind = .unaryModifier)
    (h : ns.mapM Expr.unaryModifier? = some us) : StemFrom (us.map .unary) ns := by
  induction mapM_eq_some_iff.1 h with
  | nil => exact .nil
  | cons hu hus ih =>
    obtain ⟨hn, hns⟩ := List.forall_mem_cons.1 hns
    obtain ⟨hunary, horigin⟩ := Expr.of_unaryModifier? hu
    have hsign := StemFrom.unary (by rw [hn, Pending.role, if_pos hunary]; rfl)
      (congrArg Origin.node horigin)
    exact hsign.append (ih hns (mapM_eq_some_iff.2 hus))

end Piece

/-! ### Values -/

namespace Expr

section

variable {inner : Node → Option Expr} {n : Node} {x : Expr}

section

variable (hinner : ∀ {n x}, inner n = some x → StemFrom [x] [n])

include hinner

/-- An argument stems from its node. -/
theorem stemFrom_argument? (h : argument? inner n = some x) : StemFrom [x] [n] := by
  unfold argument? at h
  split at h
  next c hc => exact ((hinner h).of_mem (Node.mem_children_of_find? hc)).up
  next =>
    obtain rfl := Option.some.inj h
    exact .terminal _ _

/-- The arguments of a call stem from the node of the list. -/
theorem stemFrom_arguments? {args : List Expr} (h : arguments? inner n = some args) :
    StemFrom args [n] := by
  obtain ⟨list, xs, hlist, hxs, rfl⟩ := of_arguments? h
  have hlisted : StemFrom xs (list.childrenOfKind .callParam) :=
    .mapM (stemFrom_argument? hinner) hxs
  exact ((hlisted.mono (Node.roles_le_of_sublist List.filter_sublist)).up.of_mem
    (Node.mem_children_of_find? hlist)).up.trimmed

theorem stemFrom_methodCall? (hn : n.kind.role? = some .call) (h : methodCall? inner n = some x) :
    StemFrom [x] [n] := by
  obtain ⟨name, word, doCall, args, -, -, hdoCall, hargs, rfl⟩ := of_methodCall? h
  exact .call hn ((stemFrom_arguments? hinner hargs).of_mem (Node.mem_children_of_find? hdoCall))

/-- The name of a type is a terminal, so making an object uses a single node with a role for itself.
-/
theorem stemFrom_newExpression? (hn : n.kind.role? = some .call)
    (h : newExpression? inner n = some x) : StemFrom [x] [n] := by
  obtain ⟨callee, args, -, hargs, rfl⟩ := of_newExpression? h
  refine .call hn ?_
  obtain rfl | ⟨doCall, hdoCall, hargs⟩ := of_optionalArguments? hargs
  · exact .nil
  · exact (stemFrom_arguments? hinner hargs).of_mem (Node.mem_children_of_find? hdoCall)

/-- The three parts are different expressions among the children. -/
theorem stemFrom_ternaryOperator? (hn : n.kind.role? = some .choice)
    (h : ternaryOperator? inner n = some x) : StemFrom [x] [n] := by
  obtain ⟨c₁, c₂, c₃, rest, y₁, y₂, y₃, hcs, h₁, h₂, h₃, rfl⟩ := of_ternaryOperator? h
  have hparts : [c₁, c₂, c₃].Sublist (n.childrenOfKind .expression) := by
    rw [hcs]
    exact List.sublist_append_left [c₁, c₂, c₃] rest
  have hstem : StemFrom [y₁, y₂, y₃] [c₁, c₂, c₃] :=
    (hinner h₁).append ((hinner h₂).append (hinner h₃))
  exact .ternary hn (hstem.mono (Node.roles_le_of_sublist (hparts.trans List.filter_sublist)))

/-! ### Accesses -/

/-- What is told of an access comes from below it, so its own node is left for the operation. -/
theorem stemFrom_access? {op : Operator} (h : access? inner n = some (op, x)) :
    op.role = .access ∧ StemFrom [x] n.children := by
  obtain ⟨access, haccess, hcases⟩ := of_access? h
  have hmem : access ∈ n.children := Node.mem_children_of_head? haccess
  obtain ⟨rfl, name, rfl⟩ | ⟨rfl, index, hindex, hx⟩ | ⟨rfl, method, hmethod, hx⟩ := hcases
  · exact ⟨rfl, .terminal _ _⟩
  · exact ⟨rfl, ((hinner hx).of_mem (Node.mem_children_of_find? hindex)).up.of_mem hmem⟩
  · have hkind : method.kind = .methodCall := by simpa using List.find?_some hmethod
    have hstem := stemFrom_methodCall? hinner (by rw [hkind]; rfl) hx
    exact ⟨rfl, (hstem.of_mem (Node.mem_children_of_find? hmethod)).up.of_mem hmem⟩

/-- An access adds its own node to those that the value stems from. -/
theorem stemFrom_modified? {base : Expr} {ns : List Node} (hn : n.kind = .modifier)
    (hbase : StemFrom [base] ns) (h : modified? inner base n = some x) :
    StemFrom [x] (ns ++ [n]) := by
  obtain ⟨op, y, hy, rfl⟩ := of_modified? h
  obtain ⟨hop, hstem⟩ := stemFrom_access? hinner hy
  exact .access rfl hop (by rw [hn]; rfl) hbase hstem

/-- What is accessed several times stems from the nodes of the value and of all accesses. -/
theorem stemFrom_allModified? {base : Expr} {ns : List Node} (hbase : StemFrom [base] ns)
    (h : allModified? inner base n = some x) :
    StemFrom [x] (ns ++ n.childrenOfKind .modifier) := by
  have hkind : ∀ m ∈ n.childrenOfKind .modifier, m.kind = .modifier :=
    fun m hm ↦ by simpa using List.of_mem_filter hm
  rw [allModified?] at h
  generalize n.childrenOfKind .modifier = ms at h hkind
  induction ms generalizing base ns with
  | nil =>
    obtain rfl := Option.some.inj h
    rwa [List.append_nil]
  | cons m ms ih =>
    obtain ⟨hm, hms⟩ := List.forall_mem_cons.1 hkind
    rw [List.foldlM_cons] at h
    obtain ⟨y, hy, h⟩ := Option.bind_eq_some_iff.1 h
    have hstem := ih (stemFrom_modified? hinner hm hbase hy) h hms
    rwa [List.append_assoc] at hstem

/-- The value that is accessed is no access itself. -/
theorem stemFrom_base? (h : base? inner n = some x) :
    n.kind ≠ .modifier ∧ StemFrom [x] [n] := by
  unfold base? at h
  split at h
  next hkind =>
    obtain rfl := Option.some.inj h
    exact ⟨by rw [hkind]; decide, .terminal _ _⟩
  next hkind => exact ⟨by rw [hkind]; decide, stemFrom_methodCall? hinner (by rw [hkind]; rfl) h⟩
  next hkind => exact ⟨by rw [hkind]; decide, stemFrom_newExpression? hinner (by rw [hkind]; rfl) h⟩
  next hkind =>
    exact ⟨by rw [hkind]; decide, stemFrom_ternaryOperator? hinner (by rw [hkind]; rfl) h⟩
  next => exact nomatch h

/-- A value and its accesses stem from the node around them, which has no role. -/
theorem stemFrom_complexIdentifier? (h : complexIdentifier? inner n = some x) :
    StemFrom [x] [n] := by
  obtain ⟨first, base, hfirst, hbase, h⟩ := of_complexIdentifier? h
  obtain ⟨hkind, hstem⟩ := stemFrom_base? hinner hbase
  refine ((stemFrom_allModified? hinner hstem h).mono (Node.roles_le_of_sublist ?_)).up
  rw [Node.childrenOfKind]
  generalize n.children = cs at hfirst
  obtain _ | ⟨c, cs⟩ := cs
  · cases hfirst
  · obtain rfl : c = first := Option.some.inj hfirst
    rw [List.filter_cons_of_neg (by simpa using hkind)]
    exact List.filter_sublist.cons_cons c

/-! ### Members and operations -/

/-- An operand does not stem from the operators in front of it. -/
theorem stemFrom_operand? (h : operand? inner n = some x) :
    StemFrom [x] (n.children.filter (·.kind ≠ .unaryModifier)) := by
  obtain ⟨first, hfirst, rfl | h | ⟨inside, base, hinside, hbase, h⟩⟩ := of_operand? h
  · exact .terminal _ _
  · have hmem : first ∈ n.children.filter (·.kind ≠ .unaryModifier) :=
      List.mem_filter.2 ⟨List.mem_of_find?_eq_some hfirst, by simpa using List.find?_some hfirst⟩
    exact (stemFrom_complexIdentifier? hinner h).of_mem hmem
  · refine (stemFrom_allModified? hinner (hinner hbase) h).mono ?_
    have hinside : inside ∈ n.childrenOfKind .expression :=
      List.mem_filter.2 ⟨List.mem_of_find?_eq_some hinside, by simpa using List.find?_some hinside⟩
    rw [Node.roles_append]
    refine (add_le_add_left (Node.roles_le_of_mem hinside) _).trans ?_
    rw [n.childrenOfKind_eq_filter (by decide : NodeKind.expression ≠ .unaryModifier),
      n.childrenOfKind_eq_filter (by decide : NodeKind.modifier ≠ .unaryModifier)]
    exact Node.roles_filter_add_le fun m hm ↦ by simp_all

/-- The pieces of a child of an expression stem from this child. -/
theorem stemFrom_pieces? {row : List Piece} (h : pieces? inner n = some row) :
    Piece.StemFrom row [n] := by
  obtain ⟨us, y, -, hus, hy, rfl⟩ | ⟨p, hkind, hp, rfl⟩ := of_pieces? h
  · have hsigns := Piece.stemFrom_signs (fun m hm ↦ by simpa using List.of_mem_filter hm) hus
    refine ((hsigns.append (.operand (stemFrom_operand? hinner hy))).mono ?_).mono
      n.roles_children_le
    rw [Node.roles_append]
    exact Node.roles_filter_add_le fun m hm ↦ by simpa using hm
  · obtain ⟨⟨k, hk⟩, horigin⟩ := of_operation? hp
    have hrole : p.role = .operation := by
      rw [Pending.role, Operator.isUnary_of_binary? hk, if_neg (by decide),
        Operator.role_of_binary? hk]
    exact .binary (by rw [hrole, hkind]; rfl) (congrArg Origin.node horigin)

/-- The expressions inside are known to stem from their nodes, so the whole one does. -/
theorem stemFrom_ofNode? (h : ofNode? inner n = some x) : StemFrom [x] [n] := by
  obtain ⟨-, rows, hrows, h⟩ := of_ofNode? h
  exact ((Piece.stemFrom_flatten (stemFrom_pieces? hinner) hrows).resolve? h).up

end

/-- By induction on the depth up to which expressions are looked at. -/
theorem stemFrom_nested? {depth : Nat} (h : nested? depth n = some x) : StemFrom [x] [n] := by
  induction depth generalizing n x with
  | zero => exact nomatch h
  | succ depth ih => exact stemFrom_ofNode? ih h

end

end Expr

/-- **The expression of a node is made of nodes from it downwards**, none of which is used twice,
and the calls in it are by name. -/
theorem Node.stemsFrom_expr? {n : Node} {x : Expr} (h : n.expr? = some x) :
    x.account.roles ≤ Node.roles [n] ∧ x.CallsNames := by
  obtain ⟨hroles, hcalls⟩ := Expr.stemFrom_nested? h
  rw [Expr.accountList, Expr.accountList, add_zero] at hroles
  exact ⟨hroles, hcalls x List.mem_cons_self⟩

end BslLint
