import BslLint.Expression.Resolve
import BslLint.Proofs.Expression.Shape
import Mathlib.Algebra.BigOperators.Group.List.Basic
import Mathlib.Data.Multiset.AddSub

/-!
# What an expression accounts for

Some nodes of a syntax tree do something in an expression, each in its role (`NodeKind.role?`), and
so do the parts of an `Expr` that are not terminals (`Expr.role?`). The `Account` of an expression
lists the nodes that its parts come from, with their roles and in no order, and the tokens of its
terminals from left to right.

Accounts are added up. Roles commute with everything and ranges do not, so an equation between
accounts says that no part is lost, that none is there twice, and that operands keep their order.
That is what **resolving priorities** does to a row: the expression accounts for the pieces
(`Piece.account_of_resolve?`).
-/

namespace BslLint

/-- What a part of an expression does in it. -/
inductive Role where
  /-- Joins two operands. -/
  | operation
  /-- Leads from a value to something in it. -/
  | access
  /-- Stands in front of an operand. -/
  | sign
  /-- Chooses between two values. -/
  | choice
  /-- Calls a method or makes an object. -/
  | call
  deriving DecidableEq, Repr

/-- What a node of the kind does in an expression, if it does something. -/
def NodeKind.role? : NodeKind → Option Role
  | .operation => some .operation
  | .modifier => some .access
  | .unaryModifier => some .sign
  | .ternaryOperator => some .choice
  | .globalMethodCall | .methodCall | .newExpression => some .call
  | _ => none

/-- What an operator does between two operands. -/
def Operator.role : Operator → Role
  | .dereference | .indexAccess => .access
  | _ => .operation

theorem Operator.role_of_binary? {k : Token.Kind} {op : Operator} (h : binary? k = some op) :
    op.role = .operation := by
  unfold binary? at h
  split at h <;> cases h <;> rfl

/-! ### Accounts -/

/-- Nodes with their roles, in no order, and ranges of tokens from left to right. -/
@[ext]
structure Account where
  /-- The numbers of the nodes, with their roles. -/
  roles : Multiset (Role × Nat)
  /-- The ranges. -/
  ranges : List TokenRange

namespace Account

instance : Zero Account := ⟨⟨0, []⟩⟩

instance : Add Account := ⟨fun a b ↦ ⟨a.roles + b.roles, a.ranges ++ b.ranges⟩⟩

variable (a b : Account)

@[simp]
theorem roles_zero : (0 : Account).roles = 0 := rfl

@[simp]
theorem roles_add : (a + b).roles = a.roles + b.roles := rfl

@[simp]
theorem ranges_add : (a + b).ranges = a.ranges ++ b.ranges := rfl

instance : AddMonoid Account where
  add_assoc _ _ _ := Account.ext (Multiset.add_assoc ..) (List.append_assoc ..)
  zero_add _ := Account.ext (Multiset.zero_add _) (List.nil_append _)
  add_zero _ := Account.ext (Multiset.add_zero _) (List.append_nil _)
  nsmul := nsmulRec

/-- A node in its role. -/
def role (r : Role) (id : Nat) : Account := ⟨{(r, id)}, []⟩

/-- A range of tokens. -/
def range (r : TokenRange) : Account := ⟨0, [r]⟩

/-- It does not matter where a role is listed. -/
theorem role_add_comm (r : Role) (id : Nat) : role r id + a = a + role r id :=
  Account.ext (Multiset.add_comm ..) (List.append_nil _).symm

theorem role_add_left_comm (r : Role) (id : Nat) : a + (role r id + b) = role r id + (a + b) := by
  rw [← add_assoc, ← role_add_comm, add_assoc]

end Account

namespace Expr

/-- What the expression does in a larger one, if it is not a terminal. -/
def role? : Expr → Option Role
  | terminal .. => none
  | unary .. => some .sign
  | binary op .. => some op.role
  | ternary .. => some .choice
  | call .. => some .call

/-- The tokens of a terminal that was not left out. -/
def written? : Expr → Option TokenRange
  | terminal .empty _ => none
  | terminal _ o => some o.range
  | _ => none

mutual

/-- What the expression accounts for. -/
def account : Expr → Account
  | terminal symbol o => if symbol = .empty then 0 else .range o.range
  | unary _ x o => .role .sign o.node + account x
  | binary op left right o => .role op.role o.node + (account left + account right)
  | ternary condition yes no o =>
    .role .choice o.node + (account condition + (account yes + account no))
  | call _ callee args o => .role .call o.node + (account callee + accountList args)

/-- What some expressions account for, one behind the other. -/
def accountList : List Expr → Account
  | [] => 0
  | x :: xs => account x + accountList xs

end

/-- What was left out accounts for nothing. -/
theorem account_of_isEmpty {x : Expr} (h : x.isEmpty = true) : x.account = 0 := by
  unfold isEmpty at h
  split at h
  · rw [account, if_pos rfl]
  · cases h

/-- The account of the parts of an expression, one by one. -/
def listed (ys : List Expr) : Account :=
  ⟨ys.filterMap fun y ↦ y.role?.map (·, y.origin.node), ys.filterMap written?⟩

theorem listed_append (ys zs : List Expr) : listed (ys ++ zs) = listed ys + listed zs :=
  Account.ext (by simp [listed]) (by simp [listed])

/-- A part with a role is listed with its node. -/
theorem listed_cons {y : Expr} {r : Role} (hy : y.role? = some r) (ys : List Expr) :
    listed (y :: ys) = .role r y.origin.node + listed ys := by
  have hwritten : y.written? = none := by
    cases y with
    | terminal => cases hy
    | _ => rfl
  refine Account.ext ?_ ?_
  · simp [listed, hy, Account.role]
  · simp [listed, hwritten, Account.role]

mutual

/-- The account of an expression lists its parts. -/
theorem account_eq_listed : ∀ x : Expr, x.account = listed x.parts
  | terminal symbol o => by cases symbol <;> rfl
  | unary _ x _ => by
    rw [account, parts, listed_cons rfl, account_eq_listed x]
    rfl
  | binary _ left right _ => by
    rw [account, parts, listed_cons rfl, listed_append, account_eq_listed left,
      account_eq_listed right]
    rfl
  | ternary condition yes no _ => by
    rw [account, parts, listed_cons rfl, listed_append, listed_append,
      account_eq_listed condition, account_eq_listed yes, account_eq_listed no]
    rfl
  | call _ callee args _ => by
    rw [account, parts, listed_cons rfl, listed_append, account_eq_listed callee,
      accountList_eq_listed args]
    rfl

theorem accountList_eq_listed : ∀ xs : List Expr, accountList xs = listed (partsList xs)
  | [] => rfl
  | x :: xs => by
    rw [accountList, partsList, listed_append, account_eq_listed x, accountList_eq_listed xs]

end

/-- Operands on a stack, the topmost of which stands last in the row. -/
def stacked : List Expr → Account
  | [] => 0
  | x :: xs => stacked xs + x.account

end Expr

/-! ### Resolving -/

namespace Pending

/-- What the operator will do when it is applied. -/
def role (p : Pending) : Role := if p.operator.isUnary then .sign else p.operator.role

/-- An operator that waits accounts for its node. -/
def account (p : Pending) : Account := .role p.role p.origin.node

/-- Operators that wait. -/
def waiting (ps : List Pending) : Account := (ps.map account).sum

theorem waiting_cons (p : Pending) (ps : List Pending) :
    waiting (p :: ps) = p.account + waiting ps := List.sum_cons

variable {p : Pending} {ps : List Pending} {xs ys : List Expr}

theorem account_add_left_comm (a b : Account) : a + (p.account + b) = p.account + (a + b) :=
  Account.role_add_left_comm a b ..

/-- An operator is applied to operands and none is lost. -/
theorem stacked_of_applied? (h : p.applied? xs = some ys) :
    Expr.stacked ys = p.account + Expr.stacked xs := by
  unfold applied? at h
  split at h
  next hunary =>
    have hrole : p.role = .sign := if_pos hunary
    split at h
    · obtain rfl := Option.some.inj h
      rw [Expr.stacked, Expr.account, ← hrole, Expr.stacked]
      exact account_add_left_comm ..
    · cases h
  next hbinary =>
    have hrole : p.role = p.operator.role := if_neg hbinary
    split at h
    next right left xs =>
      obtain rfl := Option.some.inj h
      rw [Expr.stacked, Expr.account, ← hrole, Expr.stacked, Expr.stacked, add_assoc]
      exact account_add_left_comm ..
    · cases h

/-- Applying some of the waiting operators moves what they account for to the stack. -/
theorem waiting_add_stacked_of_reduce? {next : Operator} {qs : List Pending}
    (h : reduce? next ps xs = some (qs, ys)) :
    waiting qs + Expr.stacked ys = waiting ps + Expr.stacked xs := by
  induction ps generalizing xs with
  | nil =>
    obtain ⟨rfl, rfl⟩ := Prod.mk.inj (Option.some.inj h)
    rfl
  | cons p ps ih =>
    rw [reduce?] at h
    split at h
    · obtain ⟨zs, hzs, h⟩ := Option.bind_eq_some_iff.1 h
      rw [ih h, stacked_of_applied? hzs, waiting_cons, account_add_left_comm, add_assoc]
    · obtain ⟨rfl, rfl⟩ := Prod.mk.inj (Option.some.inj h)
      rfl

/-- Applying all of them moves everything. -/
theorem stacked_of_finish? (h : finish? ps xs = some ys) :
    Expr.stacked ys = waiting ps + Expr.stacked xs := by
  induction ps generalizing xs with
  | nil =>
    obtain rfl := Option.some.inj h
    exact (zero_add _).symm
  | cons p ps ih =>
    obtain ⟨zs, hzs, h⟩ := Option.bind_eq_some_iff.1 h
    rw [ih h, stacked_of_applied? hzs, waiting_cons, account_add_left_comm, add_assoc]

end Pending

namespace Piece

/-- What a piece of a row accounts for. -/
def account : Piece → Account
  | unary p | binary p => p.account
  | operand x => x.account

/-- What a row accounts for. -/
def accountAll (row : List Piece) : Account := (row.map account).sum

theorem accountAll_cons (piece : Piece) (row : List Piece) :
    accountAll (piece :: row) = piece.account + accountAll row := List.sum_cons

theorem accountAll_append (row row' : List Piece) :
    accountAll (row ++ row') = accountAll row + accountAll row' := by
  rw [accountAll, List.map_append, List.sum_append]
  rfl

/-- Rows one behind the other account for what each of them does. -/
theorem accountAll_flatten (rows : List (List Piece)) :
    accountAll rows.flatten = (rows.map accountAll).sum := by
  induction rows with
  | nil => rfl
  | cons row rows ih => rw [List.flatten_cons, accountAll_append, ih, List.map_cons, List.sum_cons]

/-- What waits, what is on the stack and what is still to be read comes to the expression. -/
theorem account_of_resolveFrom? {row : List Piece} {ps : List Pending} {xs : List Expr} {x : Expr}
    (h : resolveFrom? row ps xs = some x) :
    x.account = Pending.waiting ps + (Expr.stacked xs + accountAll row) := by
  induction row generalizing ps xs with
  | nil =>
    rw [resolveFrom?] at h
    split at h
    next y hy =>
      obtain rfl := Option.some.inj h
      have hstacked := Pending.stacked_of_finish? hy
      rw [Expr.stacked, Expr.stacked, zero_add] at hstacked
      rw [hstacked, accountAll, List.map_nil, List.sum_nil, add_zero]
    · cases h
  | cons piece row ih =>
    rw [accountAll_cons]
    cases piece with
    | unary p =>
      rw [ih h, account, Pending.waiting_cons, Pending.account_add_left_comm,
        Pending.account_add_left_comm, add_assoc]
    | operand y => rw [ih h, account, Expr.stacked, add_assoc]
    | binary p =>
      rw [resolveFrom?] at h
      split at h
      next qs ys hreduce =>
        -- The operators that are applied before `p` waits only move from the one heap to the other.
        calc
          x.account = Pending.waiting (p :: qs) + (Expr.stacked ys + accountAll row) := ih h
          _ = p.account + (Pending.waiting qs + Expr.stacked ys + accountAll row) := by
            rw [Pending.waiting_cons, add_assoc, add_assoc]
          _ = p.account + (Pending.waiting ps + Expr.stacked xs + accountAll row) := by
            rw [Pending.waiting_add_stacked_of_reduce? hreduce]
          _ = Pending.waiting ps + (Expr.stacked xs + (p.account + accountAll row)) := by
            rw [Pending.account_add_left_comm, Pending.account_add_left_comm, add_assoc]
      · cases h

/-- **Resolving a row loses none of its pieces**, whatever the priorities are, and operands keep
their order. -/
theorem account_of_resolve? {row : List Piece} {x : Expr} (h : resolve? row = some x) :
    x.account = accountAll row := by
  rw [account_of_resolveFrom? h, Expr.stacked, zero_add]
  exact zero_add _

end Piece

end BslLint
