import BslLint.Expression.Basic

/-!
# Resolving priorities

An expression is written as a row of operands, operators between them, and operators in front of
them. `Piece.resolve?` turns the row into one expression. It keeps a stack of operands and a stack
of operators that still wait for theirs. An operator between operands first applies the waiting
operators that bind tighter than it does, or as tightly if it groups to the left; at the end of the
row all that still wait are applied.

The answer is none if the row does not come out as a single expression.
-/

namespace BslLint

/-- An operator that waits for its operands, and where it comes from. -/
structure Pending where
  /-- The operator. -/
  operator : Operator
  /-- The node of the operator and its tokens. -/
  origin : Origin
  deriving DecidableEq, Repr

/-- A piece of the row that an expression is written as. -/
inductive Piece where
  /-- An operator in front of an operand. -/
  | unary (p : Pending)
  /-- An operand. -/
  | operand (x : Expr)
  /-- An operator between operands. -/
  | binary (p : Pending)

namespace Pending

/-- Applies an operator to the topmost operands. The range of the result covers what it is made
of. -/
def applied? (p : Pending) (operands : List Expr) : Option (List Expr) :=
  if p.operator.isUnary then
    match operands with
    | x :: xs =>
      some (.unary p.operator x ⟨p.origin.node, p.origin.range.cover x.range, none⟩ :: xs)
    | [] => none
  else
    match operands with
    | right :: left :: xs =>
      some (.binary p.operator left right
        ⟨p.origin.node, left.range.cover right.range, none⟩ :: xs)
    | _ => none

/-- Whether a waiting operator is applied before another one is put behind it. -/
def yields (p : Pending) (next : Operator) : Bool :=
  next.priority < p.operator.priority ||
    (p.operator.priority == next.priority && !next.isRightAssociative)

/-- Applies the waiting operators that come before `next`. -/
def reduce? (next : Operator) : List Pending → List Expr → Option (List Pending × List Expr)
  | [], operands => some ([], operands)
  | p :: ps, operands =>
    if p.yields next then (p.applied? operands).bind (reduce? next ps)
    else some (p :: ps, operands)

/-- Applies all waiting operators. -/
def finish? : List Pending → List Expr → Option (List Expr)
  | [], operands => some operands
  | p :: ps, operands => (p.applied? operands).bind (finish? ps)

end Pending

namespace Piece

/-- Resolves the rest of a row, given the waiting operators and the operands so far. -/
def resolveFrom? : List Piece → List Pending → List Expr → Option Expr
  | [], pending, operands =>
    match Pending.finish? pending operands with
    | some [x] => some x
    | _ => none
  | unary p :: row, pending, operands => resolveFrom? row (p :: pending) operands
  | operand x :: row, pending, operands => resolveFrom? row pending (x :: operands)
  | binary p :: row, pending, operands =>
    match Pending.reduce? p.operator pending operands with
    | some (pending, operands) => resolveFrom? row (p :: pending) operands
    | none => none

/-- The expression that a row stands for. -/
def resolve? (row : List Piece) : Option Expr := resolveFrom? row [] []

end Piece

end BslLint
