import BslLint.Expression.Operator
import BslLint.Syntax.Document

/-!
# Expressions

An `Expr` is what an expression means to an analysis: priorities are resolved, parentheses and the
wrappers of the grammar are gone, and five shapes are left. It holds no text. Every part has an
`Origin` that leads back to the syntax tree, and texts are looked up there.
-/

namespace BslLint

/-- Where in a syntax tree a part of an expression comes from. -/
structure Origin where
  /-- The id of the node that the part was made from. -/
  node : Nat
  /-- The tokens of the part. For an operation these are the tokens of the whole operation, while
  `node` is its operator. -/
  range : TokenRange
  /-- The kind of the node's token, if the node is a token. -/
  token? : Option Token.Kind := none
  deriving DecidableEq, Repr, Inhabited

/-- A node as an origin. -/
def Origin.ofNode (n : Node) : Origin := ⟨n.id, n.range, n.tokenKind?⟩

/-- What a terminal stands for. -/
inductive Symbol where
  | literal
  | identifier
  /-- An argument that was left out. -/
  | empty
  deriving DecidableEq, Repr, Inhabited

/-- What is called. -/
inductive CallKind where
  | method
  | constructor
  deriving DecidableEq, Repr, Inhabited

/-- An expression. -/
inductive Expr where
  /-- A literal, a name, or an argument left out. -/
  | terminal (symbol : Symbol) (origin : Origin)
  /-- An operator in front of an operand. -/
  | unary (operator : Operator) (operand : Expr) (origin : Origin)
  /-- An operator between two operands, or an access to the right one in the left one. -/
  | binary (operator : Operator) (left right : Expr) (origin : Origin)
  /-- One of two values by a condition. -/
  | ternary (condition yes no : Expr) (origin : Origin)
  /-- A call of a method, or the making of an object. -/
  | call (kind : CallKind) (callee : Expr) (arguments : List Expr) (origin : Origin)
  deriving Repr, Inhabited

namespace Expr

/-- The name of the shape in listings. -/
def shapeName : Expr → String
  | terminal .. => "Terminal"
  | unary .. => "UnaryOp"
  | binary .. => "BinaryOp"
  | ternary .. => "TernaryOp"
  | call .. => "Call"

/-- Where the expression comes from. -/
def origin : Expr → Origin
  | terminal _ o | unary _ _ o | binary _ _ _ o | ternary _ _ _ o | call _ _ _ o => o

/-- The tokens of the expression. -/
def range (x : Expr) : TokenRange := x.origin.range

/-- Whether the expression is an argument left out. -/
def isEmpty : Expr → Bool
  | terminal .empty _ => true
  | _ => false

/-- The operands that `op` joins in an expression, where links lie on the right-hand side. An
expression without `op` at the top is one operand. -/
def chain (op : Operator) : Expr → List Expr
  | binary op' left right o =>
    if op' = op then left :: chain op right else [binary op' left right o]
  | x => [x]

theorem sizeOf_le_of_mem_chain {op : Operator} {x y : Expr} (h : x ∈ chain op y) :
    sizeOf x ≤ sizeOf y := by
  fun_induction chain op y with
  | case1 left right o ih =>
    rcases List.mem_cons.1 h with rfl | h
    · simp only [binary.sizeOf_spec]; omega
    · have := ih h
      simp only [binary.sizeOf_spec]; omega
  | case2 => simp_all
  | case3 => simp_all

end Expr

end BslLint
