import BslLint.Expression.Equality
import BslLint.Expression.OfNode
import BslLint.Pass.Basic
import BslLint.Rule.Info

/-!
# The rule about equal operands

An operation whose operands are the same is found, and so is an operation of a chain whose left
operand comes again further on: in `а И (б И а)` the first `а` says nothing that the second does not
say. Additions and multiplications are left alone, and what is read from an object or a collection
is not looked into.

Expressions are compared without regard to the order of chains. An expression whose node has few
children is not looked at as a whole, but the expressions inside of it are.
-/

namespace BslLint.IdenticalExpressions

/-- The least number of children of an expression that is looked at. -/
def limit : RuleParameter where
  name := "minExpressionSize"
  description := "Minimal number of grammar children for an expression to be checked"
  default := 3

/-- What is known about the rule. -/
def info : RuleInfo where
  code := "IdenticalExpressions"
  name := "There are identical sub-expressions to the left and to the right of the operator"
  type := .error
  criticality := .major
  minutes := 5
  tags := [.suspicious]
  parameters := [limit]

/-! ### Operations -/

/-- An operation with two operands. -/
structure Operation where
  /-- What is done. -/
  operator : Operator
  /-- The operand on the left. -/
  left : Expr
  /-- The operand on the right. -/
  right : Expr
  /-- Where the operation comes from. -/
  origin : Origin
  deriving Repr

/-- Whether the operands of an operator are compared. -/
def isCompared : Operator → Bool
  | .dereference | .indexAccess | .add | .multiply => false
  | _ => true

/-- Whether operations are looked for in the operands of an operator. -/
def isEntered : Operator → Bool
  | .dereference | .indexAccess => false
  | _ => true

mutual

/-- The operations of an expression whose operands are compared, each before those inside of it. -/
def operations : Expr → List Operation
  | .terminal _ _ => []
  | .unary _ x _ => operations x
  | .binary op left right o =>
    if isEntered op then
      (if isCompared op then [⟨op, left, right, o⟩] else []) ++ operations left ++ operations right
    else []
  | .ternary x y z _ => operations x ++ operations y ++ operations z
  | .call _ _ args _ => operationsOfAll args

/-- The operations of all expressions of a list whose operands are compared. -/
def operationsOfAll : List Expr → List Operation
  | [] => []
  | x :: xs => operations x ++ operationsOfAll xs

end

/-! ### Redundancy -/

/-- Whether `x` is an operand or a rest of a chain of `op`. What is no link of the chain holds
nothing. -/
def occursInChain (c : Comparison) (op : Operator) (x : Expr) : Expr → Bool
  | .binary op' left right _ =>
    op' == op && (c.same x left || c.same x right || occursInChain c op x right)
  | _ => false

/-- Whether the left operand of an operation says nothing: it is the same as the right one, or it
comes again in the chain that the operation begins. -/
def isRedundant (c : Comparison) (o : Operation) : Bool :=
  c.same o.left o.right || (o.operator.isLogical && occursInChain c o.operator o.left o.right)

/-! ### The pass -/

/-- The text of the node with an id among those from `n` downwards. -/
def textBelow (d : Document) (n : Node) (id : Nat) : String :=
  match n.preorder.find? (·.id = id) with
  | some m => d.text m
  | none => ""

/-- The text that shows what is repeated: the left operand, or, where that is empty, the right one,
or the whole operation. -/
def snippet (d : Document) (o : Operation) : String :=
  match [o.left.range, o.right.range, o.origin.range].find? (!·.isEmpty) with
  | some range => d.rangeText range
  | none => ""

/-- What is said about an operation inside of a node. -/
def message (d : Document) (n : Node) (o : Operation) : String :=
  "The same expression on both sides of the \"" ++ textBelow d n o.origin.node ++
    "\" operator: " ++ snippet d o

/-- What is found in the expression of a node. -/
def check (d : Document) (n : Node) (x : Expr) : List Finding :=
  ((operations x).filter (isRedundant d.upToChains)).map fun o ↦ .atNode d n (message d n o)

/-- The pass of the rule. An expression that was looked at as a whole is not entered again. -/
def pass (min : Nat) : Pass Unit where
  code := info.code
  kinds := [.expression]
  initial := ()
  visit d n s :=
    if n.children.length < min then .nothing s
    else match n.expr? with
      | none => .nothing s
      | some x => ⟨check d n x, .done .skipChildren, s⟩

end BslLint.IdenticalExpressions
