import BslLint.Expression.Resolve

/-!
# Expressions from syntax trees

`Node.expr?` makes an expression out of a node of kind `expression`. It resolves the row of members
and operators; the accesses behind a value are applied to it at once, from left to right.

The answer is none where the tree is broken: at an error node, or where a part is missing.

Expressions occur inside of expressions, so the definitions take the function `inner` for those that
lie deeper, and `Node.expr?` is the one that is its own `inner`, as deep as the tree can be.
-/

namespace BslLint

namespace Expr

/-- A node as a terminal. -/
def ofTerminal (symbol : Symbol) (n : Node) : Expr := .terminal symbol (.ofNode n)

/-- The operator of a node between members. -/
def operation? (n : Node) : Option Pending := do
  let first ← n.children.head?
  let token ←
    if first.kind = .compareOperation ∨ first.kind = .boolOperation then first.children.head?
    else some first
  let operator ← Operator.binary? (← token.tokenKind?)
  return ⟨operator, .ofNode n⟩

/-- The operator of a node in front of a value. -/
def unaryModifier? (n : Node) : Option Pending := do
  let token ← n.children.head?
  let operator ← Operator.unary? (← token.tokenKind?)
  return ⟨operator, .ofNode n⟩

section

variable (inner : Node → Option Expr)

/-- An argument; one without an expression was left out. -/
def argument? (n : Node) : Option Expr :=
  match n.childOfKind? .expression with
  | some x => inner x
  | none => some (.terminal .empty ⟨n.id, .emptyAt n.first, none⟩)

/-- The arguments of a call. A single argument that was left out means that there are none. -/
def arguments? (n : Node) : Option (List Expr) := do
  let list ← n.childOfKind? .callParamList
  let found ← (list.childrenOfKind .callParam).mapM (argument? inner)
  return match found with
    | [x] => if x.isEmpty then [] else [x]
    | xs => xs

/-- A call of a method by its name. -/
def methodCall? (n : Node) : Option Expr := do
  let name ← n.childOfKind? .methodName
  let token ← name.children.head?
  let doCall ← n.childOfKind? .doCall
  return .call .method (ofTerminal .identifier token) (← arguments? inner doCall) (.ofNode n)

/-- The making of an object. Where no type is named, the word that begins it stands for the type. -/
def newExpression? (n : Node) : Option Expr := do
  let callee ←
    match n.childOfKind? .typeName with
    | some type => some type
    | none => n.childToken? (.keyword .new)
  let args ←
    match n.childOfKind? .doCall with
    | some doCall => arguments? inner doCall
    | none => some []
  return .call .constructor (ofTerminal .identifier callee) args (.ofNode n)

/-- A choice between two values. -/
def ternaryOperator? (n : Node) : Option Expr := do
  let parts := n.childrenOfKind .expression
  let condition ← inner (← parts[0]?)
  let yes ← inner (← parts[1]?)
  let no ← inner (← parts[2]?)
  return .ternary condition yes no (.ofNode n)

/-- An access behind a value: what it does and with what. -/
def access? (n : Node) : Option (Operator × Expr) := do
  let access ← n.children.head?
  match access.kind with
  | .accessProperty => do
    let name ← access.children[1]?
    return (.dereference, ofTerminal .identifier name)
  | .accessIndex => do
    let index ← access.childOfKind? .expression
    return (.indexAccess, ← inner index)
  | .accessCall => do
    let method ← access.childOfKind? .methodCall
    return (.dereference, ← methodCall? inner method)
  | _ => none

/-- Applies an access to the value before it. -/
def modified? (base : Expr) (modifier : Node) : Option Expr := do
  let (operator, right) ← access? inner modifier
  return .binary operator base right
    ⟨modifier.id, base.range.cover modifier.range, modifier.tokenKind?⟩

/-- Applies all accesses below a node, from left to right. -/
def allModified? (base : Expr) (owner : Node) : Option Expr :=
  (owner.childrenOfKind .modifier).foldlM (modified? inner) base

/-- A value that is named, made or chosen, with the accesses behind it. -/
def complexIdentifier? (n : Node) : Option Expr := do
  let first ← n.children.head?
  let base ←
    match first.kind with
    | .token => some (ofTerminal .identifier first)
    | .globalMethodCall => methodCall? inner first
    | .newExpression => newExpression? inner first
    | .ternaryOperator => ternaryOperator? inner first
    | _ => none
  allModified? inner base n

/-- A member without the operators in front of it. -/
def operand? (member : Node) : Option Expr := do
  let first ← member.children.find? (·.kind ≠ .unaryModifier)
  match first.kind with
  | .constValue => some (ofTerminal .literal first)
  | .complexIdentifier => complexIdentifier? inner first
  | .token =>
    if first.tokenKind? = some .leftParen then do
      let base ← inner (← member.childOfKind? .expression)
      allModified? inner base member
    else none
  | _ => none

/-- The pieces that a child of an expression adds to the row. -/
def pieces? (child : Node) : Option (List Piece) :=
  match child.kind with
  | .member => do
    let before ← (child.childrenOfKind .unaryModifier).mapM unaryModifier?
    let operand ← operand? inner child
    return before.map .unary ++ [.operand operand]
  | .operation => do
    let operator ← operation? child
    return [.binary operator]
  | _ => none

/-- The expression of a node, given those that lie deeper. -/
def ofNode? (n : Node) : Option Expr :=
  if n.kind = .expression then do
    let row ← n.children.mapM (pieces? inner)
    Piece.resolve? row.flatten
  else none

end

/-- The expression of a node that holds others at most `depth` levels deep. -/
def nested? : Nat → Node → Option Expr
  | 0, _ => none
  | depth + 1, n => ofNode? (nested? depth) n

end Expr

/-- The expression of a node. -/
def Node.expr? (n : Node) : Option Expr := Expr.nested? n.size n

end BslLint
