import BslLint.Expression.OfNode
import BslLint.Proofs.Syntax.Relabelling

/-!
# Expressions do not depend on texts

`Node.expr?` looks at the kinds of nodes and tokens. What it makes holds numbers and ranges, and no
token, so the expression of a node stays the same when its tokens are replaced by others of the same
kinds (`Node.expr?_relabel`).
-/

namespace BslLint

variable {f : Token → Token} (hf : ∀ t, (f t).kind = t.kind)

include hf

/-- Where an expression comes from is a matter of numbers and ranges, not of tokens. -/
theorem Origin.ofNode_relabel (n : Node) : ofNode (n.relabel f) = ofNode n := by
  rw [ofNode, ofNode, n.tokenKind?_relabel hf, n.range_relabel]
  rfl

namespace Expr

/-- So is where a symbol comes from that stands for itself. -/
theorem ofTerminal_relabel (symbol : Symbol) (n : Node) :
    ofTerminal symbol (n.relabel f) = ofTerminal symbol n := by
  rw [ofTerminal, ofTerminal, Origin.ofNode_relabel hf]

/-- An operator is told by the kind of its token, -/
theorem operation?_relabel (n : Node) : operation? (n.relabel f) = operation? n := by
  simp only [operation?, Node.children_relabel, List.head?_map, Option.bind_eq_bind,
    Option.bind_map, Function.comp_def, Node.kind_relabel, Origin.ofNode_relabel hf]
  refine congrArg _ (funext fun first ↦ ?_)
  split
  · simp only [Node.tokenKind?_relabel hf]
  · simp only [Option.bind_some, Node.tokenKind?_relabel hf]

/-- in front of a value as well. -/
theorem unaryModifier?_relabel (n : Node) : unaryModifier? (n.relabel f) = unaryModifier? n := by
  simp only [unaryModifier?, Node.children_relabel, List.head?_map, Option.bind_eq_bind,
    Option.bind_map, Function.comp_def, Node.tokenKind?_relabel hf, Origin.ofNode_relabel hf]

section

variable {inner : Node → Option Expr} (hinner : ∀ n, inner (n.relabel f) = inner n)

include hinner

omit hf in
/-- The functions that make expressions look at kinds and places alone, one like the other. -/
theorem argument?_relabel (n : Node) : argument? inner (n.relabel f) = argument? inner n := by
  rw [argument?, argument?, Node.childOfKind?_relabel]
  cases n.childOfKind? .expression with
  | none => rfl
  | some x => exact hinner x

omit hf in
theorem arguments?_relabel (n : Node) : arguments? inner (n.relabel f) = arguments? inner n := by
  simp only [arguments?, Node.childOfKind?_relabel, Option.bind_eq_bind, Option.bind_map,
    Function.comp_def, Node.childrenOfKind_relabel, List.mapM_map, argument?_relabel hinner]

theorem methodCall?_relabel (n : Node) : methodCall? inner (n.relabel f) = methodCall? inner n := by
  simp only [methodCall?, Node.childOfKind?_relabel, Option.bind_eq_bind, Option.bind_map,
    Function.comp_def, Node.children_relabel, List.head?_map, arguments?_relabel hinner,
    ofTerminal_relabel hf, Origin.ofNode_relabel hf]

/-- The word for a new object is found by its kind. -/
theorem newExpression?_relabel (n : Node) :
    newExpression? inner (n.relabel f) = newExpression? inner n := by
  simp only [newExpression?, Node.childOfKind?_relabel, Node.childToken?_relabel hf,
    Option.bind_eq_bind]
  cases n.childOfKind? .typeName <;> cases n.childOfKind? .doCall <;>
    simp only [Option.map_none, Option.map_some, Option.bind_some, Option.bind_map,
      Function.comp_def, arguments?_relabel hinner, ofTerminal_relabel hf, Origin.ofNode_relabel hf]

theorem ternaryOperator?_relabel (n : Node) :
    ternaryOperator? inner (n.relabel f) = ternaryOperator? inner n := by
  simp only [ternaryOperator?, Node.childrenOfKind_relabel, List.getElem?_map, Option.bind_eq_bind,
    Option.bind_map, Function.comp_def, hinner, Origin.ofNode_relabel hf]

/-- What follows a name is told by the kinds of the nodes, -/
theorem access?_relabel (n : Node) : access? inner (n.relabel f) = access? inner n := by
  simp only [access?, Node.children_relabel, List.head?_map, Option.bind_eq_bind, Option.bind_map,
    Function.comp_def, Node.kind_relabel, List.getElem?_map, ofTerminal_relabel hf,
    Node.childOfKind?_relabel, hinner, methodCall?_relabel hf hinner]

theorem modified?_relabel (base : Expr) (n : Node) :
    modified? inner base (n.relabel f) = modified? inner base n := by
  rw [modified?, modified?, access?_relabel hf hinner, n.range_relabel, n.tokenKind?_relabel hf]
  rfl

theorem allModified?_relabel (base : Expr) (n : Node) :
    allModified? inner base (n.relabel f) = allModified? inner base n := by
  simp only [allModified?, Node.childrenOfKind_relabel, List.foldlM_map,
    modified?_relabel hf hinner]

/-- and so is the name with all that follows it. -/
theorem complexIdentifier?_relabel (n : Node) :
    complexIdentifier? inner (n.relabel f) = complexIdentifier? inner n := by
  simp only [complexIdentifier?, Node.children_relabel, List.head?_map, Option.bind_eq_bind,
    Option.bind_map, Function.comp_def, Node.kind_relabel, ofTerminal_relabel hf,
    methodCall?_relabel hf hinner, newExpression?_relabel hf hinner,
    ternaryOperator?_relabel hf hinner, allModified?_relabel hf hinner]

theorem operand?_relabel (n : Node) : operand? inner (n.relabel f) = operand? inner n := by
  simp only [operand?, Node.children_relabel, List.find?_map, Option.bind_eq_bind, Option.bind_map,
    Function.comp_def, Node.kind_relabel, ofTerminal_relabel hf,
    complexIdentifier?_relabel hf hinner, Node.tokenKind?_relabel hf, Node.childOfKind?_relabel,
    hinner, allModified?_relabel hf hinner]

/-- The pieces of an expression are found by the kinds of its children. -/
theorem pieces?_relabel (n : Node) : pieces? inner (n.relabel f) = pieces? inner n := by
  simp only [pieces?, Node.kind_relabel, Node.childrenOfKind_relabel, List.mapM_map,
    Function.comp_def, unaryModifier?_relabel hf, operand?_relabel hf hinner,
    operation?_relabel hf]

/-- One level of an expression looks at kinds alone if the levels below do. -/
theorem ofNode?_relabel (n : Node) : ofNode? inner (n.relabel f) = ofNode? inner n := by
  simp only [ofNode?, Node.kind_relabel, Node.children_relabel, List.mapM_map, Function.comp_def,
    pieces?_relabel hf hinner]

end

/-- The induction is on the depth. -/
theorem nested?_relabel (depth : Nat) (n : Node) :
    nested? depth (n.relabel f) = nested? depth n := by
  induction depth generalizing n with
  | zero => rfl
  | succ depth ih => exact ofNode?_relabel hf ih n

end Expr

/-- **The expression of a node depends on the kinds of its tokens alone.** -/
theorem Node.expr?_relabel (n : Node) : (n.relabel f).expr? = n.expr? := by
  rw [expr?, expr?, n.size_relabel, Expr.nested?_relabel hf]

end BslLint
