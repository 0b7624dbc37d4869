import BslLint.Expression.Basic

/-!
# Equality of expressions

Two expressions are the same if they have the same shape with the same operators, and their
terminals have the same texts, token by token (`Expr.same`). Where they stand does not matter.

Another comparison can be told to disregard the order of chains (`Comparison.same`). Where `chains`
says so, a chain of a logical operator is compared without regard to the order of its operands:
`а ИЛИ (б ИЛИ в)` is the same as `в ИЛИ (а ИЛИ б)`. Its operands are paired up greedily: they take
the first operand of the other chain that they are the same as, one after the other, and strike it
out. That greedy choice is as good as any because the comparison is an equivalence.
-/

namespace BslLint

/-! ### Pairing up two lists -/

section

variable {α β : Type}

/-- Whether two lists are equally long and their elements pass the test place by place. -/
def allPaired (test : α → β → Bool) : List α → List β → Bool
  | [], [] => true
  | x :: xs, y :: ys => test x y && allPaired test xs ys
  | _, _ => false

/-- A list without the first element that passes a test, none if no element does. -/
def strikeFirst? (test : β → Bool) : List β → Option (List β)
  | [] => none
  | y :: ys => if test y then some ys else (strikeFirst? test ys).map (y :: ·)

/-- Whether each element of the first list finds an element of the second to pass the test with, no
element being used twice or left over. -/
def matchedGreedily (test : α → β → Bool) : List α → List β → Bool
  | [], ys => ys.isEmpty
  | x :: xs, ys =>
    match strikeFirst? (test x) ys with
    | some rest => matchedGreedily test xs rest
    | none => false

end

/-! ### Comparing expressions -/

/-- Whether two expressions are the same by shape alone, where `texts` gives the texts of the tokens
of a range. -/
def Expr.same (texts : TokenRange → List String) : Expr → Expr → Bool
  | .terminal s o, .terminal s' o' =>
    s == s' && allPaired (· == ·) (texts o.range) (texts o'.range)
  | .unary op x _, .unary op' x' _ => op == op' && same texts x x'
  | .binary op left right _, .binary op' left' right' _ =>
    op == op' && same texts left left' && same texts right right'
  | .ternary x y z _, .ternary x' y' z' _ => same texts x x' && same texts y y' && same texts z z'
  | .call kind callee args _, .call kind' callee' args' _ =>
    kind == kind' && args.length == args'.length && same texts callee callee' &&
      (args.attach.zip args').all fun (x, y) ↦ same texts x.val y
  | _, _ => false
termination_by x => sizeOf x
decreasing_by
  all_goals simp only [Expr.unary.sizeOf_spec, Expr.binary.sizeOf_spec, Expr.ternary.sizeOf_spec,
    Expr.call.sizeOf_spec]
  all_goals try have hlt := List.sizeOf_lt_of_mem x.property
  all_goals omega

/-- How expressions are compared. -/
structure Comparison where
  /-- The texts of the tokens of a range. -/
  texts : TokenRange → List String
  /-- Whether the order of a chain of a logical operator does not matter. -/
  chains : Bool

namespace Comparison

/-- Whether two expressions are the same. -/
def same (c : Comparison) : Expr → Expr → Bool
  | .terminal s o, .terminal s' o' => s == s' && c.texts o.range == c.texts o'.range
  | .unary op x _, .unary op' x' _ => op == op' && same c x x'
  | .binary op left right _, .binary op' left' right' _ =>
    op == op' &&
      if c.chains && op.isLogical then
        matchedGreedily (fun x y ↦ same c x.val y) (left :: Expr.chain op right).attach
          (left' :: Expr.chain op right')
      else same c left left' && same c right right'
  | .ternary x y z _, .ternary x' y' z' _ => same c x x' && same c y y' && same c z z'
  | .call kind callee args _, .call kind' callee' args' _ =>
    kind == kind' && same c callee callee' &&
      allPaired (fun x y ↦ same c x.val y) args.attach args'
  | _, _ => false
termination_by x => sizeOf x
decreasing_by
  all_goals simp only [Expr.unary.sizeOf_spec, Expr.binary.sizeOf_spec, Expr.ternary.sizeOf_spec,
    Expr.call.sizeOf_spec]
  case _ => omega
  case _ =>
    rcases List.mem_cons.1 x.property with h | h
    · rw [h]; omega
    · have := Expr.sizeOf_le_of_mem_chain h; omega
  case _ => omega
  case _ => omega
  case _ => omega
  case _ => omega
  case _ => omega
  case _ => omega
  case _ => have := List.sizeOf_lt_of_mem x.property; omega

end Comparison

/-- The comparison by shape alone. -/
def Document.exactly (d : Document) : Comparison := ⟨d.tokenTexts, false⟩

/-- The comparison that does not look at the order of chains. -/
def Document.upToChains (d : Document) : Comparison := ⟨d.tokenTexts, true⟩

end BslLint
