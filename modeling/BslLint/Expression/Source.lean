import BslLint.Expression.Basic

/-!
# Writing expressions

`Expr.source` writes an expression with parentheses around every operation, so that reading it again
needs no priorities. Accesses, calls and choices have brackets of their own and get none. The texts
of terminals are looked up by the function `text`.
-/

namespace BslLint

namespace Expr

variable (text : TokenRange → String)

mutual

/-- The expression as text. -/
def source : Expr → String
  | terminal _ o => text o.range
  | unary op x _ =>
    "(" ++ op.symbol ++ (if op = .not then " " else "") ++ source x ++ ")"
  | binary .dereference left right _ => source left ++ "." ++ source right
  | binary .indexAccess left right _ => source left ++ "[" ++ source right ++ "]"
  | binary op left right _ =>
    "(" ++ source left ++ " " ++ op.symbol ++ " " ++ source right ++ ")"
  | ternary condition yes no _ =>
    "?(" ++ source condition ++ ", " ++ source yes ++ ", " ++ source no ++ ")"
  | call .method callee args _ => source callee ++ "(" ++ sourceList args ++ ")"
  | call .constructor callee args _ =>
    "Новый" ++
      (if callee.origin.token? = some (.keyword .new) then "" else " " ++ source callee) ++
      "(" ++ sourceList args ++ ")"

/-- Arguments with commas between them. -/
def sourceList : List Expr → String
  | [] => ""
  | [x] => source x
  | x :: xs => source x ++ ", " ++ sourceList xs

end

end Expr

/-- An expression of a document as text. -/
def Document.sourceOf (d : Document) (x : Expr) : String := x.source d.rangeText

end BslLint
