import BslLint.Proofs.Expression.Normal

/-!
# The shape of an expression

Two expressions of different documents cannot be equal, because their parts come from different
places. What they can have in common is the `Shape`: the same kinds of nodes with the same operators
and kinds of calls, the same lists of arguments, and terminals with the same tokens.

The word that stands for the type of an object without one is always written in the same way,
however it was spelt. The second function of `Expr.shape` tells the tokens of types, so that this
can be told as a shape too, and `Normal.shape_eq_iff` says when it makes a difference.
-/

namespace BslLint

/-- What is left of an expression without the places that its parts come from. -/
inductive Shape where
  /-- A terminal and the texts of its tokens. -/
  | terminal (symbol : Symbol) (texts : List String)
  /-- An operator in front of an operand. -/
  | unary (operator : Operator) (operand : Shape)
  /-- An operator between two operands. -/
  | binary (operator : Operator) (left right : Shape)
  /-- One of two values by a condition. -/
  | ternary (condition yes no : Shape)
  /-- A call, or the making of an object. -/
  | call (kind : CallKind) (callee : Shape) (arguments : List Shape)
  deriving Repr, Inhabited

/-- The shape of an expression that was left out. -/
def Shape.isEmpty : Shape → Bool
  | terminal .empty _ => true
  | _ => false

namespace Expr

mutual

/-- The shape of an expression: `texts` tells the tokens of terminals, and `types` those of
terminals that stand for the type of a new object. -/
def shape (texts types : Origin → List String) : Expr → Shape
  | terminal symbol o => .terminal symbol (texts o)
  | unary op x _ => .unary op (shape texts types x)
  | binary op left right _ => .binary op (shape texts types left) (shape texts types right)
  | ternary condition yes no _ =>
    .ternary (shape texts types condition) (shape texts types yes) (shape texts types no)
  | call .method callee args _ =>
    .call .method (shape texts types callee) (shapeList texts types args)
  | call .constructor callee args _ =>
    .call .constructor (shape types types callee) (shapeList texts types args)

/-- The shapes of some expressions. -/
def shapeList (texts types : Origin → List String) : List Expr → List Shape
  | [] => []
  | x :: xs => shape texts types x :: shapeList texts types xs

end

mutual

/-- The expression and all inside of it. -/
def parts : Expr → List Expr
  | terminal symbol o => [terminal symbol o]
  | unary op x o => unary op x o :: parts x
  | binary op left right o => binary op left right o :: (parts left ++ parts right)
  | ternary condition yes no o =>
    ternary condition yes no o :: (parts condition ++ (parts yes ++ parts no))
  | call kind callee args o => call kind callee args o :: (parts callee ++ partsList args)

/-- All that is inside of some expressions. -/
def partsList : List Expr → List Expr
  | [] => []
  | x :: xs => parts x ++ partsList xs

end

/-- Whether the expression is a literal. -/
def isLiteral : Expr → Bool
  | terminal .literal _ => true
  | _ => false

/-- Whether the expression is an access to a literal. -/
def isLiteralAccess : Expr → Bool
  | binary .dereference left _ _ | binary .indexAccess left _ _ => left.isLiteral
  | _ => false

theorem mem_partsList {y : Expr} {xs : List Expr} : y ∈ partsList xs ↔ ∃ x ∈ xs, y ∈ parts x := by
  induction xs with
  | nil => simp [partsList]
  | cons x xs ih => simp [partsList, ih]

theorem shapeList_eq_map (texts types : Origin → List String) (xs : List Expr) :
    shapeList texts types xs = xs.map (shape texts types) := by
  induction xs with
  | nil => rfl
  | cons x xs ih => rw [shapeList, ih, List.map_cons]

theorem isEmpty_shape (texts types : Origin → List String) (x : Expr) :
    (x.shape texts types).isEmpty = x.isEmpty := by
  cases x with
  | terminal symbol o => cases symbol <;> rfl
  | call kind callee args o => cases kind <;> rfl
  | _ => rfl

end Expr

namespace Document

variable (d : Document)

/-- The texts of the tokens of a terminal. -/
def texts (o : Origin) : List String := d.tokenTexts o.range

/-- The texts of the tokens that a type is written with: one way for the word without a type. -/
def typeTexts (o : Origin) : List String :=
  if o.token? = some (.keyword .new) then ["Новый"] else d.texts o

/-- The shape of an expression of the document. -/
def shapeOf (x : Expr) : Shape := x.shape d.texts d.texts

/-- Whether the expression makes an object without a type by a word that is not written as it is
spelt. -/
def isRespelled : Expr → Bool
  | .call .constructor callee _ _ =>
    callee.origin.token? = some (.keyword .new) && d.tokenTexts callee.range != ["Новый"]
  | _ => false

variable {d}

/-- The word is written in one way, and this shows where it was spelt in another. -/
theorem typeTexts_eq_iff {s : Origin} {args : List Expr} {o : Origin} :
    d.typeTexts s = d.texts s ↔
      d.isRespelled (.call .constructor (.terminal .identifier s) args o) = false := by
  have hrespelled : d.isRespelled (.call .constructor (.terminal .identifier s) args o) =
      (decide (s.token? = some (.keyword .new)) && d.texts s != ["Новый"]) := rfl
  rw [hrespelled, typeTexts]
  split
  next h =>
    rw [decide_eq_true h, Bool.true_and, bne_eq_false_iff_eq]
    exact eq_comm
  next h => rw [decide_eq_false h, Bool.false_and, eq_self, eq_self]

end Document

namespace Expr

variable {d : Document}

/-- Arguments show it too, as far as they were written. -/
theorem shapeList_eq_iff {args : List Expr}
    (h : ∀ a ∈ args, a.isEmpty = false → (a.shape d.texts d.typeTexts = a.shape d.texts d.texts ↔
      ∀ y ∈ a.parts, d.isRespelled y = false)) :
    shapeList d.texts d.typeTexts args = shapeList d.texts d.texts args ↔
      ∀ y ∈ partsList args, d.isRespelled y = false := by
  have hall : ∀ a ∈ args, (a.shape d.texts d.typeTexts = a.shape d.texts d.texts ↔
      ∀ y ∈ a.parts, d.isRespelled y = false) := by
    -- An argument left out has no words, so there is nothing in it to be respelt.
    intro a ha
    cases hempty : a.isEmpty with
    | false => exact h a ha hempty
    | true =>
      unfold isEmpty at hempty
      split at hempty
      · simp [shape, parts, Document.isRespelled]
      · exact nomatch hempty
  rw [shapeList_eq_map, shapeList_eq_map, List.map_inj_left]
  constructor
  · intro hshapes y hy
    obtain ⟨a, ha, hya⟩ := mem_partsList.1 hy
    exact (hall a ha).1 (hshapes a ha) y hya
  · intro hparts a ha
    exact (hall a ha).2 fun y hy ↦ hparts y (mem_partsList.2 ⟨a, ha, hy⟩)

/-- The way in which types are written shows in the shape only where a word is respelt. -/
theorem Normal.shape_eq_iff {x : Expr} (h : Normal d x) :
    x.shape d.texts d.typeTexts = x.shape d.texts d.texts ↔
      ∀ y ∈ x.parts, d.isRespelled y = false := by
  induction h with
  | literal | name => simp [shape, parts, Document.isRespelled]
  | unary _ _ ih => simp [shape, parts, Document.isRespelled, ih]
  | operation _ _ _ ihx ihy =>
    simp [shape, parts, Document.isRespelled, ihx, ihy, or_imp, forall_and]
  | property _ _ _ ih => simp [shape, parts, Document.isRespelled, ih, or_imp, forall_and]
  | method _ _ _ _ _ ih ihargs =>
    simp [shape, parts, Document.isRespelled, ih, shapeList_eq_iff ihargs, or_imp, forall_and]
  | index _ _ ihx ihy => simp [shape, parts, Document.isRespelled, ihx, ihy, or_imp, forall_and]
  | ternary _ _ _ ihx ihy ihz =>
    simp [shape, parts, Document.isRespelled, ihx, ihy, ihz, or_imp, forall_and]
  | call _ _ _ ihargs =>
    simp [shape, parts, Document.isRespelled, shapeList_eq_iff ihargs, or_imp, forall_and]
  | @new args o s _ _ _ _ ihargs | @newUntyped args o s _ _ _ _ ihargs =>
    have hname : d.isRespelled (.terminal .identifier s) = false := rfl
    simp [shape, parts, @Document.typeTexts_eq_iff d s args o, shapeList_eq_iff ihargs, hname,
      or_imp, forall_and]

end Expr

end BslLint
