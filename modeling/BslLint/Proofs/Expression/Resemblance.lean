import BslLint.Proofs.Expression.Phrases
import BslLint.Proofs.Expression.Rereading
import BslLint.Proofs.Expression.Shape
import Mathlib.Data.List.Forall2

/-!
# Expressions that resemble each other

An expression of one document resembles one of another document if it has the same shape. What is
put together alike from expressions that resemble each other does so too: operations, choices, and
calls with their arguments.

For rows this needs that priorities are resolved in the same way. Pieces that are alike are climbed
alike (`Piece.Climbs.alike`), so rows of them come to expressions that resemble each other.
-/

namespace BslLint

/-! ### Expressions of the same shape -/

namespace Expr

/-- The expression of one document has the shape of the expression of the other. -/
def Resembles (d' d : Document) (y x : Expr) : Prop := d'.shapeOf y = d.shapeOf x

/-- Some expressions resemble others one by one. -/
abbrev ResembleAll (d' d : Document) : List Expr → List Expr → Prop := List.Forall₂ (Resembles d' d)

variable {d' d : Document}

namespace Resembles

variable {x x₁ x₂ x₃ y y₁ y₂ y₃ : Expr}

theorem terminal {o' o : Origin} (h : d'.tokenTexts o'.range = d.tokenTexts o.range)
    (symbol : Symbol) : Resembles d' d (.terminal symbol o') (.terminal symbol o) :=
  congrArg (Shape.terminal symbol) h

theorem unary (h : Resembles d' d y x) (op : Operator) (o' o : Origin) :
    Resembles d' d (.unary op y o') (.unary op x o) := congrArg (Shape.unary op) h

theorem binary (h₁ : Resembles d' d y₁ x₁) (h₂ : Resembles d' d y₂ x₂) (op : Operator)
    (o' o : Origin) : Resembles d' d (.binary op y₁ y₂ o') (.binary op x₁ x₂ o) :=
  congrArg₂ (Shape.binary op) h₁ h₂

/-- Operators that are the same go in front of what is of one shape, -/
theorem before (h : Resembles d' d y x) {q p : Pending} (hop : q.operator = p.operator) :
    Resembles d' d (q.before y) (p.before x) := by
  rw [Pending.before, Pending.before, hop]
  exact h.unary _ _ _

/-- or between it. -/
theorem between (h₁ : Resembles d' d y₁ x₁) (h₂ : Resembles d' d y₂ x₂) {q p : Pending}
    (hop : q.operator = p.operator) : Resembles d' d (q.between y₁ y₂) (p.between x₁ x₂) := by
  rw [Pending.between, Pending.between, hop]
  exact h₁.binary h₂ _ _ _

theorem ternary (h₁ : Resembles d' d y₁ x₁) (h₂ : Resembles d' d y₂ x₂) (h₃ : Resembles d' d y₃ x₃)
    (o' o : Origin) : Resembles d' d (.ternary y₁ y₂ y₃ o') (.ternary x₁ x₂ x₃ o) := by
  unfold Resembles Document.shapeOf at *
  rw [shape, shape, h₁, h₂, h₃]

theorem isEmpty_eq (h : Resembles d' d y x) : y.isEmpty = x.isEmpty := by
  rw [← isEmpty_shape d'.texts d'.texts y, ← isEmpty_shape d.texts d.texts x]
  exact congrArg Shape.isEmpty h

/-- Calls of one kind with one name and arguments of the same shapes are of one shape. -/
theorem call {ys xs : List Expr} (h : Resembles d' d y x) (hys : ResembleAll d' d ys xs)
    (kind : CallKind) (o' o : Origin) :
    Resembles d' d (.call kind y ys o') (.call kind x xs o) := by
  have hlist : shapeList d'.texts d'.texts ys = shapeList d.texts d.texts xs := by
    induction hys with
    | nil => rfl
    | cons hyx _ ih => exact congrArg₂ List.cons hyx ih
  cases kind with
  | method => exact congrArg₂ (Shape.call .method) h hlist
  | constructor => exact congrArg₂ (Shape.call .constructor) h hlist

end Resembles

/-- Arguments resemble others if all that were read do. -/
theorem ResembleAll.trimmed {ys xs : List Expr} (h : ResembleAll d' d ys xs) :
    ResembleAll d' d (trimmed ys) (trimmed xs) := by
  obtain _ | ⟨hyx, _ | ⟨hyx', h⟩⟩ := h
  · exact .nil
  · unfold Expr.trimmed
    dsimp only
    rw [hyx.isEmpty_eq]
    split
    · exact .nil
    · exact .cons hyx .nil
  · exact .cons hyx (.cons hyx' h)

end Expr

/-! ### Rows of pieces that are alike -/

namespace Piece

open BslLint.Expr

/-- The pieces have the same operator, or operands that resemble each other. -/
inductive Alike (d' d : Document) : Piece → Piece → Prop where
  | unary {q p : Pending} (h : q.operator = p.operator) : Alike d' d (.unary q) (.unary p)
  | operand {y x : Expr} (h : Resembles d' d y x) : Alike d' d (.operand y) (.operand x)
  | binary {q p : Pending} (h : q.operator = p.operator) : Alike d' d (.binary q) (.binary p)

variable {d' d : Document} {min : Nat} {o : Option Expr} {row row' rest : List Piece} {x : Expr}

/-- What stops a climb in front of one row stops it in front of the other. -/
theorem Stops.alike (h : Stops min row) (hrow : List.Forall₂ (Alike d' d) row' row) :
    Stops min row' := by
  cases hrow with
  | nil => exact h
  | cons hpiece _ =>
    rintro q ⟨⟩
    cases hpiece with
    | binary hop =>
      rw [hop]
      exact h _ rfl

/-- **Pieces that are alike are climbed alike.** -/
theorem Climbs.alike (h : Climbs min o row x rest) {o' : Option Expr}
    (ho : Option.Rel (Resembles d' d) o' o) (hrow : List.Forall₂ (Alike d' d) row' row) :
    ∃ y rest', Climbs min o' row' y rest' ∧ Resembles d' d y x ∧
      List.Forall₂ (Alike d' d) rest' rest := by
  -- Climbing looks at nothing but the operators, and those are the same in both rows.
  induction h generalizing o' row' with
  | unary hp _ _ ih ihOn =>
    cases ho
    rcases hrow with - | ⟨⟨hop⟩, hrow⟩
    obtain ⟨y, rest', hclimbs, hyx, hrest⟩ := ih .none hrow
    obtain ⟨z, rest'', hon, hzx, hrest⟩ := ihOn (.some (hyx.before hop)) hrest
    exact ⟨z, rest'', .unary (hop ▸ hp) (hop ▸ hclimbs) hon, hzx, hrest⟩
  | operand _ ihOn =>
    cases ho
    rcases hrow with - | ⟨- | hyx, hrow⟩
    obtain ⟨z, rest', hon, hzx, hrest⟩ := ihOn (.some hyx) hrow
    exact ⟨z, rest', .operand hon, hzx, hrest⟩
  | binary hp hmin _ _ ih ihOn =>
    rcases ho with hleft | -
    rcases hrow with - | ⟨- | - | hop, hrow⟩
    obtain ⟨y, rest', hclimbs, hyx, hrest⟩ := ih .none hrow
    obtain ⟨z, rest'', hon, hzx, hrest⟩ := ihOn (.some (hleft.between hyx hop)) hrest
    exact ⟨z, rest'', .binary (hop ▸ hp) (hop ▸ hmin) (hop ▸ hclimbs) hon, hzx, hrest⟩
  | stop hstops =>
    rcases ho with hleft | -
    exact ⟨_, row', .stop (hstops.alike hrow), hleft, hrow⟩

/-- Rows of pieces that are alike come to expressions that resemble each other. -/
theorem Row.exists_resolve?_alike (h : Row (fun _ ↦ True) true row) (hx : resolve? row = some x)
    (hrow : List.Forall₂ (Alike d' d) row' row) :
    ∃ y, resolve? row' = some y ∧ Resembles d' d y x := by
  obtain ⟨y, rest', hclimbs, hyx, ⟨⟩⟩ := (h.climbs_of_resolve? hx).alike .none hrow
  exact ⟨y, hclimbs.resolve?_eq (hclimbs.isRow .nil), hyx⟩

end Piece

end BslLint
