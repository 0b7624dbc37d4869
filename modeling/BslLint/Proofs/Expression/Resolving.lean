import BslLint.Expression.Resolve

/-!
# A row of pieces comes out as one expression

Whether `Piece.resolve?` answers has nothing to do with priorities. What counts is that operands and
operators between them take turns, a **row** (`Piece.Row`): then the operands on the stack are one
more than the operators that wait for two, before an operator is read, and as many, before an
operand is. Applying an operator keeps the difference, and at the end it leaves one operand.

The same argument carries every property of expressions that operators preserve.
-/

namespace BslLint

/-- A property that an operation has if its operands have it. -/
structure Expr.Lifts (P : Expr → Prop) : Prop where
  /-- It holds of an operator in front of an operand. -/
  unary : ∀ {op x} (o : Origin), op.isUnary = true → P x → P (.unary op x o)
  /-- It holds of an operator between two operands. -/
  binary : ∀ {k op x y} (o : Origin), Operator.binary? k = some op → P x → P y →
    P (.binary op x y o)

theorem Operator.isUnary_of_binary? {k : Token.Kind} {op : Operator} (h : binary? k = some op) :
    op.isUnary = false := by
  unfold binary? at h
  split at h <;> cases h <;> rfl

theorem Operator.isUnary_of_unary? {k : Token.Kind} {op : Operator} (h : unary? k = some op) :
    op.isUnary = true := by
  unfold unary? at h
  split at h <;> cases h <;> rfl

namespace Pending

/-- Operators that may wait. -/
def IsProper (p : Pending) : Prop :=
  p.operator.isUnary = true ∨ ∃ k, Operator.binary? k = some p.operator

/-- The operators that wait for two operands. -/
def countBinary (ps : List Pending) : Nat := ps.countP fun p ↦ !p.operator.isUnary

variable {P : Expr → Prop}

/-- The operands on the stack are `n` more than the operators that wait for two. -/
structure Balanced (P : Expr → Prop) (n : Nat) (ps : List Pending) (xs : List Expr) : Prop where
  /-- The operators may wait. -/
  proper : ∀ p ∈ ps, p.IsProper
  /-- The operands have the property. -/
  operands : ∀ x ∈ xs, P x
  /-- There are enough operands and not too many. -/
  length_eq : xs.length = countBinary ps + n

namespace Balanced

variable {n : Nat} {p : Pending} {ps : List Pending} {xs : List Expr} {x : Expr}

theorem push_unary (h : Balanced P n ps xs) (hp : p.operator.isUnary = true) :
    Balanced P n (p :: ps) xs := by
  refine ⟨List.forall_mem_cons.2 ⟨.inl hp, h.proper⟩, h.operands, ?_⟩
  rw [countBinary, List.countP_cons_of_neg (by rw [hp]; decide)]
  exact h.length_eq

theorem push_binary (h : Balanced P (n + 1) ps xs) {k : Token.Kind}
    (hp : Operator.binary? k = some p.operator) : Balanced P n (p :: ps) xs := by
  refine ⟨List.forall_mem_cons.2 ⟨.inr ⟨k, hp⟩, h.proper⟩, h.operands, ?_⟩
  have hlength := h.length_eq
  rw [countBinary, List.countP_cons_of_pos (by rw [Operator.isUnary_of_binary? hp]; decide)]
  unfold countBinary at hlength
  omega

theorem push_operand (h : Balanced P n ps xs) (hx : P x) : Balanced P (n + 1) ps (x :: xs) := by
  refine ⟨h.proper, List.forall_mem_cons.2 ⟨hx, h.operands⟩, ?_⟩
  rw [List.length_cons, h.length_eq]
  omega

/-- An operator that waits finds its operands, and applied it leaves the balance as it is. -/
theorem exists_applied? (hP : Expr.Lifts P) (h : Balanced P (n + 1) (p :: ps) xs) :
    ∃ ys, p.applied? xs = some ys ∧ Balanced P (n + 1) ps ys := by
  obtain ⟨hproper, hoperands, hlength⟩ := h
  obtain ⟨hp, hps⟩ := List.forall_mem_cons.1 hproper
  unfold countBinary at hlength
  -- A sign takes one operand off the stack and gives one back, an operator takes two.
  obtain hunary | ⟨k, hk⟩ := hp
  · rw [List.countP_cons_of_neg (by rw [hunary]; decide)] at hlength
    rcases xs with - | ⟨x, xs⟩
    · rw [List.length_nil] at hlength
      omega
    · obtain ⟨hx, hxs⟩ := List.forall_mem_cons.1 hoperands
      refine ⟨_, by rw [applied?, if_pos hunary], hps, ?_, ?_⟩
      · exact List.forall_mem_cons.2 ⟨hP.unary _ hunary hx, hxs⟩
      · exact hlength
  · have hbinary := Operator.isUnary_of_binary? hk
    rw [List.countP_cons_of_pos (by rw [hbinary]; decide)] at hlength
    rcases xs with - | ⟨y, - | ⟨x, xs⟩⟩
    · rw [List.length_nil] at hlength
      omega
    · rw [List.length_singleton] at hlength
      omega
    · obtain ⟨hy, hx, hxs⟩ : P y ∧ P x ∧ ∀ x ∈ xs, P x := by
        simpa only [List.forall_mem_cons] using hoperands
      refine ⟨_, by rw [applied?, if_neg (by rw [hbinary]; decide)], hps, ?_, ?_⟩
      · exact List.forall_mem_cons.2 ⟨hP.binary _ hk hx hy, hxs⟩
      · rw [List.length_cons] at hlength ⊢
        rw [List.length_cons] at hlength
        unfold countBinary
        omega

theorem exists_reduce? (hP : Expr.Lifts P) (next : Operator) (h : Balanced P (n + 1) ps xs) :
    ∃ qs ys, reduce? next ps xs = some (qs, ys) ∧ Balanced P (n + 1) qs ys := by
  induction ps generalizing xs with
  | nil => exact ⟨[], xs, rfl, h⟩
  | cons p ps ih =>
    rw [reduce?]
    split
    · obtain ⟨ys, hys, hbalanced⟩ := h.exists_applied? hP
      rw [hys]
      exact ih hbalanced
    · exact ⟨p :: ps, xs, rfl, h⟩

/-- In the end one operand is left. -/
theorem exists_finish? (hP : Expr.Lifts P) (h : Balanced P 1 ps xs) :
    ∃ x, finish? ps xs = some [x] ∧ P x := by
  induction ps generalizing xs with
  | nil =>
    obtain ⟨x, rfl⟩ := List.length_eq_one_iff.1 h.length_eq
    exact ⟨x, rfl, h.operands x List.mem_cons_self⟩
  | cons p ps ih =>
    obtain ⟨ys, hys, hbalanced⟩ := h.exists_applied? hP
    rw [finish?, hys]
    exact ih hbalanced

end Balanced

end Pending

namespace Piece

/-- Operands with operators between them, and any number of operators in front of each operand. The
flag says whether an operand is due. -/
inductive Row (P : Expr → Prop) : Bool → List Piece → Prop where
  | nil : Row P false []
  | unary {p row} (hp : p.operator.isUnary = true) (h : Row P true row) :
    Row P true (.unary p :: row)
  | operand {x row} (hx : P x) (h : Row P false row) : Row P true (.operand x :: row)
  | binary {p row k} (hp : Operator.binary? k = some p.operator) (h : Row P true row) :
    Row P false (.binary p :: row)

variable {P : Expr → Prop}

/-- An operand with the operators in front of it begins a row. -/
theorem Row.member {ps : List Pending} {x : Expr} {rest : List Piece}
    (hps : ∀ p ∈ ps, p.operator.isUnary = true) (hx : P x) (hrest : Row P false rest) :
    Row P true (ps.map .unary ++ [.operand x] ++ rest) := by
  induction ps with
  | nil => exact .operand hx hrest
  | cons p ps ih =>
    obtain ⟨hp, hps⟩ := List.forall_mem_cons.1 hps
    exact .unary hp (ih hps)

theorem Row.exists_resolveFrom? (hP : Expr.Lifts P) {due : Bool} {row : List Piece}
    (h : Row P due row) : ∀ {ps xs}, Pending.Balanced P (if due then 0 else 1) ps xs →
      ∃ x, resolveFrom? row ps xs = some x ∧ P x := by
  induction h with
  | nil =>
    intro ps xs hbalanced
    obtain ⟨x, hx, hPx⟩ := hbalanced.exists_finish? hP
    exact ⟨x, by rw [resolveFrom?, hx], hPx⟩
  | unary hp _ ih => exact fun hbalanced ↦ ih (hbalanced.push_unary hp)
  | operand hx _ ih => exact fun hbalanced ↦ ih (hbalanced.push_operand hx)
  | @binary p row k hp _ ih =>
    intro ps xs hbalanced
    obtain ⟨qs, ys, hreduce, hbalanced⟩ := hbalanced.exists_reduce? hP p.operator
    rw [resolveFrom?, hreduce]
    exact ih (hbalanced.push_binary hp)

/-- **A row comes out as one expression**, with every property of its operands that operators
preserve. -/
theorem Row.exists_resolve? (hP : Expr.Lifts P) {row : List Piece} (h : Row P true row) :
    ∃ x, resolve? row = some x ∧ P x :=
  h.exists_resolveFrom? hP ⟨nofun, nofun, rfl⟩

/-! ### Rows of one operator -/

theorem resolve?_unary {p : Pending} {x : Expr} (hp : p.operator.isUnary = true) :
    resolve? [.unary p, .operand x] =
      some (.unary p.operator x ⟨p.origin.node, p.origin.range.cover x.range, none⟩) := by
  rw [resolve?, resolveFrom?, resolveFrom?, resolveFrom?, Pending.finish?, Pending.applied?,
    if_pos hp]
  rfl

/-- An operator between two operands is applied to them. -/
theorem resolve?_binary {p : Pending} {x y : Expr} (hp : p.operator.isUnary = false) :
    resolve? [.operand x, .binary p, .operand y] =
      some (.binary p.operator x y ⟨p.origin.node, x.range.cover y.range, none⟩) := by
  rw [resolve?, resolveFrom?, resolveFrom?, Pending.reduce?]
  show resolveFrom? [.operand y] [p] [x] = _
  rw [resolveFrom?, resolveFrom?, Pending.finish?, Pending.applied?, if_neg (by rw [hp]; decide)]
  rfl

end Piece

end BslLint
