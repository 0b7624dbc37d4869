import BslLint.Proofs.Expression.Chains

/-!
# Positions in an expression

A part of an expression has a position: the numbers of the operands and arguments on the way down to
it. A position comes before those inside of it, and before those of whatever stands to the right, so
the lexicographic order of positions is the preorder of the expression.

The links of a chain lie on the right-hand side, so the way from one to the next is the number 1
(`Expr.exists_link`).
-/

namespace BslLint.Expr

/-- What an expression is directly made of, from left to right. -/
def direct : Expr → List Expr
  | terminal .. => []
  | unary _ x _ => [x]
  | binary _ left right _ => [left, right]
  | ternary x y z _ => [x, y, z]
  | call _ callee args _ => callee :: args

/-- The part at a position. -/
def at? : Expr → List Nat → Option Expr
  | x, [] => some x
  | x, i :: p => x.direct[i]?.bind (at? · p)

/-- Whether the expression reads something from an object or a collection. -/
def isAccess : Expr → Bool
  | binary .dereference .. | binary .indexAccess .. => true
  | _ => false

/-- A position is sheltered that lies inside of an operand of an access. -/
def IsSheltered (x : Expr) (p : List Nat) : Prop :=
  ∃ q r y, p = q ++ r ∧ r ≠ [] ∧ x.at? q = some y ∧ y.isAccess = true

variable {x y : Expr} {p q : List Nat} {op : Operator}

theorem at?_append (x : Expr) (p q : List Nat) : x.at? (p ++ q) = (x.at? p).bind (at? · q) := by
  induction p generalizing x with
  | nil => rfl
  | cons i p ih =>
    rw [List.cons_append, at?, at?, Option.bind_assoc]
    exact Option.bind_congr fun y _ ↦ ih y

theorem sizeOf_lt_of_mem_direct (h : y ∈ x.direct) : sizeOf y < sizeOf x := by
  cases x with
  | terminal => exact nomatch h
  | unary =>
    obtain rfl := List.mem_singleton.1 h
    simp only [unary.sizeOf_spec]
    omega
  | binary =>
    simp only [direct, List.mem_cons, List.not_mem_nil, or_false] at h
    obtain rfl | rfl := h <;> simp only [binary.sizeOf_spec] <;> omega
  | ternary =>
    simp only [direct, List.mem_cons, List.not_mem_nil, or_false] at h
    obtain rfl | rfl | rfl := h <;> simp only [ternary.sizeOf_spec] <;> omega
  | call =>
    obtain rfl | h := List.mem_cons.1 h
    · simp only [call.sizeOf_spec]
      omega
    · have := List.sizeOf_lt_of_mem h
      simp only [call.sizeOf_spec]
      omega

/-- Induction over an expression by way of what it is directly made of. -/
@[elab_as_elim]
theorem inductionOnDirect {motive : Expr → Prop}
    (step : ∀ x, (∀ y ∈ x.direct, motive y) → motive x) (x : Expr) : motive x :=
  step x fun y hy ↦
    have := sizeOf_lt_of_mem_direct hy
    inductionOnDirect step y
termination_by sizeOf x

theorem not_isSheltered_nil : ¬ x.IsSheltered [] := by
  rintro ⟨q, r, y, hp, hr, -⟩
  exact hr (List.append_eq_nil_iff.1 hp.symm).2

/-- The operands of an access are sheltered, and others only as far as they are on their own. -/
theorem isSheltered_cons_iff {i : Nat} :
    x.IsSheltered (i :: p) ↔
      x.isAccess = true ∨ ∃ y, x.direct[i]? = some y ∧ y.IsSheltered p := by
  constructor
  · rintro ⟨q, r, z, hp, hr, hz, haccess⟩
    cases q with
    | nil =>
      obtain rfl := Option.some.inj hz
      exact .inl haccess
    | cons j q =>
      obtain ⟨rfl, rfl⟩ := List.cons_eq_cons.1 hp
      obtain ⟨y, hy, hz⟩ := Option.bind_eq_some_iff.1 hz
      exact .inr ⟨y, hy, q, r, z, rfl, hr, hz, haccess⟩
  · rintro (haccess | ⟨y, hy, q, r, z, rfl, hr, hz, haccess⟩)
    · exact ⟨[], i :: p, x, rfl, List.cons_ne_nil _ _, rfl, haccess⟩
    · refine ⟨i :: q, r, z, rfl, hr, ?_, haccess⟩
      rw [at?, hy]
      exact hz

/-! ### Links of a chain -/

theorem exists_binary_of_joins (h : x.joins op = true) :
    ∃ left right o, x = binary op left right o := by
  cases x with
  | binary op' left right o =>
    obtain rfl := of_decide_eq_true h
    exact ⟨left, right, o, rfl⟩
  | _ => exact nomatch h

theorem chain_ne_nil (op : Operator) (x : Expr) : chain op x ≠ [] := by
  fun_induction chain op x <;> simp

theorem joins_iff_one_lt_length : x.joins op = true ↔ 1 < (chain op x).length := by
  cases h : x.joins op with
  | true =>
    obtain ⟨left, right, o, rfl⟩ := exists_binary_of_joins h
    have := List.length_pos_of_ne_nil (chain_ne_nil op right)
    simp [chain_binary, this]
  | false => simp [chain_of_joins_eq_false h]

/-- What stands behind the first operands of a chain is a part of it, and is the rest of the
chain. -/
theorem exists_link {i : Nat} (h : i < (chain op x).length) :
    ∃ y, x.at? (List.replicate i 1) = some y ∧ chain op y = (chain op x).drop i := by
  induction i generalizing x with
  | zero => exact ⟨x, rfl, rfl⟩
  | succ i ih =>
    obtain ⟨left, right, o, rfl⟩ := exists_binary_of_joins
      (joins_iff_one_lt_length.2 (Nat.lt_of_le_of_lt (Nat.le_add_left 1 i) h))
    rw [chain_binary] at h ⊢
    exact ih (Nat.lt_of_succ_lt_succ h)

/-- A link that is not the last operand is an operation, with the operands of the chain from its
place on. -/
theorem exists_operation_of_link {i : Nat} (h : i + 1 < (chain op x).length) :
    ∃ left right o, x.at? (List.replicate i 1) = some (binary op left right o) ∧
      chain op (binary op left right o) = (chain op x).drop i := by
  obtain ⟨y, hy, hchain⟩ := exists_link (Nat.lt_of_succ_lt h)
  have hjoins : y.joins op = true := by
    rw [joins_iff_one_lt_length, hchain, List.length_drop]
    omega
  obtain ⟨left, right, o, rfl⟩ := exists_binary_of_joins hjoins
  exact ⟨left, right, o, hy, hchain⟩

theorem isAccess_of_link {i : Nat} {z : Expr} (hop : op.isLogical = true)
    (h : i + 1 < (chain op x).length) (hz : x.at? (List.replicate i 1) = some z) :
    z.isAccess = false := by
  obtain ⟨left, right, o, hlink, -⟩ := exists_operation_of_link h
  obtain rfl := Option.some.inj (hz.symm.trans hlink)
  cases op <;> first | rfl | exact nomatch hop

/-- The links of a chain are as little sheltered as the chain. -/
theorem not_isSheltered_append_replicate {i : Nat} (hp : ¬ x.IsSheltered p)
    (hx : x.at? p = some y) (hop : op.isLogical = true) (h : i < (chain op y).length) :
    ¬ x.IsSheltered (p ++ List.replicate i 1) := by
  rintro ⟨q, r, z, heq, hr, hz, haccess⟩
  -- The access stands above the chain, or it is a link.
  obtain ⟨s, rfl, hs⟩ | ⟨s, rfl, rfl⟩ := List.append_eq_append_iff.1 heq
  · obtain ⟨hlength, hs, -⟩ := List.append_eq_replicate_iff.1 hs.symm
    have hpos := List.length_pos_of_ne_nil hr
    rw [at?_append, hx, hs, Option.bind_some] at hz
    rw [isAccess_of_link hop (by omega) hz] at haccess
    exact nomatch haccess
  · obtain rfl | hs := eq_or_ne s []
    · rw [List.append_nil] at hx
      obtain rfl := Option.some.inj (hz.symm.trans hx)
      have hpos : 0 < i := by simpa [Nat.pos_iff_ne_zero] using hr
      rw [isAccess_of_link (i := 0) hop (by omega) rfl] at haccess
      exact nomatch haccess
    · exact hp ⟨q, s, z, rfl, hs, hz, haccess⟩

end BslLint.Expr
