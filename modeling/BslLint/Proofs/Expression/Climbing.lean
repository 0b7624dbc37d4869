import BslLint.Proofs.Expression.Resolving

/-!
# Priorities by climbing

Rows can be resolved without any stack. `Piece.climb min` reads as much of a row as operators of at
least the priority `min` join: what is on the left-hand side is an operand, or an operator in front
of what is climbed with its own priority; while the next operator is not below `min`, what is on its
right-hand side is climbed with its priority, or with the next higher one if it groups to the left.

This comes to the same (`Piece.Row.resolve?_eq_climbAll?`). Priorities on the stack need not ascend,
since an operator in front of an operand may wait there below others that bind tighter. What carries
the proof instead is about the topmost operator alone: it holds what comes at the priority `min` or
above (`Pending.Holds`). So a whole climb passes over the stack that it finds, and what lies below
the topmost operator never matters.
-/

namespace BslLint

namespace Operator

/-- The priority from which on operators belong to the right-hand side of an operator. -/
def rightPriority (op : Operator) : Nat :=
  if op = and ∨ op = or then op.priority else op.priority + 1

/-- The two logical operators are the ones that group to the right. -/
theorem isRightAssociative_iff {op : Operator} :
    op.isRightAssociative = true ↔ op.priority ≤ 2 := by
  cases op <;> decide

/-- An operator that groups to the left leaves its own priority to others. -/
theorem rightPriority_eq (op : Operator) :
    op.rightPriority = if op.priority ≤ 2 then op.priority else op.priority + 1 := by
  cases op <;> rfl

/-- Signs bind more tightly than what stands between operands, and negation binds less. -/
theorem priority_of_isUnary {op : Operator} (h : op.isUnary = true) :
    op.priority = 3 ∨ op.priority = 7 := by
  revert h
  cases op <;> decide

theorem priority_of_binary? {k : Token.Kind} {op : Operator} (h : binary? k = some op) :
    op.priority ≤ 6 ∧ op.priority ≠ 3 := by
  unfold binary? at h
  split at h <;> cases h <;> decide

end Operator

namespace Pending

/-- An operator put in front of its operand. -/
def before (p : Pending) (x : Expr) : Expr :=
  .unary p.operator x ⟨p.origin.node, p.origin.range.cover x.range, none⟩

/-- An operator put between its operands. -/
def between (p : Pending) (left right : Expr) : Expr :=
  .binary p.operator left right ⟨p.origin.node, left.range.cover right.range, none⟩

/-- A waiting operator is applied first if it binds more tightly, or as tightly and groups to the
left. -/
theorem yields_iff {p : Pending} {next : Operator} : p.yields next = true ↔
    next.priority < p.operator.priority ∨
      next.priority = p.operator.priority ∧ 2 < next.priority := by
  simp only [yields, Bool.or_eq_true, decide_eq_true_eq, Bool.and_eq_true, beq_iff_eq,
    Bool.not_eq_eq_eq_not, Bool.not_true, ← Bool.not_eq_true, Operator.isRightAssociative_iff]
  omega

/-- The topmost of the waiting operators is not applied before one of at least the priority. -/
def Holds (min : Nat) (ps : List Pending) : Prop :=
  ∀ p, ps.head? = some p → ∀ k next, Operator.binary? k = some next → min ≤ next.priority →
    ¬p.yields next

variable {p : Pending} {ps : List Pending} {min : Nat}

/-- An operator in front of an operand holds what is climbed with its priority. -/
theorem holds_before (hp : p.operator.isUnary = true) : Holds p.operator.priority (p :: ps) := by
  rintro _ ⟨⟩ k next hnext hmin
  have hpriority := Operator.priority_of_isUnary hp
  have hbinary := Operator.priority_of_binary? hnext
  rw [yields_iff]
  omega

/-- An operator between operands holds what belongs to its right-hand side. -/
theorem holds_between : Holds p.operator.rightPriority (p :: ps) := by
  rintro _ ⟨⟩ k next hnext hmin
  rw [Operator.rightPriority_eq] at hmin
  rw [yields_iff]
  split at hmin <;> omega

/-- An operator in front takes one operand from the stack, -/
theorem applied?_before (hp : p.operator.isUnary = true) (x : Expr) (xs : List Expr) :
    p.applied? (x :: xs) = some (p.before x :: xs) := by
  rw [applied?, if_pos hp]
  rfl

/-- and one between takes two. -/
theorem applied?_between (hp : p.operator.isUnary = false) (left right : Expr) (xs : List Expr) :
    p.applied? (right :: left :: xs) = some (p.between left right :: xs) := by
  rw [applied?, if_neg (by rw [hp]; decide)]
  rfl

end Pending

namespace Piece

mutual

/-- Reads what operators of at least a priority join, and leaves the rest. -/
def climb (min : Nat) (row : List Piece) :
    Option (Expr × {rest : List Piece // rest.length < row.length}) :=
  match row with
  | unary p :: row => do
    let (x, ⟨rest, _⟩) ← climb p.operator.priority row
    let (y, ⟨rest', _⟩) ← climbOn min (p.before x) rest
    return (y, ⟨rest', by rw [List.length_cons]; omega⟩)
  | operand x :: row => do
    let (y, ⟨rest, _⟩) ← climbOn min x row
    return (y, ⟨rest, by rw [List.length_cons]; omega⟩)
  | _ => none
termination_by (row.length, 0)

/-- Goes on with what is on the left-hand side. -/
def climbOn (min : Nat) (left : Expr) (row : List Piece) :
    Option (Expr × {rest : List Piece // rest.length ≤ row.length}) :=
  match row with
  | binary p :: row =>
    if min ≤ p.operator.priority then do
      let (right, ⟨rest, _⟩) ← climb p.operator.rightPriority row
      let (y, ⟨rest', _⟩) ← climbOn min (p.between left right) rest
      return (y, ⟨rest', by rw [List.length_cons]; omega⟩)
    else some (left, ⟨binary p :: row, Nat.le_refl _⟩)
  | row => some (left, ⟨row, Nat.le_refl _⟩)
termination_by (row.length, 1)

end

/-- The expression that a row stands for, found by climbing. -/
def climbAll? (row : List Piece) : Option Expr :=
  match climb 0 row with
  | some (x, ⟨[], _⟩) => some x
  | _ => none

/-! ### Climbing and the stack -/

variable {P : Expr → Prop} {min : Nat} {row rest : List Piece} {p : Pending} {ps : List Pending}
  {x left : Expr}

/-- The next operator is below a priority. -/
def Stops (min : Nat) (row : List Piece) : Prop :=
  ∀ p, row.head? = some (binary p) → p.operator.priority < min

theorem stops_nil : Stops min [] := by simp [Stops]

/-- With the stacks, too, the row comes to where operators of at least the priority have joined the
operands in front to `x`. -/
structure Reaches (min : Nat) (front : List Expr) (row : List Piece) (x : Expr)
    (rest : List Piece) : Prop where
  rest_row : Row (fun _ ↦ True) false rest
  stops : Stops min rest
  resolve_eq : ∀ ps xs, Pending.Holds min ps →
    resolveFrom? row ps (front ++ xs) = resolveFrom? rest ps (x :: xs)

/-- Where the next operator is such that the topmost one is applied, or there is none, that one may
be applied at once. -/
theorem resolveFrom?_applied {xs ys : List Expr} (hrest : Row P false rest)
    (hyields : ∀ q k, rest.head? = some (binary q) → Operator.binary? k = some q.operator →
      p.yields q.operator) (happlied : p.applied? xs = some ys) :
    resolveFrom? rest (p :: ps) xs = resolveFrom? rest ps ys := by
  cases hrest with
  | nil => rw [resolveFrom?, resolveFrom?, Pending.finish?, happlied, Option.bind_some]
  | @binary q row k hq h =>
    rw [resolveFrom?, resolveFrom?, Pending.reduce?, if_pos (hyields q k rfl hq), happlied,
      Option.bind_some]

/-- What is climbed with the priority of an operator in front of it is its operand. -/
theorem Reaches.before (hp : p.operator.isUnary = true)
    (h : Reaches p.operator.priority [] row x rest) {ps : List Pending} {xs : List Expr} :
    resolveFrom? (unary p :: row) ps xs = resolveFrom? rest ps (p.before x :: xs) := by
  rw [resolveFrom?, ← List.nil_append xs, h.resolve_eq _ _ (Pending.holds_before hp)]
  refine resolveFrom?_applied h.rest_row (fun q k hq _ ↦ ?_) (Pending.applied?_before hp x xs)
  exact Pending.yields_iff.2 (.inl (h.stops q hq))

/-- What is climbed behind an operator that is held is its right-hand side. -/
theorem Reaches.between {k : Token.Kind} (hp : Operator.binary? k = some p.operator)
    (hmin : min ≤ p.operator.priority) (h : Reaches p.operator.rightPriority [] row x rest)
    {ps : List Pending} {xs : List Expr} (hps : Pending.Holds min ps) :
    resolveFrom? (binary p :: row) ps (left :: xs) =
      resolveFrom? rest ps (p.between left x :: xs) := by
  have hreduce : Pending.reduce? p.operator ps (left :: xs) = some (ps, left :: xs) := by
    cases ps with
    | nil => rfl
    | cons q ps => rw [Pending.reduce?, if_neg (hps q rfl k _ hp hmin)]
  rw [resolveFrom?, hreduce]
  dsimp only
  rw [← List.nil_append (left :: xs), h.resolve_eq _ _ Pending.holds_between]
  refine resolveFrom?_applied h.rest_row (fun q k hq hbinary ↦ ?_)
    (Pending.applied?_between (Operator.isUnary_of_binary? hp) left x xs)
  have hstops := h.stops q hq
  rw [Operator.rightPriority_eq] at hstops
  rw [Pending.yields_iff]
  split at hstops <;> omega

/-! ### Climbing as a relation -/

/-- Reads what operators of at least a priority join, behind an operand if one has been read, and
leaves the rest. -/
inductive Climbs : Nat → Option Expr → List Piece → Expr → List Piece → Prop where
  /-- An operator is put in front of what is climbed with its own priority. -/
  | unary {min : Nat} {p : Pending} {row rest rest' : List Piece} {x y : Expr}
      (hp : p.operator.isUnary = true)
      (h : Climbs p.operator.priority none row x rest)
      (hon : Climbs min (some (p.before x)) rest y rest') : Climbs min none (unary p :: row) y rest'
  /-- An operand is read. -/
  | operand {min : Nat} {row rest : List Piece} {x y : Expr}
    (hon : Climbs min (some x) row y rest) :
    Climbs min none (operand x :: row) y rest
  /-- The next operator is put behind what is on the left-hand side. -/
  | binary {min : Nat} {p : Pending} {k : Token.Kind} {row rest rest' : List Piece}
      {left right y : Expr} (hp : Operator.binary? k = some p.operator)
      (hmin : min ≤ p.operator.priority) (h : Climbs p.operator.rightPriority none row right rest)
      (hon : Climbs min (some (p.between left right)) rest y rest') :
    Climbs min (some left) (binary p :: row) y rest'
  /-- The next operator is below the priority, or there is none. -/
  | stop {min : Nat} {left : Expr} {row : List Piece} (hstops : Stops min row) :
    Climbs min (some left) row left row

variable {o : Option Expr}

/-- A climb that has no operand yet reads something. -/
theorem Climbs.length_le (h : Climbs min o row x rest) :
    rest.length + o.isNone.toNat ≤ row.length := by
  induction h with
  | unary _ _ _ ih ihOn =>
    simp only [Option.isNone_none, Option.isNone_some, Bool.toNat_true, Bool.toNat_false,
      List.length_cons] at ih ihOn ⊢
    omega
  | operand _ ihOn => exact Nat.succ_le_succ ihOn
  | binary _ _ _ _ ih ihOn =>
    simp only [Option.isNone_none, Option.isNone_some, Bool.toNat_true, Bool.toNat_false,
      List.length_cons] at ih ihOn ⊢
    omega
  | stop _ => exact Nat.le_refl _

/-- **A climb passes over the stacks that it finds**, and so does one that goes on behind an
operand. -/
theorem Climbs.reaches (h : Climbs min o row x rest) (hrow : Row (fun _ ↦ True) o.isNone row) :
    Reaches min o.toList row x rest := by
  induction h with
  | unary hp _ _ ih ihOn =>
    -- Each climb lets its operand be read first, and goes on with the operator that is then on top.
    cases hrow with
    | unary _ hrow =>
      have hoperand := ih hrow
      have hon := ihOn hoperand.rest_row
      refine ⟨hon.rest_row, hon.stops, fun ps xs hps ↦ ?_⟩
      rw [Option.toList_none, List.nil_append, hoperand.before hp]
      exact hon.resolve_eq ps xs hps
  | operand _ ihOn =>
    cases hrow with
    | operand _ hrow =>
      have hon := ihOn hrow
      exact ⟨hon.rest_row, hon.stops, fun ps xs hps ↦ hon.resolve_eq ps xs hps⟩
  | binary hp hmin _ _ ih ihOn =>
    cases hrow with
    | binary _ hrow =>
      have hright := ih hrow
      have hon := ihOn hright.rest_row
      refine ⟨hon.rest_row, hon.stops, fun ps xs hps ↦ ?_⟩
      rw [Option.toList_some, List.singleton_append, hright.between hp hmin hps]
      exact hon.resolve_eq ps xs hps
  | stop hstops => exact ⟨hrow, hstops, fun ps xs _ ↦ rfl⟩

/-- Every row can be climbed. The induction is on the length of the row, since a climb goes on with
what another one has left. -/
theorem Row.exists_climbs (length : Nat) {row : List Piece}
    (h : Row (fun _ ↦ True) o.isNone row) (hlt : row.length < length) (min : Nat) :
    ∃ x rest, Climbs min o row x rest := by
  induction length generalizing o row min with
  | zero => exact absurd hlt (Nat.not_lt_zero _)
  | succ length ih =>
    cases o with
    | none =>
      cases h with
      | @unary p row hp h =>
        replace hlt : row.length < length := Nat.lt_of_succ_lt_succ hlt
        obtain ⟨x, rest, hclimbs⟩ := ih (o := none) h hlt p.operator.priority
        have hrest := Nat.lt_of_succ_le hclimbs.length_le
        -- Going on begins behind the operand, where the row is shorter.
        obtain ⟨y, rest', hon⟩ := ih (o := some (p.before x)) (hclimbs.reaches h).rest_row
          (Nat.lt_trans hrest hlt) min
        exact ⟨y, rest', .unary hp hclimbs hon⟩
      | @operand x row _ h =>
        obtain ⟨y, rest, hon⟩ := ih (o := some x) h (Nat.lt_of_succ_lt_succ hlt) min
        exact ⟨y, rest, .operand hon⟩
    | some left =>
      cases h with
      | nil => exact ⟨left, [], .stop stops_nil⟩
      | @binary p row k hp h =>
        by_cases hmin : min ≤ p.operator.priority
        · replace hlt : row.length < length := Nat.lt_of_succ_lt_succ hlt
          obtain ⟨right, rest, hclimbs⟩ := ih (o := none) h hlt p.operator.rightPriority
          have hrest := Nat.lt_of_succ_le hclimbs.length_le
          obtain ⟨y, rest', hon⟩ := ih (o := some (p.between left right))
            (hclimbs.reaches h).rest_row (Nat.lt_trans hrest hlt) min
          exact ⟨y, rest', .binary hp hmin hclimbs hon⟩
        · -- An operator that binds less than asked for ends the climb.
          refine ⟨left, _, .stop ?_⟩
          rintro _ ⟨⟩
          exact Nat.not_le.1 hmin

/-- What is climbed is what `climb` finds, and `climbOn` behind an operand. -/
theorem Climbs.climb_eq (h : Climbs min o row x rest) :
    (o = none → ∃ hlt, climb min row = some (x, ⟨rest, hlt⟩)) ∧
      ∀ left, o = some left → ∃ hle, climbOn min left row = some (x, ⟨rest, hle⟩) := by
  have hle := h.length_le
  induction h with
  | unary hp h hon ih ihOn =>
    refine ⟨fun _ ↦ ⟨hle, ?_⟩, nofun⟩
    obtain ⟨hlt, hclimb⟩ := (ih h.length_le).1 rfl
    obtain ⟨hle', hclimbOn⟩ := (ihOn hon.length_le).2 _ rfl
    simp [climb, hclimb, hclimbOn]
  | operand hon ihOn =>
    refine ⟨fun _ ↦ ⟨hle, ?_⟩, nofun⟩
    obtain ⟨hle', hclimbOn⟩ := (ihOn hon.length_le).2 _ rfl
    simp [climb, hclimbOn]
  | binary hp hmin h hon ih ihOn =>
    refine ⟨nofun, ?_⟩
    rintro _ ⟨⟩
    obtain ⟨hlt, hclimb⟩ := (ih h.length_le).1 rfl
    obtain ⟨hle', hclimbOn⟩ := (ihOn hon.length_le).2 _ rfl
    exact ⟨hle, by simp [climbOn, hmin, hclimb, hclimbOn]⟩
  | @stop min left row hstops =>
    refine ⟨nofun, ?_⟩
    rintro _ ⟨⟩
    refine ⟨Nat.le_refl _, ?_⟩
    -- At the end of a climb `climbOn` looks at the next operator and leaves it.
    unfold climbOn
    split
    next p row => rw [if_neg (Nat.not_le.2 (hstops p rfl))]
    next => rfl

/-- A row that comes to an expression is climbed to its end. -/
theorem Row.climbs_of_resolve? {row : List Piece} (h : Row (fun _ ↦ True) true row)
    (hx : resolve? row = some x) : Climbs 0 none row x [] := by
  obtain ⟨y, rest, hclimbs⟩ := h.exists_climbs (o := none) _ (Nat.lt_succ_self _) 0
  have hreaches := hclimbs.reaches h
  obtain rfl : rest = [] := by
    cases hreaches.rest_row with
    | nil => rfl
    | binary hp _ => exact absurd (hreaches.stops _ rfl) (Nat.not_lt_zero _)
  have hholds : Pending.Holds 0 [] := nofun
  obtain rfl : y = x := by
    rw [resolve?] at hx
    exact Option.some.inj ((hreaches.resolve_eq [] [] hholds).symm.trans hx)
  exact hclimbs

/-- What is climbed to the end of a row is what the row comes to. -/
theorem Climbs.resolve?_eq {row : List Piece} (h : Climbs min none row x [])
    (hrow : Row (fun _ ↦ True) true row) : resolve? row = some x := by
  have hholds : Pending.Holds min [] := nofun
  exact (h.reaches hrow).resolve_eq [] [] hholds

/-- **On a row, the stacks and climbing come to the same.** -/
theorem Row.resolve?_eq_climbAll? {row : List Piece} (h : Row (fun _ ↦ True) true row) :
    resolve? row = climbAll? row := by
  have hlifts : Expr.Lifts fun _ ↦ True := ⟨fun _ _ _ ↦ trivial, fun _ _ _ _ ↦ trivial⟩
  obtain ⟨x, hx, -⟩ := h.exists_resolve? hlifts
  obtain ⟨_, hclimb⟩ := (h.climbs_of_resolve? hx).climb_eq.1 rfl
  rw [hx, climbAll?, hclimb]

end Piece

end BslLint
