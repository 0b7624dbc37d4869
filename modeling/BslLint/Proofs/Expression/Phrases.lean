import BslLint.Proofs.Expression.Climbing
import BslLint.Proofs.Expression.Containment

/-!
# The runs of pieces that an operation joins

An operation in the middle of a row joins what some pieces in front of its operator come to with
what some pieces behind it come to, and **each side comes to that on its own**
(`Piece.Row.joins_of_has`). What a climb reads does not depend on what is left behind it but for the
first piece, so the same is read where nothing is left, and where the climb began with a lower
priority. This is what `Piece.Reads` says of some pieces, and it is put together piece by piece.
-/

namespace BslLint.Piece

variable {min : Nat} {o : Option Expr} {front row rest : List Piece} {x y z left right : Expr}
  {p : Pending}

/-! ### What a climb reads -/

/-- A climb ends in front of an operator that is below its priority. -/
theorem Climbs.stops (h : Climbs min o row x rest) : Stops min rest := by
  induction h with
  | unary _ _ _ _ ihOn => exact ihOn
  | operand _ ihOn => exact ihOn
  | binary _ _ _ _ _ ihOn => exact ihOn
  | stop hstops => exact hstops

/-- What is climbed is a row, if what is left is one. -/
theorem Climbs.isRow (h : Climbs min o row x rest) (hrest : Row (fun _ ↦ True) false rest) :
    Row (fun _ ↦ True) o.isNone row := by
  induction h with
  | unary hp _ _ ih ihOn => exact .unary hp (ih (ihOn hrest))
  | operand _ ihOn => exact .operand trivial (ihOn hrest)
  | binary hp _ _ _ ih ihOn => exact .binary hp (ih (ihOn hrest))
  | stop _ => exact hrest

/-- Nothing, or pieces that begin like others. -/
def IsLike (row rest : List Piece) : Prop := row = [] ∨ row.head? = rest.head?

/-- Pieces in front of both change nothing. -/
theorem IsLike.append (h : IsLike row rest) (front : List Piece) :
    IsLike (front ++ row) (front ++ rest) := by
  cases front with
  | nil => exact h
  | cons piece front => exact .inr rfl

/-- What stops a climb in front of the one stops it in front of the other. -/
theorem IsLike.stops (h : IsLike row rest) (hrest : Stops min rest) : Stops min row := by
  rcases h with rfl | hhead
  · exact stops_nil
  · exact fun p hp ↦ hrest p (hhead ▸ hp)

/-- The pieces are read as an expression, behind an operand if one has been read. They are so in
front of all that begins like the rest, and of nothing, and by climbs with a lower priority too. -/
def Reads (min : Nat) (o : Option Expr) (front : List Piece) (x : Expr) (rest : List Piece) :
    Prop :=
  ∀ row, IsLike row rest → ∀ min' ≤ min, ∀ y rest', Climbs min' (some x) row y rest' →
    Climbs min' o (front ++ row) y rest'

namespace Reads

theorem nil : Reads min (some x) [] x rest := fun _ _ _ _ _ _ hclimbs ↦ hclimbs

theorem operand : Reads min none [.operand x] x rest := fun _ _ _ _ _ _ hclimbs ↦ .operand hclimbs

/-- An operator in front is read with what is climbed behind it. -/
theorem unary (hp : p.operator.isUnary = true) (hstops : Stops p.operator.priority rest)
    (h : Reads p.operator.priority none front x rest) :
    Reads min none (.unary p :: front) (p.before x) rest := by
  intro row hlike min' _ y rest' hclimbs
  have hstop : Climbs p.operator.priority (some x) row x row := .stop (hlike.stops hstops)
  exact .unary hp (h row hlike _ (Nat.le_refl _) _ _ hstop) hclimbs

/-- An operator between is read with what belongs to its right-hand side. -/
theorem binary {k : Token.Kind} (hp : Operator.binary? k = some p.operator)
    (hmin : min ≤ p.operator.priority) (hstops : Stops p.operator.rightPriority rest)
    (h : Reads p.operator.rightPriority none front right rest) :
    Reads min (some left) (.binary p :: front) (p.between left right) rest := by
  intro row hlike min' hmin' y rest' hclimbs
  have hstop : Climbs p.operator.rightPriority (some right) row right row :=
    .stop (hlike.stops hstops)
  exact .binary hp (Nat.le_trans hmin' hmin) (h row hlike _ (Nat.le_refl _) _ _ hstop) hclimbs

/-- Pieces that go on with what has been read are read with it. -/
theorem append {frontOn : List Piece} (h : Reads min o front x (frontOn ++ rest))
    (hon : Reads min (some x) frontOn y rest) : Reads min o (front ++ frontOn) y rest := by
  intro row hlike min' hmin' z rest' hclimbs
  rw [List.append_assoc]
  exact h _ (hlike.append frontOn) min' hmin' z rest' (hon row hlike min' hmin' z rest' hclimbs)

/-- What is read as an expression comes to it on its own. -/
theorem resolve?_eq (h : Reads min none front x rest) :
    Row (fun _ ↦ True) true front ∧ resolve? front = some x := by
  have hclimbs := h [] (.inl rfl) 0 (Nat.zero_le _) x [] (.stop stops_nil)
  rw [List.append_nil] at hclimbs
  have hrow := hclimbs.isRow .nil
  exact ⟨hrow, hclimbs.resolve?_eq hrow⟩

end Reads

/-- **A climb reads some pieces and leaves the rest.** -/
theorem Climbs.exists_reads (h : Climbs min o row x rest) :
    ∃ front, row = front ++ rest ∧ Reads min o front x rest := by
  induction h with
  | @unary _ p _ _ _ _ _ hp h _ ih ihOn =>
    obtain ⟨front, rfl, hreads⟩ := ih
    obtain ⟨frontOn, rfl, hreadsOn⟩ := ihOn
    refine ⟨.unary p :: front ++ frontOn, by simp, .append (.unary hp h.stops hreads) hreadsOn⟩
  | @operand _ _ _ x _ _ ihOn =>
    obtain ⟨frontOn, rfl, hreadsOn⟩ := ihOn
    exact ⟨[.operand x] ++ frontOn, rfl, .append .operand hreadsOn⟩
  | @binary _ p _ _ _ _ _ _ _ hp hmin h _ ih ihOn =>
    obtain ⟨front, rfl, hreads⟩ := ih
    obtain ⟨frontOn, rfl, hreadsOn⟩ := ihOn
    refine ⟨.binary p :: front ++ frontOn, by simp, ?_⟩
    exact .append (.binary hp hmin h.stops hreads) hreadsOn
  | stop _ => exact ⟨[], rfl, .nil⟩

/-- What is climbed has the operand that it began with, and the operands that it read. -/
theorem Climbs.has_operand (h : Climbs min o row x rest) :
    (∀ left, o = some left → x.Has left) ∧ ∀ a, .operand a ∈ row → x.Has a ∨ .operand a ∈ rest := by
  -- The result lies in what the climb goes on with, and this holds what was read.
  induction h with
  | @unary _ p _ _ _ x _ hp _ _ ih ihOn =>
    have hx : (p.before x).Has x := Expr.has_of_mem_direct (List.mem_singleton_self x)
    refine ⟨nofun, fun a ha ↦ ?_⟩
    rcases ih.2 a (by simpa using ha) with hxa | ha
    · exact .inl ((ihOn.1 _ rfl).trans (hx.trans hxa))
    · exact ihOn.2 a ha
  | operand _ ihOn =>
    refine ⟨nofun, fun a ha ↦ ?_⟩
    rcases List.mem_cons.1 ha with hax | ha
    · obtain rfl := Piece.operand.inj hax
      exact .inl (ihOn.1 _ rfl)
    · exact ihOn.2 a ha
  | @binary _ p _ _ _ _ left right _ _ _ _ _ ih ihOn =>
    have hleft : (p.between left right).Has left := Expr.has_of_mem_direct List.mem_cons_self
    have hright : (p.between left right).Has right :=
      Expr.has_of_mem_direct (List.mem_cons_of_mem _ (List.mem_singleton_self right))
    refine ⟨fun _ hsome ↦ ?_, fun a ha ↦ ?_⟩
    · obtain rfl := Option.some.inj hsome
      exact (ihOn.1 _ rfl).trans hleft
    · rcases ih.2 a (by simpa using ha) with hxa | ha
      · exact .inl ((ihOn.1 _ rfl).trans (hright.trans hxa))
      · exact ihOn.2 a ha
  | stop _ => exact ⟨fun _ hsome ↦ Option.some.inj hsome ▸ .refl _, fun _ ha ↦ .inr ha⟩

/-- What a row comes to has the operands of the row. -/
theorem Row.has_operand (h : Row (fun _ ↦ True) true row) (hx : resolve? row = some x) {a : Expr}
    (ha : .operand a ∈ row) : x.Has a :=
  ((h.climbs_of_resolve? hx).has_operand.2 a ha).resolve_right List.not_mem_nil

/-! ### Operations of a row -/

/-- The operation is what an operator of the row makes of the expressions that some pieces in front
of it and some behind it come to. -/
def Joins (row : List Piece) (z : Expr) : Prop :=
  ∃ before lefts p rights after left right,
    row = before ++ (lefts ++ binary p :: rights) ++ after ∧ z = p.between left right ∧
      (Row (fun _ ↦ True) true lefts ∧ resolve? lefts = some left) ∧
      Row (fun _ ↦ True) true rights ∧ resolve? rights = some right

/-- Further pieces on either side leave the two sides of an operator as they are, -/
theorem Joins.extend (h : Joins row z) (before after : List Piece) :
    Joins (before ++ row ++ after) z := by
  obtain ⟨before', lefts, p, rights, after', left, right, rfl, hsides⟩ := h
  refine ⟨before ++ before', lefts, p, rights, after' ++ after, left, right, ?_, hsides⟩
  simp only [List.append_assoc]

/-- The operation joins pieces of the row, or stands in one of its operands. -/
def Holds (row : List Piece) (z : Expr) : Prop := Joins row z ∨ ∃ a, operand a ∈ row ∧ a.Has z

/-- so they leave its operation where it is. -/
theorem Holds.extend (h : Holds row z) (before after : List Piece) :
    Holds (before ++ row ++ after) z := by
  rcases h with h | ⟨a, ha, haz⟩
  · exact .inl (h.extend before after)
  · exact .inr ⟨a, List.mem_append_left _ (List.mem_append_right _ ha), haz⟩

theorem Holds.cons (h : Holds row z) (piece : Piece) : Holds (piece :: row) z := by
  have hextend := h.extend [piece] []
  rwa [List.append_nil] at hextend

/-- The pieces in front of a climb that goes on behind an operand are read as the operand. -/
def Begins (min : Nat) (o : Option Expr) (front row : List Piece) : Prop :=
  match o with
  | none => front = []
  | some left => Reads min none front left row

/-- What is climbed has no other operations than the operand that it began with and the row. -/
theorem Climbs.holds_of_has (h : Climbs min o row x rest) (hbegins : Begins min o front row)
    (hz : z.role? = some .operation) (hxz : x.Has z) :
    (∃ left, o = some left ∧ left.Has z) ∨ Holds (front ++ row) z := by
  induction h generalizing front with
  | @unary _ p row rest _ x _ hp h _ ih ihOn =>
    obtain rfl : front = [] := hbegins
    -- What has been read so far resolves by itself to the operand that stands in front.
    obtain ⟨read, rfl, hreads⟩ := h.exists_reads
    rcases @ihOn (.unary p :: read) (.unary hp h.stops hreads) hxz with
      ⟨_, ⟨⟩, hbefore⟩ | hholds
    · obtain rfl | ⟨_, hx, hxz⟩ := Expr.has_iff.1 hbefore
      · exact nomatch hz
      · obtain rfl := List.mem_singleton.1 hx
        obtain ⟨_, ⟨⟩, -⟩ | hholds := @ih [] rfl hxz
        exact .inr (hholds.cons _)
    · exact .inr hholds
  | @operand _ row _ x _ _ ihOn =>
    obtain rfl : front = [] := hbegins
    rcases @ihOn [.operand x] .operand hxz with ⟨_, ⟨⟩, hxz⟩ | hholds
    · exact .inr (.inr ⟨x, List.mem_cons_self, hxz⟩)
    · exact .inr hholds
  | @binary _ p _ row rest _ left right _ hp hmin h _ ih ihOn =>
    replace hbegins : Reads _ none front left _ := hbegins
    obtain ⟨read, rfl, hreads⟩ := h.exists_reads
    have hon : Reads _ none (front ++ .binary p :: read) (p.between left right) rest :=
      .append hbegins (.binary hp hmin h.stops hreads)
    rcases ihOn hon hxz with ⟨_, ⟨⟩, hbetween⟩ | hholds
    · obtain rfl | ⟨_, hside, hxz⟩ := Expr.has_iff.1 hbetween
      · -- The operation is the one just made: its sides are those that the climbs read.
        refine .inr (.inl ⟨[], front, p, read, rest, left, right, by simp, rfl, ?_, ?_⟩)
        · exact hbegins.resolve?_eq
        · exact hreads.resolve?_eq
      · obtain rfl | hside := List.mem_cons.1 hside
        · exact .inl ⟨_, rfl, hxz⟩
        · obtain rfl := List.mem_singleton.1 hside
          obtain ⟨_, ⟨⟩, -⟩ | hholds := @ih [] rfl hxz
          have hextend := (hholds.cons (.binary p)).extend front []
          rw [List.append_nil] at hextend
          exact .inr hextend
    · rw [List.append_assoc] at hholds
      exact .inr hholds
  | stop _ => exact .inl ⟨_, rfl, hxz⟩

/-- **An operation of what a row comes to joins pieces of the row**, each side of which comes to its
operand on its own, or it stands in an operand. -/
theorem Row.holds_of_has (h : Row (fun _ ↦ True) true row) (hx : resolve? row = some x)
    (hz : z.role? = some .operation) (hxz : x.Has z) : Holds row z := by
  obtain ⟨_, ⟨⟩, -⟩ | hholds :=
    Climbs.holds_of_has (h.climbs_of_resolve? hx) rfl hz hxz
  exact hholds

end BslLint.Piece
