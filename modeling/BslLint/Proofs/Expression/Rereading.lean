import BslLint.Proofs.Expression.Members
import BslLint.Proofs.Expression.Resolving

/-!
# Tokens and the expressions that they stand for

For tokens to be read as an expression two things are needed: the grammar has to derive them, and
the tree of the derivation has to come to the expression. Here both are said at once, part by part:
`IsExpression d w P` says that the tokens `w` are an expression of the grammar, and that the nodes
of the document `d` with its tree come to something with the property `P`.

Accesses stand behind a value and are read together with it. **A base is a value that any accesses
may be put behind** (`IsBase`), and with one access behind it it is a base again (`IsBase.access`).
Literals are values but no bases.
-/

namespace BslLint

namespace Expr

open Grammar

/-! ### Parts -/

/-- The tokens are a value, and any member with it has an operand with the property. -/
def IsValue (d : Document) (w : List Token) (P : Expr → Prop) : Prop :=
  ∃ cs, Derives .value w cs ∧ (∀ c ∈ cs, c.kind ≠ .unaryModifier) ∧
    ∀ us : List Token, Yields d operand? (.node .member (us.map unaryTree ++ cs)) P

/-- With any accesses behind them the tokens are a value, which the accesses are applied to. -/
def IsBase (d : Document) (w : List Token) (P : Expr → Prop) : Prop :=
  ∀ v ms T, Derives .modifiers v ms → (∀ m ∈ ms, m.kind = .modifier) → YieldsAccesses d ms T →
    IsValue d (w ++ v) fun y ↦ ∃ b, P b ∧ T b y

/-- The tokens are an expression with the property. -/
def IsExpression (d : Document) (w : List Token) (P : Expr → Prop) : Prop :=
  ∃ t, Derives .expression w [t] ∧ t.kind = .expression ∧ Yields d id t P

/-- The tokens are a value that is named, made or chosen. -/
def IsHead (d : Document) (w : List Token) (P : Expr → Prop) : Prop :=
  ∃ t, Derives .head w [t] ∧ t.kind ≠ .modifier ∧ Yields d base? t P

/-- The tokens are an access. -/
def IsAccess (d : Document) (w : List Token) (A : Operator × Expr → Prop) : Prop :=
  ∃ m, Derives .modifier w [m] ∧ m.kind = .modifier ∧ Yields d access? m A

/-- The tokens are the arguments of a call in their parentheses. -/
def IsCall (d : Document) (w : List Token) (P : List Expr → Prop) : Prop :=
  ∃ c, Derives .call w [c] ∧ c.kind = .doCall ∧ Yields d arguments? c P

/-- The tokens are the arguments of a call in their parentheses, or there are none. -/
def IsOptionalCall (d : Document) (w : List Token) (P : List Expr → Prop) : Prop :=
  ∃ ds, Derives .callOrNone w ds ∧ YieldsOptional d ds P

/-- The tokens are an argument. -/
def IsParam (d : Document) (w : List Token) (P : Expr → Prop) : Prop :=
  ∃ t, Derives .argument w [t] ∧ t.kind = .callParam ∧ Yields d argument? t P

/-- The tokens are the arguments behind the first, with their commas. -/
def IsParams (d : Document) (w : List Token) (P : List Expr → Prop) : Prop :=
  ∃ cs, Derives .arguments w cs ∧ YieldsAll d argument? (cs.filter (·.kind = .callParam)) P

variable {d : Document} {u v w : List Token} {P Q R : Expr → Prop}

theorem IsValue.mono (h : IsValue d w P) (hPQ : ∀ x, P x → Q x) : IsValue d w Q := by
  obtain ⟨cs, hcs, hkinds, hyields⟩ := h
  exact ⟨cs, hcs, hkinds, fun us ↦ (hyields us).mono hPQ⟩

theorem IsBase.mono (h : IsBase d w P) (hPQ : ∀ x, P x → Q x) : IsBase d w Q := by
  intro v ms T hv hkinds hms
  exact (h v ms T hv hkinds hms).mono fun y ⟨b, hb, hT⟩ ↦ ⟨b, hPQ b hb, hT⟩

theorem IsHead.mono (h : IsHead d w P) (hPQ : ∀ x, P x → Q x) : IsHead d w Q := by
  obtain ⟨t, ht, hkind, hyields⟩ := h
  exact ⟨t, ht, hkind, hyields.mono hPQ⟩

theorem IsAccess.mono {A B : Operator × Expr → Prop} (h : IsAccess d w A)
    (hAB : ∀ a, A a → B a) : IsAccess d w B := by
  obtain ⟨m, hm, hkind, hyields⟩ := h
  exact ⟨m, hm, hkind, hyields.mono hAB⟩

theorem IsParam.mono (h : IsParam d w P) (hPQ : ∀ x, P x → Q x) : IsParam d w Q := by
  obtain ⟨t, ht, hkind, hyields⟩ := h
  exact ⟨t, ht, hkind, hyields.mono hPQ⟩

/-- A base without accesses is a value. -/
theorem IsBase.isValue (h : IsBase d w P) : IsValue d w P := by
  have hvalue := h [] [] Eq .modifiers_nil nofun (.nil fun _ ↦ rfl)
  rw [List.append_nil] at hvalue
  refine hvalue.mono ?_
  rintro _ ⟨b, hb, rfl⟩
  exact hb

/-! ### Rows -/

/-- A value with operators in front of it. -/
theorem IsValue.exists_member (h : IsValue d w P) (us : List Token)
    (hus : ∀ t ∈ us, t.kind ∈ unaryKinds) :
    ∃ t, Derives .member (us ++ w) [t] ∧ Yields d pieces? t (IsMember us P) := by
  obtain ⟨cs, hcs, hkinds, hyields⟩ := h
  exact ⟨_, .member hus hcs, yields_member hus hkinds (hyields us)⟩

/-- The grammar takes every sign that stands for an operator in front of a member. -/
theorem mem_unaryKinds {k : Token.Kind} {op : Operator} (h : Operator.unary? k = some op) :
    k ∈ unaryKinds := by
  unfold Operator.unary? at h
  split at h <;> first | decide | exact nomatch h

/-- And every sign that stands for one between members. -/
theorem mem_binaryKinds {k : Token.Kind} {op : Operator} (h : Operator.binary? k = some op) :
    k ∈ binaryKinds := by
  unfold Operator.binary? at h
  split at h <;> first | decide | exact nomatch h

/-- A row of one member. -/
theorem isExpression_of_member {t : Tree} {M : List Piece → Prop} (ht : Derives .member w [t])
    (hyields : Yields d pieces? t M)
    (hM : ∀ row, M row → ∃ x, Piece.resolve? row = some x ∧ P x) : IsExpression d w P := by
  have hexpression := Derives.expression ht .row_nil
  rw [List.append_nil, List.append_nil] at hexpression
  have hall : YieldsAll d pieces? [t] fun rows ↦ ∃ row, rows = [row] ∧ M row :=
    .cons hyields (YieldsAll.nil (P := (· = [])) rfl) fun row _ hrow hnil ↦
      ⟨row, by rw [hnil], hrow⟩
  refine ⟨_, hexpression, rfl, yields_expression hall ?_⟩
  rintro _ ⟨row, rfl, hrow⟩
  rw [List.flatten_singleton]
  exact hM row hrow

/-- A value alone is a row of one member without operators. -/
theorem IsValue.isExpression (h : IsValue d w P) : IsExpression d w P := by
  obtain ⟨t, ht, hyields⟩ := h.exists_member [] nofun
  refine isExpression_of_member ht hyields ?_
  rintro _ ⟨ps, x, rfl, hx, hps⟩
  cases hps
  exact ⟨x, rfl, hx⟩

/-- With a sign in front it is a row of one member that has an operator. -/
theorem IsValue.unary (h : IsValue d w P) {t : Token} {op : Operator}
    (hop : Operator.unary? t.kind = some op) :
    IsExpression d (t :: w) fun y ↦ ∃ x o, y = .unary op x o ∧ P x := by
  obtain ⟨u, hu, hyields⟩ := h.exists_member [t] fun s hs ↦
    List.mem_singleton.1 hs ▸ mem_unaryKinds hop
  refine isExpression_of_member hu hyields ?_
  rintro _ ⟨ps, x, rfl, hx, hps⟩
  rcases hps with - | @⟨_, p, _, _, hp, - | _⟩
  obtain rfl : p.operator = op := Option.some.inj (hp.symm.trans hop)
  exact ⟨_, Piece.resolve?_unary (Operator.isUnary_of_unary? hop), x, _, rfl, hx⟩

/-- Two values with a sign between them are a row of two members, and resolving it applies the
operator. -/
theorem IsValue.operation (hu : IsValue d u P) (hv : IsValue d v Q) {t : Token} {op : Operator}
    (hop : Operator.binary? t.kind = some op) :
    IsExpression d (u ++ t :: v) fun y ↦ ∃ x z o, y = .binary op x z o ∧ P x ∧ Q z := by
  -- No operators stand in front of the values, so each is a member by itself.
  obtain ⟨left, hleft, hyieldsLeft⟩ := hu.exists_member [] nofun
  obtain ⟨right, hright, hyieldsRight⟩ := hv.exists_member [] nofun
  have hexpression := Derives.expression hleft (.row_cons (mem_binaryKinds hop) hright .row_nil)
  rw [List.append_nil, List.append_nil, List.nil_append, List.nil_append] at hexpression
  have hlast : YieldsAll d pieces? [right] fun rows ↦ ∃ row, rows = [row] ∧ IsMember [] Q row :=
    .cons hyieldsRight (YieldsAll.nil (P := (· = [])) rfl) fun row _ hrow hnil ↦
      ⟨row, by rw [hnil], hrow⟩
  have hrest : YieldsAll d pieces? [operationTree t, right] fun rows ↦ ∃ p row,
      rows = [[.binary p], row] ∧ p.operator = op ∧ IsMember [] Q row := by
    refine .cons (yields_operation hop) hlast ?_
    rintro _ _ ⟨p, rfl, hp⟩ ⟨row, rfl, hrow⟩
    exact ⟨p, row, rfl, hp, hrow⟩
  refine ⟨_, hexpression, rfl, yields_expression (R := fun rows ↦ ∃ x p z,
    rows.flatten = [.operand x, .binary p, .operand z] ∧ p.operator = op ∧ P x ∧ Q z)
    (.cons hyieldsLeft hrest ?_) ?_⟩
  · rintro _ _ ⟨ps, x, rfl, hx, hps⟩ ⟨p, _, rfl, hp, qs, z, rfl, hz, hqs⟩
    cases hps
    cases hqs
    exact ⟨x, p, z, rfl, hp, hx, hz⟩
  · rintro rows ⟨x, p, z, hrows, rfl, hx, hz⟩
    rw [hrows, Piece.resolve?_binary (Operator.isUnary_of_binary? hop)]
    exact ⟨_, rfl, x, z, _, rfl, hx, hz⟩

/-! ### Accesses -/

/-- A dot and a name are an access to a property. -/
theorem IsAccess.property {s t : Token} (hs : s.kind = .dot) (ht : IsName t.kind) :
    IsAccess d [s, t] fun a ↦ a.1 = .dereference ∧
      ∃ o : Origin, a.2 = .terminal .identifier o ∧ o.Tells d (.leaf t) :=
  ⟨_, .property hs ht, rfl, yields_property fun o ho ↦ ⟨rfl, o, rfl, ho⟩⟩

/-- With arguments behind it they are a call of a method. -/
theorem IsCall.method {s t : Token} {A : List Expr → Prop} (h : IsCall d w A)
    (hs : s.kind = .dot) (ht : IsName t.kind) :
    IsAccess d (s :: t :: w) fun a ↦ a.1 = .dereference ∧ IsMethodCall d t A a.2 := by
  obtain ⟨c, hc, hkind, hyields⟩ := h
  exact ⟨_, .methodCall hs ht hc, rfl, yields_method (yields_methodCall hkind hyields)⟩

/-- An expression in brackets is an access by index. -/
theorem IsExpression.index {l r : Token} (h : IsExpression d w P) (hl : l.kind = .leftBracket)
    (hr : r.kind = .rightBracket) :
    IsAccess d (l :: (w ++ [r])) fun a ↦ a.1 = .indexAccess ∧ P a.2 := by
  obtain ⟨t, ht, hkind, hyields⟩ := h
  exact ⟨_, .index hl ht hr, rfl, yields_index hkind hyields⟩

/-- With an access behind it a base is a base. -/
theorem IsBase.access {A : Operator × Expr → Prop} (hu : IsBase d u P) (hv : IsAccess d v A) :
    IsBase d (u ++ v) fun y ↦ ∃ b op right o, y = .binary op b right o ∧ P b ∧ A (op, right) := by
  obtain ⟨m, hm, hkind, hyields⟩ := hv
  intro w ms T hw hkinds hms
  have hall : YieldsAccesses d (m :: ms) fun b y ↦
      ∃ op right o, A (op, right) ∧ T (.binary op b right o) y :=
    .cons hyields hms fun b op right o y hA hT ↦ ⟨op, right, o, hA, hT⟩
  have hvalue := hu (v ++ w) (m :: ms) _ (.modifiers_cons hm hw)
    (List.forall_mem_cons.2 ⟨hkind, hkinds⟩) hall
  rw [List.append_assoc]
  refine hvalue.mono ?_
  rintro y ⟨b, hb, op, right, o, hA, hT⟩
  exact ⟨_, ⟨b, op, right, o, rfl, hb, hA⟩, hT⟩

/-! ### Bases -/

/-- An expression in parentheses is a base. -/
theorem IsExpression.parens {l r : Token} (h : IsExpression d w P) (hl : l.kind = .leftParen)
    (hr : r.kind = .rightParen) : IsBase d (l :: (w ++ [r])) P := by
  obtain ⟨t, ht, hkind, hyields⟩ := h
  intro v ms T hv hkinds hms
  rw [List.cons_append, List.append_assoc, List.singleton_append]
  refine ⟨_, .parens hl hr ht hv, ?_, fun us ↦ ?_⟩
  · simp only [List.singleton_append, List.forall_mem_cons, Tree.kind_leaf, hkind]
    exact ⟨nofun, nofun, nofun, fun c hc ↦ by rw [hkinds c hc]; exact nofun⟩
  · exact yields_operand_parens us hl hkind hkinds hyields hms fun b y hb hT ↦ ⟨b, hb, hT⟩

/-- A value that is named, made or chosen is a base. -/
theorem IsHead.isBase (h : IsHead d w P) : IsBase d w P := by
  obtain ⟨t, ht, hkind, hyields⟩ := h
  intro v ms T hv hkinds hms
  refine ⟨_, .complex ht hv, by simp, fun us ↦ yields_operand_complex us ?_⟩
  exact yields_complexIdentifier hkind hkinds hyields hms fun b y hb hT ↦ ⟨b, hb, hT⟩

theorem isHead_name {t : Token} (ht : t.kind = .identifier) :
    IsHead d [t] fun x ↦ ∃ o : Origin, x = .terminal .identifier o ∧ o.Tells d (.leaf t) :=
  ⟨_, .name ht, nofun, yields_base_name fun o ho ↦ ⟨o, rfl, ho⟩⟩

section

variable {A : List Expr → Prop}

/-- A name and arguments are the call of a method. -/
theorem IsCall.isHead (h : IsCall d w A) {t : Token} (ht : t.kind = .identifier) :
    IsHead d (t :: w) (IsMethodCall d t A) := by
  obtain ⟨c, hc, hkind, hyields⟩ := h
  exact ⟨_, .globalCall ht hc, nofun, yields_base_call rfl (yields_methodCall hkind hyields)⟩

theorem IsCall.isOptionalCall (h : IsCall d w A) : IsOptionalCall d w A := by
  obtain ⟨c, hc, hkind, hyields⟩ := h
  exact ⟨_, .call_some hc, .inr ⟨c, rfl, hkind, hyields⟩⟩

theorem isOptionalCall_nil (hA : A []) : IsOptionalCall d [] A := ⟨[], .call_none, .inl ⟨rfl, hA⟩⟩

/-- Behind the word for a new object the type may be left out, and so may the arguments. -/
theorem IsOptionalCall.isHead (h : IsOptionalCall d w A) {s : Token} (hs : s.kind = .keyword .new)
    {cs : List Tree} (htype : Derives .typeName u cs) :
    IsHead d (s :: (u ++ w)) (IsConstruction d (calleeTree s cs) A) := by
  obtain ⟨ds, hds, hyields⟩ := h
  refine ⟨_, .new hs htype hds, nofun, yields_base_new rfl (yields_newExpression hs ?_ hyields)⟩
  cases htype with
  | typeName_none => exact .inl rfl
  | typeName_some _ => exact .inr ⟨_, rfl⟩

theorem IsCall.new (h : IsCall d w A) {s t : Token} (hs : s.kind = .keyword .new)
    (ht : t.kind = .identifier) :
    IsHead d (s :: t :: w) (IsConstruction d (.node .typeName [.leaf t]) A) :=
  h.isOptionalCall.isHead hs (.typeName_some ht)

theorem IsCall.newUntyped (h : IsCall d w A) {s : Token} (hs : s.kind = .keyword .new) :
    IsHead d (s :: w) (IsConstruction d (.leaf s) A) :=
  h.isOptionalCall.isHead hs .typeName_none

/-- Three expressions in their places are a choice. -/
theorem isHead_ternary {q l c c' r : Token} (hu : IsExpression d u P) (hv : IsExpression d v Q)
    (hw : IsExpression d w R) (hq : q.kind = .question) (hl : l.kind = .leftParen)
    (hc : c.kind = .comma) (hc' : c'.kind = .comma) (hr : r.kind = .rightParen) :
    IsHead d (q :: l :: (u ++ c :: (v ++ c' :: (w ++ [r]))))
      fun y ↦ ∃ x₁ x₂ x₃ o, y = .ternary x₁ x₂ x₃ o ∧ P x₁ ∧ Q x₂ ∧ R x₃ := by
  obtain ⟨t₁, h₁, hkind₁, hyields₁⟩ := hu
  obtain ⟨t₂, h₂, hkind₂, hyields₂⟩ := hv
  obtain ⟨t₃, h₃, hkind₃, hyields₃⟩ := hw
  exact ⟨_, .ternary hq hl h₁ hc h₂ hc' h₃ hr, nofun, yields_base_ternary rfl
    (yields_ternaryOperator hkind₁ hkind₂ hkind₃ hyields₁ hyields₂ hyields₃
      fun x₁ x₂ x₃ o hx₁ hx₂ hx₃ ↦ ⟨x₁, x₂, x₃, o, rfl, hx₁, hx₂, hx₃⟩)⟩

/-! ### Arguments -/

/-- An expression is an argument. -/
theorem IsExpression.isParam (h : IsExpression d w P) : IsParam d w P := by
  obtain ⟨t, ht, hkind, hyields⟩ := h
  exact ⟨_, .argument_some ht, rfl, yields_argument_some hkind hyields⟩

/-- And so is nothing at all. -/
theorem isParam_nil : IsParam d [] fun x ↦ ∃ o : Origin, x = .terminal .empty o ∧
    d.rangeText o.range = "" ∧ d.tokenTexts o.range = [] :=
  ⟨_, .argument_none, rfl, yields_argument_none fun o htext htexts ↦ ⟨o, rfl, htext, htexts⟩⟩

theorem isParams_nil (hA : A []) : IsParams d [] A := ⟨[], .arguments_nil, .nil hA⟩

/-- Behind a comma there is an argument more. -/
theorem IsParam.cons {B : List Expr → Prop} {c : Token} (hu : IsParam d u P) (hv : IsParams d v A)
    (hc : c.kind = .comma) (hB : ∀ x xs, P x → A xs → B (x :: xs)) :
    IsParams d (c :: (u ++ v)) B := by
  obtain ⟨t, ht, hkind, hyields⟩ := hu
  obtain ⟨ts, hts, hall⟩ := hv
  refine ⟨_, .arguments_cons hc ht hts, ?_⟩
  rw [List.filter_cons_of_neg (by simp), List.singleton_append, filter_params hkind]
  exact .cons hyields hall hB

/-- Arguments in parentheses are those of a call, of which one that is left out alone does not
count. -/
theorem IsParam.isCall {B : List Expr → Prop} {l r : Token} (hu : IsParam d u P)
    (hv : IsParams d v A) (hl : l.kind = .leftParen) (hr : r.kind = .rightParen)
    (hB : ∀ x xs, P x → A xs → B (trimmed (x :: xs))) : IsCall d (l :: (u ++ (v ++ [r]))) B := by
  obtain ⟨t, ht, hkind, hyields⟩ := hu
  obtain ⟨ts, hts, hall⟩ := hv
  refine ⟨_, .call hl ht hts hr, rfl, yields_arguments (Q := fun xs ↦ B (trimmed xs)) ?_
    fun xs hxs ↦ hxs⟩
  rw [List.singleton_append, filter_params hkind]
  exact .cons hyields hall hB

end

end Expr

end BslLint
