import BslLint.Proofs.Data.Attempts
import BslLint.Proofs.Expression.Members
import BslLint.Proofs.Expression.Resolving
import BslLint.Proofs.Expression.Terminals

/-!
# What expressions of a document look like

Not every `Expr` is the expression of a node. `Normal d` says which are: a property is a name, a
callee is a name, an argument left out has no text and does not stand alone, and the terminals are
words and constants of the document. Every node that the grammar derives has an expression, and
**the expression is normal** (`Grammar.Derives.normal`).

The proof is one induction on derivations. What it says of a part, `Normalizes`, is told by what
the part adds to an expression: a value is an operand, a row is a row of pieces, accesses keep an
expression normal.
-/

namespace BslLint

open Grammar

namespace Expr

/-- The argument has no text and no tokens. -/
structure IsBlank (d : Document) (x : Expr) : Prop where
  /-- It has no text. -/
  rangeText_eq : d.rangeText x.range = ""
  /-- It has no tokens. -/
  tokenTexts_eq : d.tokenTexts x.range = []

/-- What can be said of the arguments of a call without a word on those that were written. -/
structure AreListed (d : Document) (args : List Expr) : Prop where
  /-- Arguments left out are blank. -/
  isBlank : ∀ a ∈ args, a.isEmpty = true → a.IsBlank d
  /-- An argument left out does not stand alone. -/
  alone : ∀ a, args = [a] → a.isEmpty = false

/-- The expression can be that of a node of the document. -/
inductive Normal (d : Document) : Expr → Prop
  | literal {o : Origin} (ho : d.IsLiteral o.range) : Normal d (.terminal .literal o)
  | name {o : Origin} (ho : d.IsWord o.range .identifier) : Normal d (.terminal .identifier o)
  | unary {op x o} (hop : op.isUnary = true) (hx : Normal d x) : Normal d (.unary op x o)
  | operation {k op x y o} (hop : Operator.binary? k = some op) (hx : Normal d x)
    (hy : Normal d y) : Normal d (.binary op x y o)
  | property {x k o} {s : Origin} (hx : Normal d x) (hk : IsName k) (hs : d.IsWord s.range k) :
    Normal d (.binary .dereference x (.terminal .identifier s) o)
  | method {x k args o o'} {s : Origin} (hx : Normal d x) (hk : IsName k)
    (hs : d.IsWord s.range k) (hlist : AreListed d args)
    (hargs : ∀ a ∈ args, a.isEmpty = false → Normal d a) :
    Normal d (.binary .dereference x (.call .method (.terminal .identifier s) args o) o')
  | index {x y o} (hx : Normal d x) (hy : Normal d y) : Normal d (.binary .indexAccess x y o)
  | ternary {x y z o} (hx : Normal d x) (hy : Normal d y) (hz : Normal d z) :
    Normal d (.ternary x y z o)
  | call {args o} {s : Origin} (hs : d.IsWord s.range .identifier) (hlist : AreListed d args)
    (hargs : ∀ a ∈ args, a.isEmpty = false → Normal d a) :
    Normal d (.call .method (.terminal .identifier s) args o)
  | new {args o} {s : Origin} (htoken : s.token? = none) (hs : d.IsWord s.range .identifier)
    (hlist : AreListed d args) (hargs : ∀ a ∈ args, a.isEmpty = false → Normal d a) :
    Normal d (.call .constructor (.terminal .identifier s) args o)
  | newUntyped {args o} {s : Origin} (htoken : s.token? = some (.keyword .new))
    (hs : d.IsWord s.range (.keyword .new)) (hlist : AreListed d args)
    (hargs : ∀ a ∈ args, a.isEmpty = false → Normal d a) :
    Normal d (.call .constructor (.terminal .identifier s) args o)

variable {d : Document}

/-- What operators make of normal expressions is normal. -/
theorem lifts_normal (d : Document) : Expr.Lifts (Normal d) where
  unary _ hop hx := .unary hop hx
  binary _ hop hx hy := .operation hop hx hy

/-- An argument is normal, or left out and blank. -/
def IsArgument (d : Document) (a : Expr) : Prop :=
  (a.isEmpty = true → a.IsBlank d) ∧ (a.isEmpty = false → Normal d a)

/-- Arguments as they stand in a call. -/
def AreArguments (d : Document) (args : List Expr) : Prop :=
  (∀ a ∈ args, IsArgument d a) ∧ ∀ a, args = [a] → a.isEmpty = false

theorem AreArguments.areListed {args : List Expr} (h : AreArguments d args) : AreListed d args :=
  ⟨fun a ha ↦ (h.1 a ha).1, h.2⟩

theorem AreArguments.normal {args : List Expr} (h : AreArguments d args) :
    ∀ a ∈ args, a.isEmpty = false → Normal d a := fun a ha ↦ (h.1 a ha).2

/-- An argument that was left out does not stand alone, because then there are none. -/
theorem areArguments_trimmed {xs : List Expr} (h : ∀ a ∈ xs, IsArgument d a) :
    AreArguments d (trimmed xs) := by
  unfold trimmed
  split
  next x =>
    split
    · exact ⟨nofun, nofun⟩
    next hx =>
      refine ⟨h, fun a ha ↦ ?_⟩
      obtain ⟨rfl, -⟩ := List.cons.inj ha
      exact Bool.eq_false_iff.2 hx
  next hne => exact ⟨h, fun a ha ↦ absurd ha (hne a)⟩

theorem IsArgument.of_normal {a : Expr} (h : Normal d a) : IsArgument d a := by
  refine ⟨fun ha ↦ ?_, fun _ ↦ h⟩
  cases h <;> exact nomatch ha

/-! ### What the parts of the grammar add to an expression -/

/-- What the trees of a part come to, in terms of normal expressions. -/
def Normalizes (d : Document) : Part → List Tree → Prop
  | .expression, cs => ∃ t, cs = [t] ∧ t.kind = .expression ∧ Yields d id t (Normal d)
  | .row, cs => YieldsAll d pieces? cs fun rows ↦ Piece.Row (Normal d) false rows.flatten
  | .member, cs => ∃ t, cs = [t] ∧ Yields d pieces? t fun row ↦
      ∀ rest, Piece.Row (Normal d) false rest → Piece.Row (Normal d) true (row ++ rest)
  | .value, cs => (∀ c ∈ cs, c.kind ≠ .unaryModifier) ∧
      ∀ us : List Token, Yields d operand? (.node .member (us.map unaryTree ++ cs)) (Normal d)
  | .head, cs => ∃ t, cs = [t] ∧ t.kind ≠ .modifier ∧ Yields d base? t (Normal d)
  | .typeName, cs => cs = [] ∨ ∃ t, cs = [.node .typeName [.leaf t]] ∧ t.kind = .identifier
  | .callOrNone, cs => YieldsOptional d cs (AreArguments d)
  | .modifiers, cs => (∀ c ∈ cs, c.kind = .modifier) ∧
      YieldsAccesses d cs fun x y ↦ Normal d x → Normal d y
  | .modifier, cs => ∃ t, cs = [t] ∧ t.kind = .modifier ∧ Yields d access? t fun a ↦
      ∀ x o, Normal d x → Normal d (.binary a.1 x a.2 o)
  | .call, cs => ∃ t, cs = [t] ∧ t.kind = .doCall ∧ Yields d arguments? t (AreArguments d)
  | .argument, cs => ∃ t, cs = [t] ∧ t.kind = .callParam ∧ Yields d argument? t (IsArgument d)
  | .arguments, cs => YieldsAll d argument? (cs.filter (·.kind = .callParam)) fun xs ↦
      ∀ a ∈ xs, IsArgument d a

/-- A member puts its signs and its operand in front of the row. -/
theorem row_append {x : Expr} {ps : List Pending} {us : List Token}
    (hus : List.Forall₂ (fun t p ↦ Operator.unary? t.kind = some p.operator) us ps)
    (hx : Normal d x) {rest : List Piece} (hrest : Piece.Row (Normal d) false rest) :
    Piece.Row (Normal d) true (ps.map .unary ++ [.operand x] ++ rest) := by
  refine .member (fun p hp ↦ ?_) hx hrest
  obtain ⟨t, -, ht⟩ := exists_of_mem_right hus hp
  exact Operator.isUnary_of_unary? ht

end Expr

namespace Grammar

open BslLint.Expr

variable {d : Document}

theorem Derives.tokens_eq {p : Part} {w : List Token} {t : Tree} (h : Derives p w [t]) :
    t.tokens = w := by
  have htokens := h.tokensAll_eq
  rwa [Tree.tokensAll, Tree.tokensAll, List.append_nil] at htokens

/-- Every sign between members stands for an operator. -/
theorem exists_binary? {k : Token.Kind} (hk : k ∈ binaryKinds) :
    ∃ op, Operator.binary? k = some op := by
  have hall : ∀ k ∈ binaryKinds, (Operator.binary? k).isSome = true := by decide
  exact Option.isSome_iff_exists.1 (hall k hk)

/-- The origin of a word tells a word. -/
theorem isWord_of_tells (hd : d.IsCut) {o : Origin} {t : Token} {u : Tree} (hu : u.tokens = [t])
    (ho : o.Tells d u) (ht : [t] <:+: d.tokens.toList) : d.IsWord o.range t.kind := by
  refine hd.isWord ht ?_ ?_
  · rw [ho.rangeText_eq, hu]
  · rw [ho.tokenTexts_eq, hu]
    rfl

/-- **What is derived is normal.** The trees of a part, as nodes of the document that they stand in,
come to normal expressions. -/
theorem Derives.normalizes (hd : d.IsCut) {p : Part} {w : List Token} {cs : List Tree}
    (h : Derives p w cs) (hw : w <:+: d.tokens.toList) : Normalizes d p cs := by
  -- Each rule of the grammar has its lemma above; here they get the tokens and trees of its parts.
  induction h with
  | expression _ _ ihfirst ihothers =>
    obtain ⟨t, rfl, ht⟩ := ihfirst hw.left
    refine ⟨_, rfl, rfl, yields_expression (R := fun rows ↦ Piece.Row (Normal d) true rows.flatten)
      (.cons ht (ihothers hw.right) fun row rows hrow hrows ↦ hrow _ hrows) ?_⟩
    exact fun rows hrows ↦ hrows.exists_resolve? (lifts_normal d)
  | row_nil => exact YieldsAll.nil .nil
  | row_cons hop _ _ ihfirst ihothers =>
    obtain ⟨t, rfl, ht⟩ := ihfirst hw.tail.left
    obtain ⟨op, hop⟩ := exists_binary? hop
    refine YieldsAll.cons (yields_operation hop)
      (Q := fun rows ↦ Piece.Row (Normal d) true rows.flatten)
      (.cons ht (ihothers hw.tail.right) fun row rows hrow hrows ↦ hrow _ hrows) ?_
    rintro _ rows ⟨p, rfl, rfl⟩ hrows
    exact .binary hop hrows
  | member hus _ ih =>
    obtain ⟨hkinds, hvalue⟩ := ih hw.right
    refine ⟨_, rfl, (yields_member hus hkinds (hvalue _)).mono ?_⟩
    rintro _ ⟨ps, x, rfl, hx, hps⟩ rest hrest
    exact row_append hps hx hrest
  | strings hts hstrings =>
    refine ⟨by simp, fun us ↦ yields_operand_constant us fun o ho ↦ .literal ?_⟩
    have htokens := (Derives.strings hts hstrings).tokens_eq
    refine hd.isLiteral_strings hw hts hstrings ?_ ?_
    · rw [ho.rangeText_eq, htokens]
    · rw [ho.tokenTexts_eq, htokens]
  | constant ht =>
    refine ⟨by simp, fun us ↦ yields_operand_constant us fun o ho ↦ .literal ?_⟩
    exact Document.IsWord.isLiteral ht (isWord_of_tells hd rfl ho hw)
  | complex _ _ ihhead ihmods =>
    obtain ⟨t, rfl, hkind, hbase⟩ := ihhead hw.left
    obtain ⟨hkinds, hmods⟩ := ihmods hw.right
    refine ⟨by simp, fun us ↦ yields_operand_complex us ?_⟩
    exact yields_complexIdentifier hkind hkinds hbase hmods fun b y hb hT ↦ hT hb
  | parens hl _ _ _ ihinside ihmods =>
    obtain ⟨t, rfl, hkind, hinside⟩ := ihinside hw.tail.left
    obtain ⟨hkinds, hmods⟩ := ihmods hw.tail.right.tail
    refine ⟨?_, fun us ↦ ?_⟩
    · simp only [List.singleton_append, List.forall_mem_cons, Tree.kind_leaf, hkind]
      exact ⟨nofun, nofun, nofun, fun c hc ↦ by rw [hkinds c hc]; exact nofun⟩
    · exact yields_operand_parens us hl hkind hkinds hinside hmods fun b y hb hT ↦ hT hb
  | name ht =>
    refine ⟨_, rfl, nofun, yields_base_name fun o ho ↦ .name ?_⟩
    rw [← ht]
    exact isWord_of_tells hd rfl ho hw
  | globalCall ht _ ih =>
    obtain ⟨c, rfl, hkind, hc⟩ := ih hw.tail
    refine ⟨_, rfl, nofun, yields_base_call rfl ((yields_methodCall hkind hc).mono ?_)⟩
    rintro _ ⟨o, args, o', rfl, ho, hargs⟩
    refine .call ?_ hargs.areListed hargs.normal
    rw [← ht]
    exact isWord_of_tells hd rfl ho hw.head
  | new ht htype _ _ ihcall =>
    have hcall := ihcall hw.tail.right
    cases htype with
    | typeName_none =>
      refine ⟨_, rfl, nofun, yields_base_new rfl
        ((yields_newExpression ht (.inl rfl) hcall).mono ?_)⟩
      rintro _ ⟨o, args, o', rfl, ho, hargs⟩
      refine .newUntyped ?_ ?_ hargs.areListed hargs.normal
      · rw [ho.token?_eq, ← ht]
        rfl
      · rw [← ht]
        exact isWord_of_tells hd rfl ho hw.head
    | typeName_some htype =>
      refine ⟨_, rfl, nofun,
        yields_base_new rfl ((yields_newExpression ht (.inr ⟨_, rfl⟩) hcall).mono ?_)⟩
      rintro _ ⟨o, args, o', rfl, ho, hargs⟩
      refine .new ?_ ?_ hargs.areListed hargs.normal
      · rw [ho.token?_eq]
        rfl
      · rw [← htype]
        exact isWord_of_tells hd rfl ho hw.tail.left
  | ternary _ _ _ _ _ _ _ _ ihcondition ihyes ihno =>
    have hu := hw.tail.tail
    have hv := hu.right.tail
    obtain ⟨t₁, rfl, hkind₁, h₁⟩ := ihcondition hu.left
    obtain ⟨t₂, rfl, hkind₂, h₂⟩ := ihyes hv.left
    obtain ⟨t₃, rfl, hkind₃, h₃⟩ := ihno hv.right.tail.left
    exact ⟨_, rfl, nofun, yields_base_ternary rfl
      (yields_ternaryOperator hkind₁ hkind₂ hkind₃ h₁ h₂ h₃
      fun x y z o hx hy hz ↦ .ternary hx hy hz)⟩
  | typeName_none => exact Or.inl rfl
  | typeName_some ht => exact Or.inr ⟨_, rfl, ht⟩
  | call_none => exact Or.inl ⟨rfl, nofun, nofun⟩
  | call_some _ ih => exact Or.inr (ih hw)
  | modifiers_nil => exact ⟨nofun, .nil fun _ hx ↦ hx⟩
  | modifiers_cons _ _ ihfirst ihothers =>
    obtain ⟨t, rfl, hkind, ht⟩ := ihfirst hw.left
    obtain ⟨hkinds, hmods⟩ := ihothers hw.right
    refine ⟨List.forall_mem_cons.2 ⟨hkind, hkinds⟩, YieldsAccesses.cons ht hmods ?_⟩
    exact fun base op right o y hA hT hbase ↦ hT (hA base o hbase)
  | property _ ht =>
    refine ⟨_, rfl, rfl, yields_property fun o ho x o' hx ↦ .property hx ht ?_⟩
    exact isWord_of_tells hd rfl ho hw.tail.head
  | methodCall _ ht _ ih =>
    obtain ⟨c, rfl, hkind, hc⟩ := ih hw.tail.tail
    refine ⟨_, rfl, rfl, (yields_method (yields_methodCall hkind hc)).mono ?_⟩
    rintro ⟨_, _⟩ ⟨rfl, o, args, o', rfl, ho, hargs⟩ x _ hx
    refine .method hx ht ?_ hargs.areListed hargs.normal
    exact isWord_of_tells hd rfl ho hw.tail.head
  | index _ _ _ ih =>
    obtain ⟨t, rfl, hkind, ht⟩ := ih hw.tail.left
    refine ⟨_, rfl, rfl, (yields_index hkind ht).mono ?_⟩
    rintro ⟨_, y⟩ ⟨rfl, hy⟩ x o hx
    exact .index hx hy
  | call _ _ _ _ ihfirst ihothers =>
    obtain ⟨t, rfl, hkind, ht⟩ := ihfirst hw.tail.left
    have hothers := ihothers hw.tail.right.left
    refine ⟨_, rfl, rfl, yields_arguments (Q := fun xs ↦ ∀ a ∈ xs, IsArgument d a) ?_
      fun xs hxs ↦ areArguments_trimmed hxs⟩
    rw [List.singleton_append, filter_params hkind]
    exact .cons ht hothers fun a as ha has ↦ List.forall_mem_cons.2 ⟨ha, has⟩
  | argument_none =>
    refine ⟨_, rfl, rfl, yields_argument_none fun o htext htexts ↦ ?_⟩
    exact ⟨fun _ ↦ ⟨htext, htexts⟩, nofun⟩
  | argument_some _ ih =>
    obtain ⟨t, rfl, hkind, ht⟩ := ih hw
    exact ⟨_, rfl, rfl, yields_argument_some hkind (ht.mono fun a ha ↦ .of_normal ha)⟩
  | arguments_nil => exact YieldsAll.nil nofun
  | arguments_cons _ _ _ ihfirst ihothers =>
    obtain ⟨t, rfl, hkind, ht⟩ := ihfirst hw.tail.left
    have hothers := ihothers hw.tail.right
    show YieldsAll d argument? ((.leaf _ :: ([t] ++ _)).filter _) _
    rw [List.filter_cons_of_neg (by simp), List.singleton_append, filter_params hkind]
    exact .cons ht hothers fun a as ha has ↦ List.forall_mem_cons.2 ⟨ha, has⟩

end Grammar

end BslLint
