import BslLint.Expression.OfNode
import BslLint.Grammar.Parse
import BslLint.Syntax.Traversal
import BslLint.Proofs.Expression.Equality
import BslLint.Proofs.Token.Places

/-!
# The values of expressions

An `Interpretation` reads expressions as values of any type. It is compositional: a terminal is read
by its symbol and by the texts of its tokens, and every other expression by what stands at its top
and by the values of its parts. Nothing else is asked of it, so a statement about all
interpretations holds for every meaning that the language could give to its operators and calls.

Expressions that are the same have the same value (`value_eq_of_same`). Up to the order of chains
this asks for logical operators that may be regrouped and reordered, which is `Orderless`. What
connects the two is that the value of an expression is the value of its chain, link by link from the
right (`some_value`): greedy matching makes the chains of two expressions reorderings of each other,
and a fold of an associative and commutative operation does not see the order.
-/

namespace BslLint

/-- A reading of expressions as values. -/
structure Interpretation (α : Type*) where
  /-- The value of a terminal with the texts of its tokens. -/
  terminal : Symbol → List String → α
  /-- What an operator does in front of an operand. -/
  unary : Operator → α → α
  /-- What an operator or an access does between two operands. -/
  binary : Operator → α → α → α
  /-- What a condition chooses. -/
  ternary : α → α → α → α
  /-- What a call returns. -/
  call : CallKind → α → List α → α

namespace Interpretation

variable {α : Type*} (I : Interpretation α) (texts : TokenRange → List String)

mutual

/-- The value of an expression. -/
def value : Expr → α
  | .terminal s o => I.terminal s (texts o.range)
  | .unary op x _ => I.unary op (value x)
  | .binary op left right _ => I.binary op (value left) (value right)
  | .ternary x y z _ => I.ternary (value x) (value y) (value z)
  | .call kind callee args _ => I.call kind (value callee) (values args)

/-- The values of all expressions of a list. -/
def values : List Expr → List α
  | [] => []
  | x :: xs => value x :: values xs

end

/-- The chains of a logical operator may be regrouped and reordered. -/
structure Orderless : Prop where
  /-- It does not matter how the operands of a chain are grouped. -/
  assoc (op : Operator) : op.isLogical = true → Std.Associative (I.binary op)
  /-- It does not matter in which order they stand. -/
  comm (op : Operator) : op.isLogical = true → Std.Commutative (I.binary op)

/-! ### Values of lists and of chains -/

theorem values_eq_map (xs : List Expr) : I.values texts xs = xs.map (I.value texts) := by
  induction xs with
  | nil => rfl
  | cons x xs ih => rw [values, ih, List.map_cons]

/-- The value of a list of operands that are joined from the right, none if there are none. -/
def joined (op : Operator) (xs : List Expr) : Option α :=
  ((I.values texts xs).map some).foldr (Option.merge (I.binary op)) none

/-- An operand more is joined from the left. -/
theorem joined_cons_of_eq_some {op : Operator} {x : Expr} {xs : List Expr} {v : α}
    (h : I.joined texts op xs = some v) :
    I.joined texts op (x :: xs) = some (I.binary op (I.value texts x) v) :=
  congrArg (Option.merge (I.binary op) (some (I.value texts x))) h

/-- Whatever operator the chain is taken by, it is worth what the expression is worth. -/
theorem joined_chain (op : Operator) (x : Expr) :
    I.joined texts op (Expr.chain op x) = some (I.value texts x) := by
  fun_induction Expr.chain op x with
  | case1 left right o ih => exact I.joined_cons_of_eq_some texts ih
  | case2 => rfl
  | case3 => rfl

variable {I texts}

/-- Operands of a logical operator may be reordered. -/
theorem Orderless.joined_eq_of_perm (h : I.Orderless) {op : Operator} (hop : op.isLogical = true)
    {xs ys : List Expr} (hxy : xs.Perm ys) : I.joined texts op xs = I.joined texts op ys := by
  have := h.assoc op hop
  have := h.comm op hop
  rw [joined, joined, values_eq_map, values_eq_map]
  exact ((hxy.map _).map some).foldr_op_eq

/-- Expressions that pass a test place by place have the same values if the test tells so much. -/
theorem values_eq_of_forall₂ {test : Expr → Expr → Bool} {xs ys : List Expr}
    (htest : ∀ x ∈ xs, ∀ y, test x y = true → I.value texts x = I.value texts y)
    (h : List.Forall₂ (fun x y ↦ test x y = true) xs ys) :
    I.values texts xs = I.values texts ys := by
  induction h with
  | nil => rfl
  | cons hxy _ ih =>
    rw [values, values, htest _ List.mem_cons_self _ hxy,
      ih fun x hx ↦ htest x (List.mem_cons_of_mem _ hx)]

/-- A matching of operands is first an exchange of equal values and then a reordering. -/
theorem Orderless.joined_eq_of_matchable (h : I.Orderless) {op : Operator}
    (hop : op.isLogical = true) {test : Expr → Expr → Bool} {xs ys : List Expr}
    (htest : ∀ x ∈ xs, ∀ y, test x y = true → I.value texts x = I.value texts y)
    (hxy : Matchable test xs ys) : I.joined texts op xs = I.joined texts op ys := by
  obtain ⟨zs, hzs, hall⟩ := hxy
  -- place by place the operands are worth the same, and only then is the order given up
  have hvalues : I.values texts xs = I.values texts zs := values_eq_of_forall₂ htest hall
  rw [joined, hvalues]
  exact h.joined_eq_of_perm hop hzs

/-! ### Truth values -/

/-- Names as truth values, the given ones being true. Operators that are not logical are false. -/
def truth (names : List String) : Interpretation Bool where
  terminal _ texts := texts.all names.contains
  unary op v := op == .not && !v
  binary
    | .and, v, w => v && w
    | .or, v, w => v || w
    | _, _, _ => false
  ternary v w u := if v then w else u
  call _ _ _ := false

/-- Truth values may be joined in any order. -/
theorem orderless_truth (names : List String) : (truth names).Orderless where
  assoc op _ := ⟨fun u v w ↦ by cases op <;> simp [truth, Bool.and_assoc, Bool.or_assoc]⟩
  comm op _ := ⟨fun v w ↦ by cases op <;> simp [truth, Bool.and_comm, Bool.or_comm]⟩

end Interpretation

/-! ### What is the same is worth the same -/

namespace Comparison

variable {α : Type*}

/-- Whatever passes the comparison with an expression has the value of it. -/
def SoundAt (c : Comparison) (I : Interpretation α) (x : Expr) : Prop :=
  ∀ y, c.same x y = true → I.value c.texts x = I.value c.texts y

variable {c : Comparison} {I : Interpretation α}

/-- Terminals with the same texts have the same value. -/
theorem soundAt_terminal (s : Symbol) (o : Origin) : c.SoundAt I (.terminal s o) := by
  intro y h
  cases y <;> simp only [same, Bool.false_eq_true] at h
  rw [Bool.and_eq_true, beq_iff_eq, beq_iff_eq] at h
  rw [Interpretation.value, Interpretation.value, h.1, h.2]

/-- What is compared part by part is worth the same if its parts are. -/
theorem soundAt_unary {op : Operator} {x : Expr} (hx : c.SoundAt I x) (o : Origin) :
    c.SoundAt I (.unary op x o) := by
  intro y h
  cases y <;> simp only [same, Bool.false_eq_true] at h
  rw [Bool.and_eq_true, beq_iff_eq] at h
  rw [Interpretation.value, Interpretation.value, h.1, hx _ h.2]

theorem soundAt_ternary {x y z : Expr} (hx : c.SoundAt I x) (hy : c.SoundAt I y)
    (hz : c.SoundAt I z) (o : Origin) : c.SoundAt I (.ternary x y z o) := by
  intro w h
  cases w <;> simp only [same, Bool.false_eq_true] at h
  simp only [Bool.and_eq_true] at h
  rw [Interpretation.value, Interpretation.value, hx _ h.1.1, hy _ h.1.2, hz _ h.2]

/-- A call has arguments of the same values. -/
theorem soundAt_call {kind : CallKind} {callee : Expr} {args : List Expr}
    (hcallee : c.SoundAt I callee) (hargs : ∀ x ∈ args, c.SoundAt I x) (o : Origin) :
    c.SoundAt I (.call kind callee args o) := by
  intro y h
  cases y with
  | call kind' callee' args' =>
    rw [same_call, Bool.and_eq_true, Bool.and_eq_true, beq_iff_eq, allPaired_iff_forall₂] at h
    obtain ⟨⟨rfl, hsame⟩, hall⟩ := h
    have hvalues : I.values c.texts args = I.values c.texts args' :=
      Interpretation.values_eq_of_forall₂ hargs hall
    rw [Interpretation.value, Interpretation.value, hcallee _ hsame, hvalues]
  | _ => simp [same] at h

/-- The one case that asks something of the interpretation. The operands of the two chains match,
and the value of each operation is that of its chain. -/
theorem soundAt_binary (hI : c.chains = true → I.Orderless) {op : Operator} {left right : Expr}
    (hleft : c.SoundAt I left) (hright : c.SoundAt I right)
    (hchain : ∀ x ∈ Expr.chain op right, c.SoundAt I x) (o : Origin) :
    c.SoundAt I (.binary op left right o) := by
  intro y h
  cases y with
  | binary op' left' right' o' =>
    rw [same_binary, Bool.and_eq_true, beq_iff_eq] at h
    obtain ⟨rfl, h⟩ := h
    split at h
    next hchains =>
      rw [Bool.and_eq_true] at hchains
      have hoperands : ∀ x ∈ left :: Expr.chain op right, c.SoundAt I x := by
        rintro x (_ | ⟨_, hx⟩)
        · exact hleft
        · exact hchain x hx
      -- the left operands are in front of the chains that were matched, not in the right operands
      have hjoined : I.joined c.texts op (left :: Expr.chain op right) =
          I.joined c.texts op (left' :: Expr.chain op right') :=
        (hI hchains.1).joined_eq_of_matchable hchains.2 hoperands (matchable_of_matchedGreedily h)
      rw [I.joined_cons_of_eq_some c.texts (I.joined_chain c.texts op right),
        I.joined_cons_of_eq_some c.texts (I.joined_chain c.texts op right')] at hjoined
      exact Option.some.inj hjoined
    next =>
      rw [Bool.and_eq_true] at h
      rw [Interpretation.value, Interpretation.value, hleft _ h.1, hright _ h.2]
  | _ => simp [same] at h

/-- The induction is on the expression, and only chains ask for anything. -/
theorem soundAt (hI : c.chains = true → I.Orderless) : (x : Expr) → c.SoundAt I x
  | .terminal s o => soundAt_terminal s o
  | .unary _ x o => soundAt_unary (soundAt hI x) o
  | .binary _ left right o =>
    soundAt_binary hI (soundAt hI left) (soundAt hI right)
      (fun x hx ↦ have := Expr.sizeOf_le_of_mem_chain hx; soundAt hI x) o
  | .ternary x y z o => soundAt_ternary (soundAt hI x) (soundAt hI y) (soundAt hI z) o
  | .call _ callee args o =>
    soundAt_call (soundAt hI callee)
      (fun x hx ↦ have := List.sizeOf_lt_of_mem hx; soundAt hI x) o
-- an operand of a chain may be any number of links away, so the recursion goes by size
termination_by x => sizeOf x
decreasing_by all_goals simp only [Expr.unary.sizeOf_spec, Expr.binary.sizeOf_spec,
  Expr.ternary.sizeOf_spec, Expr.call.sizeOf_spec]; omega

/-- **Comparing is sound.** Only a comparison that disregards the order of chains needs operators
that disregard it. -/
theorem value_eq_of_same (hI : c.chains = true → I.Orderless) {x y : Expr}
    (h : c.same x y = true) : I.value c.texts x = I.value c.texts y :=
  soundAt hI x y h

end Comparison

/-- **Expressions that compare equal have equal values**: by shape alone under every interpretation,
and without regard to the order of chains under every one whose logical operators may be regrouped
and reordered. -/
theorem Document.values_of_comparisons {α : Type*} (d : Document) (I : Interpretation α)
    (x y : Expr) :
    (d.exactly.same x y = true → I.value d.tokenTexts x = I.value d.tokenTexts y) ∧
      (I.Orderless → d.upToChains.same x y = true →
        I.value d.tokenTexts x = I.value d.tokenTexts y) :=
  ⟨fun h ↦ Comparison.value_eq_of_same (c := d.exactly) (fun hc ↦ absurd hc Bool.false_ne_true) h,
    fun hI h ↦ Comparison.value_eq_of_same (c := d.upToChains) (fun _ ↦ hI) h⟩

/-- An expression has the value of its repetition and of the one with the operands exchanged. -/
theorem Document.exchanged_operands_have_one_value :
    ∃ d x y z, d = ofText "Х=А И Б;У=А И Б;З=Б И А;" ∧
      d.nodes[8]?.bind Node.expr? = some x ∧ d.nodes[24]?.bind Node.expr? = some y ∧
      d.nodes[40]?.bind Node.expr? = some z ∧
      d.exactly.same x y = true ∧ d.upToChains.same x z = true ∧
      (Interpretation.truth ["А"]).value d.tokenTexts x =
        (Interpretation.truth ["А"]).value d.tokenTexts y ∧
      (Interpretation.truth ["А"]).value d.tokenTexts x =
        (Interpretation.truth ["А"]).value d.tokenTexts z := by
  obtain ⟨d, hd⟩ : ∃ d, d = ofText "Х=А И Б;У=А И Б;З=Б И А;" := ⟨_, rfl⟩
  have hsame : (d.nodes[8]?.bind Node.expr?).any (fun x ↦
      (d.nodes[24]?.bind Node.expr?).any (d.exactly.same x) ∧
      (d.nodes[40]?.bind Node.expr?).any (d.upToChains.same x)) = true := by
    rw [hd, Document.ofText_eq_evaluated]
    decide +kernel
  obtain ⟨x, hx, ⟨y, hy, hxy⟩, z, hz, hxz⟩ := by
    simpa only [Option.any_eq_true, decide_eq_true_eq] using hsame
  exact ⟨d, x, y, z, hd, hx, hy, hz, hxy, hxz, (values_of_comparisons d _ x y).1 hxy,
    (values_of_comparisons d _ x z).2 (Interpretation.orderless_truth _) hxz⟩

end BslLint
