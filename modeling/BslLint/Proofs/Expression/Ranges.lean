import BslLint.Proofs.Expression.Wording

/-!
# The ranges of expressions

The range of an expression is put together from the ranges of its parts, and parentheses are no part
of any. Which tokens it takes in is told along the derivation (`Grammar.Derives.words`): a value
without parentheses has all of its tokens, one in parentheses has those of the expression inside,
and accesses behind the parentheses reach from there over the parenthesis that closes to their own
end, which is never balanced.

**Every expression of a row, and every run of its pieces that is a row, sits in its tokens** with
nothing but parentheses around it (`Piece.Worded.exists_sits`), and where the tokens of its range
are balanced they are read as the expression again, wherever the same words stand.
-/

namespace BslLint

open Grammar

namespace Expr

variable {d : Document} {u v w : List Token} {cs ts : List Tree} {x y : Expr} {p : Part}

/-! ### Values without parentheses -/

/-- The value that accesses are applied to has the range of its node. -/
theorem range_of_base? {inner : Node → Option Expr} {n : Node} (h : base? inner n = some x) :
    x.range = n.range := by
  unfold base? at h
  split at h
  · obtain rfl := Option.some.inj h
    rfl
  · obtain ⟨_, _, _, _, -, -, -, -, rfl⟩ := of_methodCall? h
    rfl
  · obtain ⟨_, _, -, -, rfl⟩ := of_newExpression? h
    rfl
  · obtain ⟨_, _, _, _, _, _, _, -, -, -, -, rfl⟩ := of_ternaryOperator? h
    rfl
  · exact absurd h.symm (Option.some_ne_none x)

theorem yields_base_spans {t : Tree} {P : Expr → Prop} (h : Yields d base? t P) :
    Yields d base? t fun x ↦ P x ∧ d.Spans x.range t.tokens := by
  intro n depth hn htree
  obtain ⟨x, hx, hP⟩ := h n depth hn htree
  refine ⟨x, hx, hP, ?_⟩
  rw [range_of_base? hx, ← htree]
  exact Document.spans_range hn.standsIn

/-- Where all tokens of a part are those of the range there is nothing around it. -/
theorem sitsIn_of_spans (h : Derives p w cs) (hne : w ≠ []) (hspans : d.Spans x.range w) :
    SitsIn d w x := by
  refine ⟨[], w, [], by simp, hne, hspans, nofun, nofun, ?_, fun _ ↦ .inl ⟨rfl, rfl⟩⟩
  rw [List.nil_append, List.append_nil]
  exact h.isBalanced.closed_eq

theorem isOperand_constant (h : Derives .value w [.node .constValue cs]) {c : Node}
    (hc : c.StandsIn d) (htree : c.tree = .node .constValue cs) :
    IsOperand d w (ofTerminal .literal c) := by
  obtain ⟨t, _, rfl, -⟩ := h.begins_of_ne rfl
  refine ⟨recurs_constant h (htree ▸ hc.tells), sitsIn_of_spans h (List.cons_ne_nil _ _) ?_⟩
  have hspans := Document.spans_range hc
  rwa [htree, h.tokens_eq] at hspans

/-! ### Accesses -/

/-- The accesses of some tokens make one expression out of the other. -/
structure Prolongs (d : Document) (w : List Token) (x y : Expr) : Prop where
  /-- Behind a base that recurs they are a base that recurs. -/
  recurs : ∀ u, Recurs IsBase d u x → Recurs IsBase d (u ++ w) y
  /-- Without accesses the expression stays as it is. -/
  eq_of_nil : w = [] → y = x
  /-- The range is carried on to the end of the accesses, over whatever is in between. -/
  spans : w ≠ [] → ∀ u g, u ≠ [] → d.Spans x.range u → u ++ (g ++ w) <:+: d.tokens.toList →
    d.Spans y.range (u ++ (g ++ w))

theorem Prolongs.refl (x : Expr) : Prolongs d [] x x :=
  ⟨fun u hu ↦ by rwa [List.append_nil], fun _ ↦ rfl, fun hne ↦ absurd rfl hne⟩

/-- An access in front of others. -/
theorem Prolongs.cons (hd : d.tokens.toList.Nodup) {op : Operator} {z : Expr} {n : Node}
    (hn : n.StandsIn d) (hne : n.tree.tokens ≠ [])
    (haccess : RecursAccess d n.tree.tokens (op, z))
    (h : Prolongs d w (.binary op x z ⟨n.id, x.range.cover n.range, n.tokenKind?⟩) y) :
    Prolongs d (n.tree.tokens ++ w) x y := by
  refine ⟨fun u hu ↦ ?_, fun hnil ↦ absurd (List.append_eq_nil_iff.1 hnil).1 hne, ?_⟩
  · rw [← List.append_assoc]
    exact h.recurs _ (hu.access haccess _)
  · intro _ u g hu hspans hinfix
    have hfirst : u ++ (g ++ n.tree.tokens) <:+: d.tokens.toList :=
      List.IsInfix.trans ⟨[], w, by simp⟩ hinfix
    have hcover := hspans.cover hd (Document.spans_range hn) hu hne hfirst
    by_cases hw : w = []
    · subst hw
      rw [h.eq_of_nil rfl, List.append_nil]
      exact hcover
    · have hrest := h.spans hw _ [] (by simp [hu]) hcover (by simpa using hinfix)
      simpa using hrest

/-- A value that is named, made or chosen, with accesses behind it. -/
theorem isOperand_complex (h : Derives .value (u ++ v) cs) (hu : u ≠ []) (hx : Recurs IsHead d u x)
    (hspans : d.Spans x.range u) (hprolongs : Prolongs d v x y)
    (hw : u ++ v <:+: d.tokens.toList) : IsOperand d (u ++ v) y := by
  refine ⟨(hprolongs.recurs u hx.isBase).isValue, sitsIn_of_spans h (by simp [hu]) ?_⟩
  by_cases hv : v = []
  · rwa [hprolongs.eq_of_nil hv, hv, List.append_nil]
  · exact hprolongs.spans hv u [] hu hspans hw

/-! ### Parentheses -/

/-- What is known of the expression that a node comes to, given the tokens of the node. -/
structure IsSeated (d : Document) (w : List Token) (x : Expr) : Prop where
  /-- The tokens recur. -/
  recurs : Recurs IsExpression d w x
  /-- The range of the expression lies in the tokens, and its tokens recur if they are balanced. -/
  exists_sits : ∃ l m r, w = l ++ (m ++ r) ∧ Sits d l m r x ∧
    (IsBalanced (m.map (·.kind)) → Recurs IsExpression d m x)

/-- In parentheses an expression keeps its range. -/
theorem IsSeated.sitsIn_parens {l r : Token} (hx : IsSeated d u x) (hl : l.kind = .leftParen)
    (hr : r.kind = .rightParen) (hcounts : closed (l :: (u ++ [r])) = opened (l :: (u ++ [r]))) :
    SitsIn d (l :: (u ++ [r])) x := by
  obtain ⟨-, l', m', r', rfl, hsits, hbalanced⟩ := hx
  have hleft : ∀ t ∈ l :: l', t.kind = .leftParen := List.forall_mem_cons.2 ⟨hl, hsits.left⟩
  have hright : ∀ t ∈ r' ++ [r], t.kind = .rightParen :=
    List.forall_mem_append.2 ⟨hsits.right, List.forall_mem_singleton.2 hr⟩
  refine ⟨l :: l', m', r' ++ [r], by simp, hsits.ne_nil, hsits.spans, hleft, hright, ?_,
    fun h ↦ .inr (hbalanced h)⟩
  simpa using hcounts

/-- With accesses behind the parentheses the range takes in the one that closes, and not the one
that opens. -/
theorem IsSeated.sitsIn_prolonged {l r : Token} (hx : IsSeated d u x) (hl : l.kind = .leftParen)
    (hprolongs : Prolongs d v x y) (hv : v ≠ [])
    (hcounts : closed (l :: (u ++ r :: v)) = opened (l :: (u ++ r :: v)))
    (hw : l :: (u ++ r :: v) <:+: d.tokens.toList) : SitsIn d (l :: (u ++ r :: v)) y := by
  obtain ⟨-, l', m', r', rfl, hsits, -⟩ := hx
  have hleft : ∀ t ∈ l :: l', t.kind = .leftParen := List.forall_mem_cons.2 ⟨hl, hsits.left⟩
  have hwhole : l :: (l' ++ (m' ++ r') ++ r :: v) = l :: l' ++ (m' ++ (r' ++ [r] ++ v)) := by simp
  rw [hwhole] at hcounts hw ⊢
  have hinfix : m' ++ (r' ++ [r] ++ v) <:+: d.tokens.toList :=
    List.IsInfix.right (u := l :: l') hw
  refine ⟨l :: l', _, [], by simp, by simp [hsits.ne_nil],
    hprolongs.spans hv m' _ hsits.ne_nil hsits.spans hinfix, hleft,
    fun t ht ↦ absurd ht List.not_mem_nil, by simpa using hcounts, fun hm ↦ ?_⟩
  -- The parentheses in front are opened and closed behind the start of the range.
  have heq := hm.closed_eq
  obtain ⟨hopened, hclosed⟩ := counts_of_leftParen hleft
  rw [closed_append, opened_append, hopened, hclosed, heq, List.length_cons] at hcounts
  omega

/-- A value in parentheses, with accesses behind them. -/
theorem isOperand_parens {l r : Token} (hl : l.kind = .leftParen) (hr : r.kind = .rightParen)
    (h : Derives .value (l :: (u ++ r :: v)) cs) (hx : IsSeated d u x)
    (hprolongs : Prolongs d v x y) (hw : l :: (u ++ r :: v) <:+: d.tokens.toList) :
    IsOperand d (l :: (u ++ r :: v)) y := by
  have hcounts := h.isBalanced.closed_eq
  have hbase := hprolongs.recurs _ (hx.recurs.parens hl hr)
  refine ⟨?_, ?_⟩
  · simp only [List.cons_append, List.append_assoc] at hbase
    exact hbase.isValue
  · by_cases hv : v = []
    · subst hv
      obtain rfl := hprolongs.eq_of_nil rfl
      exact hx.sitsIn_parens hl hr hcounts
    · exact hx.sitsIn_prolonged hl hprolongs hv hcounts hw

/-! ### Rows -/

theorem lifts_true : Expr.Lifts fun _ ↦ True := ⟨fun _ _ _ ↦ trivial, fun _ _ _ _ ↦ trivial⟩

theorem yields_of_worded (hd : d.tokens.toList.Nodup) (hw : w <:+: d.tokens.toList)
    (h : YieldsAll d pieces? ts fun rows ↦ Piece.Worded d true w rows.flatten) :
    Yields d id (.node .expression ts) (IsSeated d w) := by
  refine yields_expression h fun rows hrows ↦ ?_
  obtain ⟨x, hx, -⟩ := hrows.isRow.exists_resolve? lifts_true
  exact ⟨x, hx, hrows.recurs hx, hrows.exists_sits hd hw hx⟩

/-- The operators in front of an operand, with their tokens. -/
theorem worded_unaries {us : List Token} {ps : List Pending} {row : List Piece}
    (hps : List.Forall₂ (fun t p ↦
      Operator.unary? t.kind = some p.operator ∧ d.Spans p.origin.range [t]) us ps)
    (h : Piece.Worded d true w row) : Piece.Worded d true (us ++ w) (ps.map .unary ++ row) := by
  induction hps with
  | nil => exact h
  | cons hp _ ih => exact .unary hp.1 hp.2 ih

/-! ### Derivations -/

/-- What the trees of a part come to, in terms of its tokens. -/
def Words (d : Document) : Part → List Token → List Tree → Prop
  | .expression, w, cs => ∃ ts, cs = [.node .expression ts] ∧
      YieldsAll d pieces? ts fun rows ↦ Piece.Worded d true w rows.flatten
  | .row, w, cs => YieldsAll d pieces? cs fun rows ↦ Piece.Worded d false w rows.flatten
  | .member, w, cs => ∃ t, cs = [t] ∧ Yields d pieces? t fun row ↦
      ∀ v rest, Piece.Worded d false v rest → Piece.Worded d true (w ++ v) (row ++ rest)
  | .value, w, cs => (∀ c ∈ cs, c.kind ≠ .unaryModifier) ∧
      ∀ us : List Token, Yields d operand? (.node .member (us.map unaryTree ++ cs)) (IsOperand d w)
  | .head, w, cs => ∃ t, cs = [t] ∧ t.kind ≠ .modifier ∧ Yields d base? t (Recurs IsHead d w)
  | .typeName, w, cs => Derives .typeName w cs
  | .callOrNone, w, cs => YieldsOptional d cs (RecursAll IsOptionalCall d w)
  | .modifiers, w, cs => (∀ c ∈ cs, c.kind = .modifier) ∧ YieldsAccesses d cs (Prolongs d w)
  | .modifier, w, cs => ∃ t, cs = [t] ∧ t.kind = .modifier ∧ Yields d access? t (RecursAccess d w)
  | .call, w, cs => ∃ t, cs = [t] ∧ t.kind = .doCall ∧ Yields d arguments? t (RecursAll IsCall d w)
  | .argument, w, cs => ∃ t, cs = [t] ∧ t.kind = .callParam ∧
      Yields d argument? t (Recurs IsParam d w)
  | .arguments, w, cs =>
      YieldsAll d argument? (cs.filter (·.kind = .callParam)) (RecursAll IsParams d w)

end Expr

namespace Grammar

open BslLint.Expr

variable {d : Document}

/-- **What is derived is made from its tokens**, rows piece by piece, values with their ranges. -/
theorem Derives.words (hd : d.tokens.toList.Nodup) {p : Part} {w : List Token} {cs : List Tree}
    (h : Derives p w cs) (hw : w <:+: d.tokens.toList) : Words d p w cs := by
  -- An expression inside of a part is known by its row, and by what the row comes to.
  have hexpression : ∀ {u : List Token} {cs : List Tree}, u <:+: d.tokens.toList →
      Words d .expression u cs →
        ∃ t, cs = [t] ∧ t.kind = .expression ∧ Yields d id t (IsSeated d u) := by
    rintro u _ hu ⟨ts, rfl, hts⟩
    exact ⟨_, rfl, rfl, yields_of_worded hd hu hts⟩
  induction h with
  | expression _ _ ihfirst ihothers =>
    obtain ⟨t, rfl, ht⟩ := ihfirst hw.left
    exact ⟨_, rfl, .cons ht (ihothers hw.right) fun row rows hrow hrows ↦ hrow _ _ hrows⟩
  | row_nil => exact YieldsAll.nil .nil
  | row_cons hop _ _ ihfirst ihothers =>
    obtain ⟨t, rfl, ht⟩ := ihfirst hw.tail.left
    obtain ⟨op, hop⟩ := exists_binary? hop
    have hothers : YieldsAll d pieces? _ fun rows ↦ Piece.Worded d true _ rows.flatten :=
      .cons ht (ihothers hw.tail.right) fun row rows hrow hrows ↦ hrow _ _ hrows
    refine YieldsAll.cons (yields_operation hop) hothers ?_
    rintro _ rows ⟨p, rfl, rfl⟩ hrows
    exact .binary hop hrows
  | member hus _ ih =>
    obtain ⟨hkinds, hvalue⟩ := ih hw.right
    refine ⟨_, rfl, (yields_member_spans hus hkinds (hvalue _)).mono ?_⟩
    rintro _ ⟨ps, x, rfl, hx, hps⟩ v rest hrest
    rw [List.append_assoc, List.append_assoc]
    exact worded_unaries hps (.operand hx hrest)
  | strings hts hstrings =>
    refine ⟨by simp, fun us ↦ yields_operand_constant_of_node us fun c hc htree ↦ ?_⟩
    exact isOperand_constant (.strings hts hstrings) hc htree
  | constant ht =>
    refine ⟨by simp, fun us ↦ yields_operand_constant_of_node us fun c hc htree ↦ ?_⟩
    exact isOperand_constant (.constant ht) hc htree
  | complex hhead hmods ihhead ihmods =>
    obtain ⟨t, rfl, hkind, hbase⟩ := ihhead hw.left
    obtain ⟨hkinds, haccesses⟩ := ihmods hw.right
    obtain ⟨s, ss, rfl, -⟩ := hhead.begins_of_ne rfl
    refine ⟨by simp, fun us ↦ yields_operand_complex us (yields_complexIdentifier hkind hkinds
      (yields_base_spans hbase) haccesses fun b y hb hprolongs ↦ ?_)⟩
    rw [hhead.tokens_eq] at hb
    exact isOperand_complex (.complex hhead hmods) (List.cons_ne_nil _ _) hb.1 hb.2 hprolongs hw
  | parens hl hr hinside hmods ihinside ihmods =>
    obtain ⟨t, rfl, hkind, hyields⟩ := hexpression hw.tail.left (ihinside hw.tail.left)
    obtain ⟨hkinds, haccesses⟩ := ihmods hw.tail.right.tail
    refine ⟨?_, fun us ↦ yields_operand_parens us hl hkind hkinds hyields haccesses
      fun b y hb hprolongs ↦ ?_⟩
    · simp only [List.singleton_append, List.forall_mem_cons, Tree.kind_leaf, hkind]
      exact ⟨nofun, nofun, nofun, fun c hc ↦ by rw [hkinds c hc]; exact nofun⟩
    · exact isOperand_parens hl hr (.parens hl hr hinside hmods) hb hprolongs hw
  | name ht =>
    exact ⟨_, rfl, nofun, yields_base_name fun o ho ↦ recurs_name ht ho⟩
  | globalCall ht _ ih =>
    obtain ⟨c, rfl, hkind, hc⟩ := ih hw.tail
    refine ⟨_, rfl, nofun, yields_base_call rfl ((yields_methodCall hkind hc).mono ?_)⟩
    exact fun x hx ↦ recurs_methodCall ht hx
  | new ht htype _ _ ihcall =>
    have hcall := ihcall hw.tail.right
    refine ⟨_, rfl, nofun, yields_base_new rfl ((yields_newExpression ht ?_ hcall).mono
      fun x hx ↦ recurs_new ht htype hx)⟩
    cases htype with
    | typeName_none => exact .inl rfl
    | typeName_some _ => exact .inr ⟨_, rfl⟩
  | ternary hq hl _ hc _ hc' _ hr ihcondition ihyes ihno =>
    have hu := hw.tail.tail
    have hv := hu.right.tail
    have hw' := hv.right.tail.left
    obtain ⟨t₁, rfl, hkind₁, h₁⟩ := hexpression hu.left (ihcondition hu.left)
    obtain ⟨t₂, rfl, hkind₂, h₂⟩ := hexpression hv.left (ihyes hv.left)
    obtain ⟨t₃, rfl, hkind₃, h₃⟩ := hexpression hw' (ihno hw')
    exact ⟨_, rfl, nofun, yields_base_ternary rfl
      (yields_ternaryOperator hkind₁ hkind₂ hkind₃ h₁ h₂ h₃ fun x y z o hx hy hz ↦
        recurs_ternary hx.recurs hy.recurs hz.recurs hq hl hc hc' hr o)⟩
  | typeName_none => exact Derives.typeName_none
  | typeName_some ht => exact Derives.typeName_some ht
  | call_none => exact Or.inl ⟨rfl, recursAll_optional_none⟩
  | call_some _ ih =>
    obtain ⟨c, rfl, hkind, hc⟩ := ih hw
    exact Or.inr ⟨c, rfl, hkind, hc.mono fun xs hxs ↦ hxs.optional⟩
  | modifiers_nil => exact ⟨nofun, .nil .refl⟩
  | modifiers_cons hfirst _ ihfirst ihothers =>
    obtain ⟨t, rfl, hkind, ht⟩ := ihfirst hw.left
    obtain ⟨hkinds, hmods⟩ := ihothers hw.right
    refine ⟨List.forall_mem_cons.2 ⟨hkind, hkinds⟩, YieldsAccesses.cons_of_node ht hmods ?_⟩
    rintro base op right y n hn rfl haccess hprolongs
    obtain ⟨s, ss, hu, -⟩ := hfirst.begins_of_ne rfl
    rw [← hfirst.tokens_eq] at hu haccess ⊢
    exact .cons hd hn (by rw [hu]; exact List.cons_ne_nil _ _) haccess hprolongs
  | property hdot ht =>
    exact ⟨_, rfl, rfl, yields_property fun o ho ↦ recurs_property hdot ht ho⟩
  | methodCall hdot ht _ ih =>
    obtain ⟨c, rfl, hkind, hc⟩ := ih hw.tail.tail
    refine ⟨_, rfl, rfl, (yields_method (yields_methodCall hkind hc)).mono ?_⟩
    rintro ⟨_, x⟩ ⟨rfl, hx⟩
    exact recurs_method hdot ht hx
  | index hl _ hr ih =>
    obtain ⟨t, rfl, hkind, ht⟩ := hexpression hw.tail.left (ih hw.tail.left)
    refine ⟨_, rfl, rfl, (yields_index hkind ht).mono ?_⟩
    rintro ⟨_, y⟩ ⟨rfl, hy⟩
    exact hy.recurs.index hl hr
  | @call _ _ u v _ _ hl _ _ hr ihfirst ihothers =>
    obtain ⟨t, rfl, hkind, ht⟩ := ihfirst hw.tail.left
    have hothers := ihothers hw.tail.right.left
    refine ⟨_, rfl, rfl, yields_arguments (Q := fun xs ↦ ∃ y ys, xs = y :: ys ∧
      Recurs IsParam d u y ∧ RecursAll IsParams d v ys) ?_ ?_⟩
    · rw [List.singleton_append, filter_params hkind]
      exact .cons ht hothers fun y ys hy hys ↦ ⟨y, ys, rfl, hy, hys⟩
    · rintro _ ⟨y, ys, rfl, hy, hys⟩
      exact hy.call hys hl hr
  | argument_none =>
    exact ⟨_, rfl, rfl, yields_argument_none fun o _ htexts ↦ recurs_argument_none htexts⟩
  | argument_some _ ih =>
    obtain ⟨t, rfl, hkind, ht⟩ := hexpression hw (ih hw)
    exact ⟨_, rfl, rfl, yields_argument_some hkind (ht.mono fun a ha ↦ ha.recurs.argument)⟩
  | arguments_nil => exact YieldsAll.nil recursAll_nil
  | arguments_cons hc _ _ ihfirst ihothers =>
    obtain ⟨t, rfl, hkind, ht⟩ := ihfirst hw.tail.left
    have hothers := ihothers hw.tail.right
    show YieldsAll d argument? ((.leaf _ :: ([t] ++ _)).filter _) _
    rw [List.filter_cons_of_neg (by simp), List.singleton_append, filter_params hkind]
    exact .cons ht hothers fun a as ha has ↦ ha.cons has hc

end Grammar

end BslLint
