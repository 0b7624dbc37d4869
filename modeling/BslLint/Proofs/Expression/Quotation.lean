import BslLint.Proofs.Expression.Nesting
import BslLint.Proofs.Expression.Ranges
import BslLint.Proofs.Expression.RoundTrip
import BslLint.Proofs.Token.Order

/-!
# The text of a range, read again

The text of the range of an operand is put behind a name and an equals sign. The tokens of the
operand itself recur there, and the range takes in all of them but for parentheses in front and
behind. So **the text is read as the operand exactly if its parentheses and brackets are balanced**,
and otherwise the module has errors (`Document.Quotes`). The parentheses that are missing are those
around the text in the document: with them it is read as the operand in any case.

An operand of an operation is what a run of pieces of a row comes to, and any such run will do
(`Piece.Worded.quotes`).
-/

namespace BslLint

open Grammar

namespace Document

open BslLint.Expr

/-- Parentheses and brackets of the text are balanced. -/
def IsBalancedText (source : String) : Prop :=
  IsBalanced ((Scan.ofText source).tokens.map (·.kind))

instance (source : String) : Decidable (IsBalancedText source) :=
  inferInstanceAs (Decidable (IsBalanced _))

/-- Behind a name and an equals sign, the text is an expression with the shape of the other one. -/
structure ReadsBack (d : Document) (source : String) (x : Expr) : Prop where
  /-- The module of the assignment is free of errors. -/
  errors_eq : (ofText (assignmentText source)).errors = []
  /-- What is assigned has the shape. -/
  assigns : (ofText (assignmentText source)).Assigns fun y ↦
    (ofText (assignmentText source)).shapeOf y = d.shapeOf x

variable {d : Document} {l m r w : List Token} {x : Expr}

theorem IsCut.nodup_tokens (h : d.IsCut) : d.tokens.toList.Nodup :=
  h.toList_tokens_eq ▸ (Scan.ordered_ofText d.source).nodup

/-- The tokens of a run that is assigned: a name, the equals sign, the same words, a semicolon. -/
theorem exists_tokens_assigned (h : d.IsCut) (hw : w <:+: d.tokens.toList) (hne : w ≠ []) :
    ∃ a e v s, Scan.ofText (assignmentText (d.spanText w)) = ⟨a :: e :: (v ++ [s]), []⟩ ∧
      a.kind = .identifier ∧ e.kind = .equal ∧ s.kind = .semicolon ∧ SameWords v w := by
  obtain ⟨ls, hcuts, hframed, hknown, hsigns⟩ := h.exists_cuts hw hne
  obtain ⟨a, e, v, s, hscan, ha, he, hs, hv⟩ := exists_tokens_assignmentText hcuts hframed hknown
  exact ⟨a, e, v, s, hscan, ha, he, hs, hv.map_sign.trans hsigns.symm⟩

/-- The text of a run of tokens is balanced if the tokens are. -/
theorem isBalancedText_spanText (h : d.IsCut) (hw : w <:+: d.tokens.toList) (hne : w ≠ []) :
    IsBalancedText (d.spanText w) ↔ IsBalanced (w.map (·.kind)) := by
  obtain ⟨ls, hcuts, -, -, hsigns⟩ := h.exists_cuts hw hne
  have hsame : SameWords (Scan.ofText (d.spanText w)).tokens w := by
    rw [SameWords, hsigns, Scan.ofText, Scan.map_sign_tokens_place, hcuts.lexemes_eq]
  rw [IsBalancedText, hsame.kinds_eq]

/-- Tokens that recur are read again. -/
theorem readsBack_of_recurs (h : d.IsCut) (hw : w <:+: d.tokens.toList) (hne : w ≠ [])
    (hx : Recurs IsExpression d w x) : d.ReadsBack (d.spanText w) x := by
  obtain ⟨a, e, v, s, hscan, ha, he, hs, hv⟩ := exists_tokens_assigned h hw hne
  obtain ⟨herrors, hassigns⟩ := assigns_of_isExpression hscan ha he hs (hx _ v hv)
  exact ⟨herrors, hassigns⟩

/-- Where the module has no errors, the tokens are balanced: they are an expression themselves. -/
theorem isBalanced_of_errors (h : d.IsCut) (hm : m <:+: d.tokens.toList) (hne : m ≠ [])
    (hl : ∀ t ∈ l, t.kind = .leftParen) (hx : Recurs IsExpression d (l ++ (m ++ r)) x)
    (herrors : (ofText (assignmentText (d.spanText m))).errors = []) :
    IsBalanced (m.map (·.kind)) := by
  obtain ⟨a, e, v, s, hscan, ha, he, hs, hv⟩ := exists_tokens_assigned h hm hne
  -- The words with the parentheses around them are an expression wherever they stand.
  have hsame : SameWords (l ++ (v ++ r)) (l ++ (m ++ r)) := by
    rw [SameWords, List.map_append, List.map_append, hv]
    simp
  obtain ⟨t, ht, -⟩ := hx d _ hsame
  obtain ⟨ds, hds⟩ :=
    ht.exists_inside_of_file hl ha he hs ((errors_assignmentText_iff hscan).1 herrors)
  rw [← hv.kinds_eq]
  exact hds.isBalanced

/-- What the text of the range of an expression says about the expression. -/
structure Quotes (d : Document) (x : Expr) : Prop where
  /-- The range is not empty. -/
  isEmpty_eq : x.range.isEmpty = false
  /-- A balanced text is read as the expression. -/
  readsBack : IsBalancedText (d.rangeText x.range) → d.ReadsBack (d.rangeText x.range) x
  /-- A text that is not balanced is not read without errors. -/
  isBalanced : (ofText (assignmentText (d.rangeText x.range))).errors = [] →
    IsBalancedText (d.rangeText x.range)
  /-- With parentheses around it that stand in the document, the text is read as the expression. -/
  exists_parens : ∃ l m r, l ++ (m ++ r) <:+: d.tokens.toList ∧ (∀ t ∈ l, t.kind = .leftParen) ∧
    (∀ t ∈ r, t.kind = .rightParen) ∧ d.rangeText x.range = d.spanText m ∧
      d.ReadsBack (d.spanText (l ++ (m ++ r))) x

end Document

open Document BslLint.Expr

variable {d : Document} {w : List Token} {row : List Piece} {x z : Expr}

/-- What pieces come to is quoted by the text of its range. -/
theorem Piece.Worded.quotes (h : d.IsCut) (hrow : Piece.Worded d true w row)
    (hw : w <:+: d.tokens.toList) (hx : Piece.resolve? row = some x) : d.Quotes x := by
  obtain ⟨l, m, r, rfl, hsits, hbalanced⟩ := hrow.exists_sits h.nodup_tokens hw hx
  have hm : m <:+: d.tokens.toList := hsits.spans.isInfix
  have hrecurs := hrow.recurs hx
  have htext := hsits.spans.rangeText_eq
  have hiff := isBalancedText_spanText h hm hsits.ne_nil
  refine ⟨hsits.spans.isEmpty_eq hsits.ne_nil, ?_, ?_, l, m, r, hw, hsits.left, hsits.right, htext,
    readsBack_of_recurs h hw (by simp [hsits.ne_nil]) hrecurs⟩
  · rw [htext]
    exact fun h' ↦ readsBack_of_recurs h hm hsits.ne_nil (hbalanced (hiff.1 h'))
  · rw [htext]
    exact fun herrors ↦ hiff.2 (isBalanced_of_errors h hm hsits.ne_nil hsits.left hrecurs herrors)

namespace Node

variable {text : String} {n : Node}

/-- In a text without errors, the row of an expression is made from the tokens of the node. -/
theorem worded_of_row? (h : (ofText text).errors = []) (hn : n ∈ (ofText text).nodes)
    (hkind : n.kind = .expression) (hrow : n.row? = some row) :
    Piece.Worded (ofText text) true n.tree.tokens row := by
  have hstands := standsIn_of_mem_nodes hn
  obtain ⟨ts, htree, hyields⟩ := (derives_of_mem_nodes h hn hkind).words
    (isCut_ofText h).nodup_tokens hstands.isInfix
  have hchildren : n.children.map Node.tree = ts := by
    rw [n.map_tree_children, (List.cons.inj htree).1, Tree.children]
  obtain ⟨rows, hrows, hworded⟩ := hyields n.children n.size
    (fun c hc ↦ ⟨hstands.child hc, Nat.le_of_lt (size_lt_of_mem_children hc)⟩) hchildren
  -- All depths that are enough give the same row.
  have hall : n.children.mapM (pieces? Node.expr?) = some rows := by
    rw [← hrows]
    refine mapM_congr fun c hc ↦ pieces?_congr (fun c' hc' ↦ ?_) (Nat.le_refl _)
    refine (nested?_eq (Nat.le_of_lt (Nat.lt_trans hc' (size_lt_of_mem_children hc)))).symm
  obtain rfl : rows.flatten = row := by
    rw [row?, hall] at hrow
    exact Option.some.inj hrow
  exact hworded

/-- **In a text without errors, the operands of every operation are quoted** by the texts of their
ranges. -/
theorem quotes_of_has (h : (ofText text).errors = []) (hn : n ∈ (ofText text).nodes)
    (hx : n.expr? = some x) (hxz : x.Has z) (hz : z.role? = some .operation) :
    ∀ y ∈ z.direct, (ofText text).Quotes y := by
  have hcut := isCut_ofText h
  obtain ⟨e, hen, he⟩ := exists_hosts_of_has hn hx hxz hz
  have hemem := mem_nodes_of_mem_preorder hn hen
  obtain ⟨row, hrow, before, lefts, p, rights, after, left, right, rfl, rfl, hleft, hright⟩ :=
    he.joins
  have hworded := worded_of_row? h hemem he.kind_eq hrow
  -- Either side is a row within the row of the expression, so its tokens stand within its tokens.
  have hquotes : ∀ {front side back : List Piece} {y : Expr},
      before ++ (lefts ++ .binary p :: rights) ++ after = front ++ side ++ back →
        Piece.Row (fun _ ↦ True) true side → Piece.resolve? side = some y →
          (ofText text).Quotes y := by
    intro front side back y hsplit hside hy
    rw [hsplit] at hworded
    obtain ⟨u, hu, hworded⟩ := hworded.exists_infix hside
    exact hworded.quotes hcut (hu.trans (standsIn_of_mem_nodes hemem).isInfix) hy
  refine List.forall_mem_cons.2 ⟨?_, List.forall_mem_singleton.2 ?_⟩
  · exact hquotes (by simp : _ = before ++ lefts ++ (.binary p :: rights ++ after)) hleft.1 hleft.2
  · exact hquotes (by simp : _ = before ++ (lefts ++ [.binary p]) ++ rights ++ after)
      hright.1 hright.2

end Node

end BslLint
