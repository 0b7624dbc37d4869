import BslLint.Fingerprint.Block
import BslLint.Proofs.Grammar.Coverage
import BslLint.Proofs.Syntax.Below
import BslLint.Proofs.Syntax.Standing
import BslLint.Proofs.Token.Order

/-!
# Blocks and their nodes

A node that has tokens gives a block, which reaches from the line of its first token to the line
where its last token has ended. A node without tokens gives none. The blocks of a parsed text are
therefore a division of its tokens (`Document.tiled_blocks`): every part of a module is divided by
the nodes of its blocks, and what is left out is empty. So every token lies within the lines of a
block (`Document.exists_block_of_token`).
-/

namespace BslLint

/-! ### Divisions -/

namespace TokenRange.Tiled

variable {a b c : Nat} {r : TokenRange} {ss ss' : List TokenRange}

theorem singleton (h : r.first ≤ r.stop) : r.Tiled [r] := ⟨rfl, h, rfl⟩

theorem append (h : Tiled ⟨a, b⟩ ss) (h' : Tiled ⟨b, c⟩ ss') : Tiled ⟨a, c⟩ (ss ++ ss') := by
  induction ss generalizing a with
  | nil =>
    obtain rfl : a = b := h
    exact h'
  | cons s ss ih =>
    obtain ⟨hfirst, hle, hothers⟩ := h
    exact ⟨hfirst, hle, ih hothers⟩

/-- Empty ranges may be left out. -/
theorem filter_isEmpty (h : r.Tiled ss) : r.Tiled (ss.filter (!·.isEmpty)) := by
  induction ss generalizing r with
  | nil => exact h
  | cons s ss ih =>
    obtain ⟨hfirst, hle, hothers⟩ := h
    cases hempty : s.isEmpty with
    | true =>
      have hs : s.stop ≤ s.first := of_decide_eq_true hempty
      have heq : s.stop = r.first := (Nat.le_antisymm hs hle).trans hfirst
      rw [heq] at hothers
      rw [List.filter_cons_of_neg (by rw [hempty]; decide)]
      exact ih hothers
    | false =>
      rw [List.filter_cons_of_pos (by rw [hempty]; rfl)]
      exact ⟨hfirst, hle, ih hothers⟩

/-- Every place of a divided range is in one of its pieces. -/
theorem exists_of_le_of_lt (h : r.Tiled ss) {i : Nat} (hfirst : r.first ≤ i) (hstop : i < r.stop) :
    ∃ s ∈ ss, s.first ≤ i ∧ i < s.stop := by
  induction ss generalizing r with
  | nil => exact absurd (Nat.lt_of_le_of_lt hfirst hstop) (Nat.lt_irrefl _ <| h ▸ ·)
  | cons s ss ih =>
    obtain ⟨hs, -, hothers⟩ := h
    obtain hlt | hle := Nat.lt_or_ge i s.stop
    · exact ⟨s, List.mem_cons_self, hs ▸ hfirst, hlt⟩
    · obtain ⟨s', hs', hbounds⟩ := ih hothers hle hstop
      exact ⟨s', List.mem_cons_of_mem _ hs', hbounds⟩

end TokenRange.Tiled

namespace Block

variable {d : Document} {n : Node}

/-! ### The block of a node -/

theorem ofNode?_of_ne_nil (h : n.StandsIn d) (hne : n.tree.tokens ≠ []) :
    ofNode? d n = some ⟨n, (n.tree.tokens.head hne).start.line,
      (n.tree.tokens.getLast hne).stop.line⟩ := by
  rw [ofNode?, Document.span?, Document.rangeSpan?, Document.ends?_eq h hne]
  rfl

theorem exists_ofNode? (h : n.StandsIn d) (hne : n.tree.tokens ≠ []) :
    ∃ b, ofNode? d n = some b ∧ b.node = n := ⟨_, ofNode?_of_ne_nil h hne, rfl⟩

theorem isEmpty_range : n.range.isEmpty = true ↔ n.tree.tokens = [] := by
  rw [TokenRange.isEmpty, decide_eq_true_iff, ← List.length_eq_zero_iff, Tree.length_tokens]
  show n.first + n.tree.width ≤ n.first ↔ _
  omega

theorem ofNode?_of_nil (hnil : n.tree.tokens = []) : ofNode? d n = none := by
  rw [ofNode?, Document.span?, Document.rangeSpan?, Document.ends?, isEmpty_range.2 hnil]
  rfl

theorem node_of_ofNode? {b : Block} (h : ofNode? d n = some b) : b.node = n := by
  obtain ⟨s, -, rfl⟩ := Option.map_eq_some_iff.1 h
  rfl

/-- The ranges of blocks are those of their nodes but for empty ones. -/
theorem map_range_filterMap {ns : List Node} (h : ∀ n ∈ ns, n.StandsIn d) :
    ((ns.filterMap (ofNode? d)).map (·.node.range)) = (ns.map Node.range).filter (!·.isEmpty) := by
  induction ns with
  | nil => rfl
  | cons n ns ih =>
    obtain ⟨hn, hns⟩ := List.forall_mem_cons.1 h
    by_cases hnil : n.tree.tokens = []
    · rw [List.filterMap_cons_none (ofNode?_of_nil hnil), List.map_cons,
        List.filter_cons_of_neg (by rw [isEmpty_range.2 hnil]; decide), ih hns]
    · obtain ⟨b, hb, rfl⟩ := exists_ofNode? hn hnil
      rw [List.filterMap_cons_some hb, List.map_cons, List.map_cons,
        List.filter_cons_of_pos (by simpa using mt isEmpty_range.1 hnil), ih hns]

/-! ### The nodes of blocks -/

/-- The nodes of blocks are parts of a module, or directly below one. -/
theorem mem_of_mem_nodesOfPart {part : Node} (h : n ∈ nodesOfPart part) :
    n = part ∨ n ∈ part.children := by
  unfold nodesOfPart at h
  split at h
  · exact .inl (List.mem_singleton.1 h)
  · exact .inr (List.mem_of_mem_filter h)
  · exact .inr (Node.mem_children_of_childOfKind? (Option.mem_toList.1 h))
  · exact nomatch h

theorem mem_nodes_of_mem_nodesOfPart {part : Node} (hpart : part ∈ d.root.children)
    (h : n ∈ nodesOfPart part) : n ∈ d.nodes := by
  have hmem := Node.mem_nodes_of_mem_children (Node.root_mem_nodes hpart) hpart
  obtain rfl | hchild := mem_of_mem_nodesOfPart h
  · exact hmem
  · exact Node.mem_nodes_of_mem_children hmem hchild

/-- A block is one of a node of its document. -/
theorem node_mem_nodes {b : Block} (h : b ∈ d.blocks) : b.node ∈ d.nodes := by
  obtain ⟨n, hn, hb⟩ := List.mem_filterMap.1 h
  obtain ⟨part, hpart, hn⟩ := List.mem_flatMap.1 hn
  rw [node_of_ofNode? hb]
  exact mem_nodes_of_mem_nodesOfPart hpart hn

/-- A part is divided by the nodes of its blocks. -/
theorem tiled_nodesOfPart {part : Node} (h : Grammar.IsPart part.tree) :
    part.range.Tiled ((nodesOfPart part).map Node.range) := by
  obtain ⟨id, first, tree⟩ := part
  have hle : ∀ n : Node, n.range.first ≤ n.range.stop := fun n ↦ Nat.le_add_right _ _
  cases h with
  | moduleVars cs => exact .singleton (hle _)
  | @subs cs hcs =>
    have hall : nodesOfPart ⟨id, first, .node .subs cs⟩ =
        Node.children ⟨id, first, .node .subs cs⟩ :=
      List.filter_eq_self.2 fun c hc ↦ decide_eq_true (hcs _ (Node.tree_mem_of_childOf hc))
    rw [hall]
    exact Node.tiled_range_children nofun
  | code cs => exact Node.tiled_range_children (n := ⟨id, first, _⟩) nofun

/-- A row of parts is divided by the nodes of the blocks. -/
theorem tiled_flatMap_nodesOfPart (id first : Nat) {cs : List Tree}
    (h : ∀ t ∈ cs, Grammar.IsPart t) : TokenRange.Tiled ⟨first, first + Tree.widthAll cs⟩
      (((Node.place id first cs).flatMap nodesOfPart).map Node.range) := by
  induction cs generalizing id first with
  | nil => exact (Nat.add_zero first).symm
  | cons c cs ih =>
    obtain ⟨hc, hcs⟩ := List.forall_mem_cons.1 h
    have hothers := ih (id + c.size) (first + c.width) hcs
    rw [Nat.add_assoc] at hothers
    rw [Node.place, List.flatMap_cons, List.map_append]
    exact (@tiled_nodesOfPart ⟨id, first, c⟩ hc).append hothers

end Block

namespace Document

variable {d : Document}

/-- **The blocks of a text divide its tokens.** -/
theorem tiled_blocks (text : String) : TokenRange.Tiled ⟨0, (ofText text).tokens.size⟩
    ((ofText text).blocks.map (·.node.range)) := by
  obtain ⟨d, hd⟩ : ∃ d, d = ofText text := ⟨_, rfl⟩
  obtain ⟨cs, htrees, hcs⟩ := Grammar.exists_parts_file (Scan.ofText (Text.withoutMark text)).tokens
  replace htrees : d.trees = [.node .file cs] := hd ▸ htrees
  rw [← hd]
  have hstands : ∀ n ∈ d.root.children.flatMap Block.nodesOfPart, n.StandsIn d := by
    intro n hn
    obtain ⟨part, hpart, hn⟩ := List.mem_flatMap.1 hn
    exact Node.standsIn_of_mem_nodes (Block.mem_nodes_of_mem_nodesOfPart hpart hn)
  have hsize : d.tokens.size = Tree.widthAll cs := by
    rw [← Array.length_toList, d.toList_tokens, htrees, Tree.length_tokensAll]
    rfl
  rw [blocks, Block.map_range_filterMap hstands, hsize, root, htrees]
  have hall := Block.tiled_flatMap_nodesOfPart 1 0 hcs
  rw [Nat.zero_add] at hall
  exact hall.filter_isEmpty

/-- A block has tokens, and reaches from the first of them to the last. -/
theorem exists_tokens_of_block {b : Block} (h : b ∈ d.blocks) :
    ∃ us vs, d.tokens.toList = us ++ (b.node.tree.tokens ++ vs) ∧ us.length = b.node.range.first ∧
      ∃ hne, b.firstLine = (b.node.tree.tokens.head hne).start.line ∧
        b.lastLine = (b.node.tree.tokens.getLast hne).stop.line := by
  have hstands := Node.standsIn_of_mem_nodes (Block.node_mem_nodes h)
  obtain ⟨us, vs, hsplit, hlength⟩ := hstands
  refine ⟨us, vs, hsplit, hlength, ?_⟩
  obtain ⟨n, -, hb⟩ := List.mem_filterMap.1 h
  obtain rfl := Block.node_of_ofNode? hb
  have hne : b.node.tree.tokens ≠ [] := by
    intro hnil
    rw [Block.ofNode?_of_nil hnil] at hb
    exact nomatch hb
  rw [Block.ofNode?_of_ne_nil ⟨us, vs, hsplit, hlength⟩ hne] at hb
  have heq := (Option.some.inj hb).symm
  exact ⟨hne, congrArg Block.firstLine heq, congrArg Block.lastLine heq⟩

/-- **Every token lies within the lines of a block.** -/
theorem exists_block_of_token {text : String} {t : Token} (ht : t ∈ (ofText text).tokens.toList) :
    ∃ b ∈ (ofText text).blocks, b.firstLine ≤ t.start.line ∧ t.stop.line ≤ b.lastLine := by
  have hordered : Token.Ordered (ofText text).tokens.toList :=
    (regular_ofText text).tokens_eq ▸ Scan.ordered_ofText _
  obtain ⟨i, hi⟩ := List.getElem?_of_mem ht
  obtain ⟨hlt, -⟩ := List.getElem?_eq_some_iff.1 hi
  obtain ⟨r, hr, hfirst, hstop⟩ := (tiled_blocks text).exists_of_le_of_lt (Nat.zero_le i) hlt
  obtain ⟨b, hb, rfl⟩ := List.mem_map.1 hr
  refine ⟨b, hb, ?_⟩
  obtain ⟨us, vs, hsplit, hlength, hne, hfirstLine, hlastLine⟩ := exists_tokens_of_block hb
  -- The piece of the division that has the place of the token is where the node's tokens stand.
  have hmem : t ∈ b.node.tree.tokens := by
    have hwidth : b.node.range.stop = us.length + b.node.tree.tokens.length := by
      rw [hlength, Tree.length_tokens]
      rfl
    rw [hsplit, List.getElem?_append_right (by omega), List.getElem?_append_left (by omega)] at hi
    exact List.mem_of_getElem? hi
  rw [hsplit] at hordered
  have hinside := hordered.right.left
  rw [hfirstLine, hlastLine]
  exact ⟨Position.line_le_of_key_le (hinside.head_start_le hne hmem),
    Position.line_le_of_key_le (hinside.le_getLast_stop hne hmem)⟩

theorem isEmpty_range_of_block {b : Block} (h : b ∈ d.blocks) : b.node.range.isEmpty = false := by
  obtain ⟨-, -, -, -, hne, -⟩ := exists_tokens_of_block h
  rw [Bool.eq_false_iff]
  exact mt Block.isEmpty_range.1 hne

/-- There is a block if there is a token. -/
theorem blocks_eq_nil_iff {text : String} :
    (ofText text).blocks = [] ↔ (Scan.ofText (Text.withoutMark text)).tokens = [] := by
  rw [← (regular_ofText text).tokens_eq]
  constructor
  · intro hnil
    have htiled := tiled_blocks text
    rw [hnil] at htiled
    exact List.length_eq_zero_iff.1 (Eq.symm htiled)
  · intro hnil
    refine List.eq_nil_iff_forall_not_mem.2 fun b hb ↦ ?_
    obtain ⟨us, vs, hsplit, -, hne, -⟩ := exists_tokens_of_block hb
    rw [hnil] at hsplit
    exact hne (List.append_eq_nil_iff.1 (List.append_eq_nil_iff.1 hsplit.symm).2).1

end Document

end BslLint
