import BslLint.Proofs.Syntax.Preorder
import BslLint.Proofs.Token.Places
import BslLint.Syntax.Document

/-!
# Nodes stand where their tokens are

A node knows its tokens as a tree and as a range. In a document the two agree: the range picks from
the list of all tokens those of the tree (`Node.StandsIn`). All that a document says about a range,
its text and the texts of its tokens, is therefore told by the tokens of the tree (`rangeText_eq`,
`tokenTexts_eq`), and where a node stands matters no more.
-/

namespace List.IsInfix

/-! ### Parts of what stands in a list -/

variable {α : Type*} {a : α} {u v w : List α}

theorem left (h : u ++ v <:+: w) : u <:+: w := (prefix_append u v).isInfix.trans h

theorem right (h : u ++ v <:+: w) : v <:+: w := (suffix_append u v).isInfix.trans h

theorem head (h : a :: v <:+: w) : [a] <:+: w := left (u := [a]) h

theorem tail (h : a :: v <:+: w) : v <:+: w := (suffix_cons a v).isInfix.trans h

end List.IsInfix

namespace BslLint

namespace Node

/-- The tokens of the node are those at its place in the document. -/
def StandsIn (n : Node) (d : Document) : Prop :=
  ∃ us vs, d.tokens.toList = us ++ (n.tree.tokens ++ vs) ∧ us.length = n.first

variable {d : Document}

/-- Trees that are placed where their tokens are stand there. -/
theorem standsIn_of_mem_place {id first : Nat} {cs : List Tree} {us vs : List Token}
    (h : d.tokens.toList = us ++ (Tree.tokensAll cs ++ vs)) (hfirst : us.length = first) :
    ∀ n ∈ place id first cs, n.StandsIn d := by
  induction cs generalizing id first us with
  | nil => exact nofun
  | cons c cs ih =>
    rw [Tree.tokensAll, List.append_assoc] at h
    have hlength : (us ++ c.tokens).length = first + c.width := by
      rw [List.length_append, hfirst, Tree.length_tokens]
    refine List.forall_mem_cons.2 ⟨⟨us, _, h, hfirst⟩, ih ?_ hlength⟩
    rw [List.append_assoc]
    exact h

/-- The tokens of a node stand in a row. -/
theorem StandsIn.isInfix {n : Node} (h : n.StandsIn d) : n.tree.tokens <:+: d.tokens.toList := by
  obtain ⟨us, vs, htokens, -⟩ := h
  exact ⟨us, vs, by rw [htokens, List.append_assoc]⟩

/-- So do those of its children, each behind those of the child before. -/
theorem StandsIn.child {n c : Node} (h : n.StandsIn d) (hc : c ∈ n.children) : c.StandsIn d := by
  obtain ⟨us, vs, htokens, hfirst⟩ := h
  rcases htree : n.tree with t | ⟨k, cs⟩
  · rw [children, htree] at hc
    cases hc
  · rw [children, htree] at hc
    rw [htree] at htokens
    exact standsIn_of_mem_place htokens hfirst c hc

/-- **Every node of a document has its tokens at its place.** -/
theorem standsIn_of_mem_nodes {n : Node} (h : n ∈ d.nodes) : n.StandsIn d := by
  obtain ⟨top, htop, hreach⟩ := exists_reflTransGen_of_mem_preorderAll h
  have hstands : top.StandsIn d := by
    have htokens : d.tokens.toList = [] ++ (Tree.tokensAll d.trees ++ []) := by
      rw [List.nil_append, List.append_nil, d.toList_tokens]
    exact standsIn_of_mem_place htokens rfl top htop
  clear htop h
  induction hreach with
  | refl => exact hstands
  | tail _ hchild ih => exact ih.child hchild

end Node

namespace Document

variable (d : Document)

/-- The text of the source from the first of some tokens to the last. -/
def spanText (ts : List Token) : String :=
  match ts.head?, ts.getLast? with
  | some a, some b => String.Pos.Raw.extract d.source ⟨a.start.offset⟩ ⟨b.stop.offset⟩
  | _, _ => ""

variable {d}

/-- The tokens stand in the document at the places of the range. -/
def Spans (d : Document) (r : TokenRange) (w : List Token) : Prop :=
  ∃ us vs, d.tokens.toList = us ++ (w ++ vs) ∧ r = ⟨us.length, us.length + w.length⟩

/-- The range of a node is where its tokens are. -/
theorem spans_range {n : Node} (h : n.StandsIn d) : d.Spans n.range n.tree.tokens := by
  obtain ⟨us, vs, htokens, hfirst⟩ := h
  exact ⟨us, vs, htokens, by rw [Node.range, hfirst, Tree.length_tokens]⟩

namespace Spans

variable {r : TokenRange} {w : List Token}

theorem isInfix (h : d.Spans r w) : w <:+: d.tokens.toList := by
  obtain ⟨us, vs, htokens, -⟩ := h
  exact ⟨us, vs, by rw [htokens, List.append_assoc]⟩

/-- A range of some tokens is not empty. -/
theorem isEmpty_eq (h : d.Spans r w) (hne : w ≠ []) : r.isEmpty = false := by
  obtain ⟨us, vs, -, rfl⟩ := h
  have hpos := List.length_pos_iff.2 hne
  show decide (us.length + w.length ≤ us.length) = false
  rw [decide_eq_false_iff_not]
  omega

theorem ends?_eq (h : d.Spans r w) (hne : w ≠ []) :
    d.ends? r = some (w.head hne, w.getLast hne) := by
  have hempty := h.isEmpty_eq hne
  obtain ⟨us, vs, htokens, rfl⟩ := h
  have hpos := List.length_pos_iff.2 hne
  have hstart : d.tokens[us.length]? = some (w.head hne) := by
    rw [← Array.getElem?_toList, htokens, List.getElem?_append_right (Nat.le_refl _), Nat.sub_self,
      List.getElem?_append_left hpos, ← List.head?_eq_getElem?, List.head?_eq_some_head hne]
  have hstop : d.tokens[us.length + w.length - 1]? = some (w.getLast hne) := by
    rw [← Array.getElem?_toList, htokens, List.getElem?_append_right (by omega),
      List.getElem?_append_left (by omega), ← List.getLast?_eq_some_getLast hne,
      List.getLast?_eq_getElem?]
    congr 1
    omega
  rw [ends?, hempty, hstart, hstop]
  rfl

/-- The text of the range reaches from the first of the tokens to the last. -/
theorem rangeText_eq (h : d.Spans r w) : d.rangeText r = d.spanText w := by
  by_cases hne : w = []
  · obtain ⟨us, vs, -, rfl⟩ := h
    have hempty : (TokenRange.mk us.length (us.length + w.length)).isEmpty = true := by
      rw [TokenRange.isEmpty, hne]
      exact decide_eq_true (Nat.le_refl _)
    rw [rangeText, ends?, hempty, hne]
    rfl
  · rw [rangeText, h.ends?_eq hne, spanText, List.head?_eq_some_head hne,
      List.getLast?_eq_some_getLast hne]

/-- The texts of the range are those of the tokens. -/
theorem tokenTexts_eq (h : d.Spans r w) : d.tokenTexts r = w.map (·.text) := by
  obtain ⟨us, vs, htokens, rfl⟩ := h
  have hextract : (d.tokens.extract us.length (us.length + w.length)).toList = w := by
    rw [Array.toList_extract, htokens, List.extract_eq_take_drop, List.drop_left,
      Nat.add_sub_cancel_left, List.take_left]
  rw [tokenTexts, Array.toList_map, hextract]

/-- Where no token stands twice, the tokens stand at one place. -/
theorem range_eq (hd : d.tokens.toList.Nodup) (h : d.Spans r w) (hne : w ≠ [])
    (us vs : List Token) (htokens : d.tokens.toList = us ++ (w ++ vs)) :
    r = ⟨us.length, us.length + w.length⟩ := by
  obtain ⟨us', vs', htokens', rfl⟩ := h
  have hpos := List.length_pos_iff.2 hne
  have hget {us vs : List Token} (htokens : d.tokens.toList = us ++ (w ++ vs)) :
      d.tokens.toList[us.length]? = some (w.head hne) := by
    rw [htokens, List.getElem?_append_right (Nat.le_refl _), Nat.sub_self,
      List.getElem?_append_left hpos, ← List.head?_eq_getElem?, List.head?_eq_some_head hne]
  have hlt : us'.length < d.tokens.toList.length := by
    rw [htokens', List.length_append, List.length_append]
    omega
  rw [(List.getElem?_inj hlt hd).1 ((hget htokens').trans (hget htokens).symm)]

/-- The range that covers two others reaches from the first tokens to the last. -/
theorem cover {s : TokenRange} {u v g : List Token} (hd : d.tokens.toList.Nodup)
    (hr : d.Spans r u) (hs : d.Spans s v) (hu : u ≠ []) (hv : v ≠ [])
    (h : u ++ (g ++ v) <:+: d.tokens.toList) : d.Spans (r.cover s) (u ++ (g ++ v)) := by
  have hupos := List.length_pos_iff.2 hu
  have hvpos := List.length_pos_iff.2 hv
  have hrempty := hr.isEmpty_eq hu
  have hsempty := hs.isEmpty_eq hv
  obtain ⟨us, vs, htokens⟩ := h
  obtain rfl := hr.range_eq hd hu us (g ++ (v ++ vs)) (by simp [← htokens])
  obtain rfl := hs.range_eq hd hv (us ++ (u ++ g)) vs (by simp [← htokens])
  refine ⟨us, vs, by rw [← htokens, List.append_assoc], ?_⟩
  rw [TokenRange.cover, hrempty, hsempty]
  simp only [Bool.false_eq_true, if_false, TokenRange.mk.injEq, List.length_append]
  omega

end Spans

theorem ends?_eq {n : Node} (h : n.StandsIn d) (hne : n.tree.tokens ≠ []) :
    d.ends? n.range = some (n.tree.tokens.head hne, n.tree.tokens.getLast hne) :=
  (spans_range h).ends?_eq hne

theorem rangeText_eq {n : Node} (h : n.StandsIn d) :
    d.rangeText n.range = d.spanText n.tree.tokens :=
  (spans_range h).rangeText_eq

theorem tokenTexts_eq {n : Node} (h : n.StandsIn d) :
    d.tokenTexts n.range = n.tree.tokens.map (·.text) :=
  (spans_range h).tokenTexts_eq

/-- A text stands at a place of a document. -/
def Located (d : Document) (p : Position) (text : List Char) : Prop :=
  ∃ before after, d.source = String.ofList (before ++ (text ++ after)) ∧
    p = Position.start.advance before

theorem Located.left {p : Position} {s t : List Char} (h : d.Located p (s ++ t)) :
    d.Located p s := by
  obtain ⟨before, after, hsource, hp⟩ := h
  exact ⟨before, t ++ after, by rw [hsource, List.append_assoc], hp⟩

/-- Behind a text begins what stands behind it. -/
theorem Located.right {p : Position} {s t : List Char} (h : d.Located p (s ++ t)) :
    d.Located (p.advance s) t := by
  obtain ⟨before, after, hsource, rfl⟩ := h
  refine ⟨before ++ s, after, ?_, (Position.advance_append ..).symm⟩
  rw [hsource, List.append_assoc, List.append_assoc]

/-- The text from the first token of framed lexemes to the last is the text of the lexemes. -/
theorem spanText_of_framed {p : Position} {ls : List Lexeme} (h : d.Located p (textOf ls))
    (hls : Framed ls) : d.spanText (Scan.place p ls).tokens = String.ofList (textOf ls) := by
  obtain ⟨before, after, hsource, rfl⟩ := h
  obtain ⟨a, ha, hstart⟩ := hls.exists_head (Position.start.advance before)
  obtain ⟨b, hb, hstop⟩ := hls.exists_getLast (Position.start.advance before)
  rw [spanText, ha, hb]
  show String.Pos.Raw.extract d.source ⟨a.start.offset⟩ ⟨b.stop.offset⟩ = _
  rw [hsource, hstart, hstop, extract_advance]

/-- The tokens come from the lexemes, whose text stands somewhere in the document. -/
def Stretch (d : Document) (w : List Token) (ls : List Lexeme) : Prop :=
  ∃ p, d.Located p (textOf ls) ∧ (Scan.place p ls).tokens = w

namespace Stretch

variable {w : List Token} {ls ms : List Lexeme}

/-- A stretch can be cut where its lexemes can. -/
theorem append (h : d.Stretch w (ls ++ ms)) :
    ∃ u v, w = u ++ v ∧ d.Stretch u ls ∧ d.Stretch v ms := by
  obtain ⟨p, hlocated, rfl⟩ := h
  rw [textOf_append] at hlocated
  exact ⟨_, _, Scan.tokens_place_append p ls ms, ⟨p, hlocated.left, rfl⟩, ⟨_, hlocated.right, rfl⟩⟩

/-- A stretch that begins with a token has this token in front. -/
theorem token {k : Token.Kind} {text : List Char} (h : d.Stretch w (⟨.token k, text⟩ :: ls)) :
    ∃ t v, w = t :: v ∧ t.kind = k ∧ d.Stretch [t] [⟨.token k, text⟩] ∧ d.Stretch v ls := by
  replace h : d.Stretch w ([⟨.token k, text⟩] ++ ls) := h
  obtain ⟨u, v, rfl, hu, hv⟩ := h.append
  obtain ⟨p, hlocated, rfl⟩ := hu
  exact ⟨_, v, rfl, rfl, ⟨p, hlocated, rfl⟩, hv⟩

/-- Trivia have no token. -/
theorem trivia {text : List Char} (h : d.Stretch w (⟨.trivia, text⟩ :: ls)) : d.Stretch w ls := by
  replace h : d.Stretch w ([⟨.trivia, text⟩] ++ ls) := h
  obtain ⟨u, v, rfl, ⟨p, -, rfl⟩, hv⟩ := h.append
  exact hv

theorem eq_nil (h : d.Stretch w []) : w = [] := by
  obtain ⟨p, -, rfl⟩ := h
  rfl

/-- The tokens of a stretch are of the kinds and texts of its lexemes. -/
theorem map_sign (h : d.Stretch w ls) : w.map Token.sign = ls.filterMap Lexeme.sign? := by
  obtain ⟨p, -, rfl⟩ := h
  exact Scan.map_sign_tokens_place p ls

/-- The text from the first to the last of them is that of the lexemes. -/
theorem spanText_eq (h : d.Stretch w ls) (hls : Framed ls) :
    d.spanText w = String.ofList (textOf ls) := by
  obtain ⟨p, hlocated, rfl⟩ := h
  exact spanText_of_framed hlocated hls

end Stretch

end Document

end BslLint
