import BslLint.Proofs.Expression.Terminals
import BslLint.Proofs.Grammar.Transport
import BslLint.Proofs.Grammar.Width
import BslLint.Proofs.Token.Order

/-!
# Texts with the same tokens

Two texts may have the same tokens and differ in what stands between them, in line ends, comments
and white space. Then there is a function from tokens to tokens that turns those of one text into
those of the other (`exists_relabelling`), and the parser does not see the difference: trees, errors
and listings are those of one text with the tokens of the other (`Document.Reformats`,
`Document.exists_reformats`).

Places differ, but their order does not. What is told a place in a document stands where a token
begins, or behind the last token, and such places correspond to each other (`Corresponds`).
-/

namespace BslLint

variable {f : Token → Token} {ts us : List Token}

/-! ### From the tokens of one text to those of the other -/

/-- Different tokens can be sent to any tokens of the same kinds and texts. -/
theorem exists_relabelling (hts : ts.Nodup) (h : ts.map Token.sign = us.map Token.sign) :
    ∃ f : Token → Token, (∀ t, (f t).sign = t.sign) ∧ ts.map f = us := by
  induction ts generalizing us with
  | nil => exact ⟨id, fun _ ↦ rfl, (List.map_eq_nil_iff.1 h.symm).symm⟩
  | cons t ts ih =>
    obtain ⟨u, us, rfl, hu, hus⟩ := List.map_eq_cons_iff.1 h.symm
    obtain ⟨hnot, hnodup⟩ := List.nodup_cons.1 hts
    obtain ⟨f, hf, rfl⟩ := ih hnodup hus.symm
    refine ⟨fun x ↦ if x = t then u else f x, fun x ↦ ?_, ?_⟩
    · dsimp only
      split
      next hx => rw [hx, hu]
      · exact hf x
    · rw [List.map_cons, if_pos rfl]
      refine congrArg (u :: ·) (List.map_congr_left fun x hx ↦ if_neg ?_)
      rintro rfl
      exact hnot hx

/-! ### Places that correspond -/

/-- Two places in texts with the same tokens: where a token begins, or behind all tokens. -/
def Corresponds (f : Token → Token) (ts : List Token) (p q : Position) : Prop :=
  (∃ t ∈ ts, p = t.start ∧ q = (f t).start) ∨ p = lastStop ts ∧ q = lastStop (ts.map f)

section

variable (hts : Token.Ordered ts) (hmap : Token.Ordered (ts.map f))

include hts hmap

/-- Two tokens begin in the same order in both texts. -/
theorem Token.Ordered.starts_cases {t u : Token} (ht : t ∈ ts) (hu : u ∈ ts) :
    (t.start.key < u.start.key ∧ (f t).start.key < (f u).start.key) ∨ t = u ∨
      (u.start.key < t.start.key ∧ (f u).start.key < (f t).start.key) := by
  have hpairs := List.pairwise_iff_getElem.1 (hts.starts.and (List.pairwise_map.1 hmap.starts))
  obtain ⟨i, hi, rfl⟩ := List.getElem_of_mem ht
  obtain ⟨j, hj, rfl⟩ := List.getElem_of_mem hu
  obtain hij | rfl | hji := lt_trichotomy i j
  · exact .inl (hpairs i j hi hj hij)
  · exact .inr (.inl rfl)
  · exact .inr (.inr (hpairs j i hj hi hji))

/-- **Places that correspond are in the same order.** -/
theorem Corresponds.cases {p q p' q' : Position} (h : Corresponds f ts p q)
    (h' : Corresponds f ts p' q') :
    (p.key < p'.key ∧ q.key < q'.key) ∨ (p = p' ∧ q = q') ∨ (p'.key < p.key ∧ q'.key < q.key) := by
  have hlast {t : Token} (ht : t ∈ ts) : t.start.key < (lastStop ts).key ∧
      (f t).start.key < (lastStop (ts.map f)).key :=
    ⟨hts.start_lt_lastStop ht, hmap.start_lt_lastStop (List.mem_map_of_mem ht)⟩
  obtain ⟨t, ht, rfl, rfl⟩ | ⟨rfl, rfl⟩ := h
  · obtain ⟨u, hu, rfl, rfl⟩ | ⟨rfl, rfl⟩ := h'
    · obtain hlt | rfl | hgt := hts.starts_cases hmap ht hu
      · exact .inl hlt
      · exact .inr (.inl ⟨rfl, rfl⟩)
      · exact .inr (.inr hgt)
    · exact .inl (hlast ht)
  · obtain ⟨u, hu, rfl, rfl⟩ | ⟨rfl, rfl⟩ := h'
    · exact .inr (.inr (hlast hu))
    · exact .inr (.inl ⟨rfl, rfl⟩)

/-- They are compared alike, -/
theorem Corresponds.le_eq {p q p' q' : Position} (h : Corresponds f ts p q)
    (h' : Corresponds f ts p' q') : p.le p' = q.le q' := by
  obtain ⟨hp, hq⟩ | ⟨rfl, rfl⟩ | ⟨hp, hq⟩ := h.cases hts hmap h'
  · rw [(Position.le_of_key_lt hp).1, (Position.le_of_key_lt hq).1]
  · rw [Position.le_self, Position.le_self]
  · rw [(Position.le_of_key_lt hp).2, (Position.le_of_key_lt hq).2]

/-- with or without the offset. -/
theorem Corresponds.key_le_iff {p q p' q' : Position} (h : Corresponds f ts p q)
    (h' : Corresponds f ts p' q') : p.key ≤ p'.key ↔ q.key ≤ q'.key := by
  obtain ⟨hp, hq⟩ | ⟨rfl, rfl⟩ | ⟨hp, hq⟩ := h.cases hts hmap h'
  · exact iff_of_true hp.le hq.le
  · exact iff_of_true (le_refl _) (le_refl _)
  · exact iff_of_false hp.not_ge hq.not_ge

end

/-! ### One document in two layouts -/

/-- `d'` is the document `d` laid out in another way: the token `t` of the one is the token `f t` of
the other. -/
structure Document.Reformats (f : Token → Token) (d d' : Document) : Prop where
  /-- Kinds and texts are the same. -/
  sign : ∀ t, (f t).sign = t.sign
  /-- The tree is the same but for the tokens. -/
  trees : ∃ t, d.trees = [t] ∧ d'.trees = [t.relabel f]
  /-- Either document is cut out of its text without a remainder. -/
  cut : d.IsCut ∧ d'.IsCut
  /-- The tokens stand one behind the other, in either document. -/
  ordered : Token.Ordered d.tokens.toList ∧ Token.Ordered (d.tokens.toList.map f)
  /-- Names of types are tokens, and expressions without tokens are missing. -/
  filled : Tree.Everywhere Grammar.Filled d.trees
  /-- The errors say the same and are noted at places that correspond. -/
  errors : List.Forall₂ (fun e e' ↦ e.message = e'.message ∧
    Corresponds f d.tokens.toList e.span.start e'.span.start) d.errors d'.errors

namespace Document.Reformats

variable {d d' : Document} (h : d.Reformats f d')

include h

theorem kind (t : Token) : (f t).kind = t.kind := congrArg Prod.fst (h.sign t)

theorem text (t : Token) : (f t).text = t.text := congrArg Prod.snd (h.sign t)

/-- The listing is the same but for the tokens. -/
theorem nodes_eq : d'.nodes = d.nodes.map (Node.relabel f) := by
  obtain ⟨t, htrees, htrees'⟩ := h.trees
  rw [nodes, nodes, htrees, htrees', ← Node.preorderAll_map_relabel, ← Node.place_relabelAll]
  rfl

theorem preorder_root : d.root.preorder = d.nodes ∧ d'.root.preorder = d'.nodes := by
  obtain ⟨t, htrees, htrees'⟩ := h.trees
  rw [nodes, nodes, root, root, htrees, htrees']
  exact ⟨rfl, rfl⟩

theorem standsIn {n : Node} (hn : n ∈ d.nodes) :
    n.StandsIn d ∧ (n.relabel f).StandsIn d' := by
  refine ⟨Node.standsIn_of_mem_nodes hn, Node.standsIn_of_mem_nodes ?_⟩
  rw [h.nodes_eq]
  exact List.mem_map_of_mem hn

theorem filled_of_mem {n : Node} (hn : n ∈ d.nodes) : Grammar.Filled n.tree := by
  obtain ⟨t, ht, hwithin⟩ := Node.within_of_mem_nodes hn
  exact h.filled t ht _ hwithin

/-- The tokens of a range have the same texts. -/
theorem tokenTexts_eq : d'.tokenTexts = d.tokenTexts := by
  obtain ⟨t, htrees, htrees'⟩ := h.trees
  have htokens : d'.tokens.toList = d.tokens.toList.map f := by
    rw [toList_tokens, toList_tokens, htrees, htrees', ← Tree.tokensAll_relabelAll]
    rfl
  funext r
  rw [tokenTexts, tokenTexts, Array.toList_map, Array.toList_map, Array.toList_extract,
    Array.toList_extract, htokens, List.extract_eq_take_drop, List.extract_eq_take_drop,
    ← List.map_drop, ← List.map_take, List.map_map]
  exact List.map_congr_left fun t _ ↦ h.text t

/-- A node of one token has the text of that token. -/
theorem text_eq {n : Node} (hn : n ∈ d.nodes) {t : Token} (ht : n.tree.tokens = [t]) :
    d.text n = t.text ∧ d'.text (n.relabel f) = t.text := by
  have htext {d : Document} {n : Node} {t : Token} (hcut : d.IsCut) (hstands : n.StandsIn d)
      (ht : n.tree.tokens = [t]) : d.text n = t.text := by
    have hrange := rangeText_eq hstands
    obtain ⟨us, vs, hsplit, -⟩ := hstands
    obtain ⟨-, -, -, hspan⟩ := hcut.exists_lexeme ⟨us, vs, by rw [hsplit, ht, List.append_assoc]⟩
    rw [Document.text, hrange, ht, hspan]
  obtain ⟨hstands, hstands'⟩ := h.standsIn hn
  refine ⟨htext h.cut.1 hstands ht, (htext (t := f t) h.cut.2 hstands' ?_).trans (h.text t)⟩
  rw [Node.relabel, Tree.tokens_relabel, ht]
  rfl

/-- A node with a token begins at places that correspond. -/
theorem corresponds_start {n : Node} (hn : n ∈ d.nodes) (hwidth : 0 < n.tree.width) :
    ∃ s s', d.span? n = some s ∧ d'.span? (n.relabel f) = some s' ∧
      Corresponds f d.tokens.toList s.start s'.start := by
  obtain ⟨hstands, hstands'⟩ := h.standsIn hn
  have hne : n.tree.tokens ≠ [] := by
    rw [← List.length_pos_iff, Tree.length_tokens]
    exact hwidth
  have htokens : (n.relabel f).tree.tokens = n.tree.tokens.map f := Tree.tokens_relabel f n.tree
  have hne' : (n.relabel f).tree.tokens ≠ [] := by
    rw [htokens]
    exact fun hnil ↦ hne (List.map_eq_nil_iff.1 hnil)
  refine ⟨_, _, congrArg (Option.map _) (ends?_eq hstands hne),
    congrArg (Option.map _) (ends?_eq hstands' hne'), .inl ⟨n.tree.tokens.head hne, ?_, rfl, ?_⟩⟩
  · obtain ⟨us, vs, hsplit, -⟩ := hstands
    rw [hsplit]
    exact List.mem_append_right _ (List.mem_append_left _ (List.head_mem hne))
  · simp only [htokens, List.head_map]

end Document.Reformats

/-! ### Errors -/

/-- A fault is about a token that was given. Otherwise the parser would have looked at more than
kinds: tokens that were not given could be changed without changing those that were. -/
theorem Grammar.mem_of_found {e : Fault} {t : Token} (he : e ∈ (file ts).faults)
    (ht : e.found = some t) : t ∈ ts := by
  by_contra hnot
  -- The change leaves all tokens that were given, and no others.
  obtain ⟨g, hg⟩ : ∃ g : Token → Token, g = fun u ↦
    if u ∈ ts then u else { u with text := u.text ++ "!" } := ⟨_, rfl⟩
  have hkind : ∀ u, (g u).kind = u.kind := by
    intro u
    rw [hg]
    dsimp only
    split <;> rfl
  have hsame : ts.map g = ts := by
    refine (List.map_congr_left fun u hu ↦ ?_).trans (List.map_id ts)
    rw [hg]
    exact if_pos hu
  have hfaults : (file (ts.map g)).faults = (file ts).faults.map (Fault.relabel g) :=
    congrArg Step.faults (file_map hkind ts)
  rw [hsame] at hfaults
  replace hfaults := ((List.map_id _).trans hfaults).symm
  have hfixed : g t = t := by
    have hfound := congrArg Fault.found (List.map_inj_left.1 hfaults e he)
    rw [Fault.relabel, ht] at hfound
    exact Option.some.inj (hfound.trans ht)
  have htext : t.text ++ "!" = t.text := by
    rw [hg] at hfixed
    dsimp only at hfixed
    rw [if_neg hnot] at hfixed
    exact congrArg Token.text hfixed
  simpa using congrArg String.length htext

/-- What is noted of a fault says the same, at a place that corresponds. -/
theorem Fault.corresponds_toError (hsign : ∀ t, (f t).sign = t.sign) {e : Fault}
    (he : ∀ t, e.found = some t → t ∈ ts) :
    (e.toError (lastStop ts)).message = ((e.relabel f).toError (lastStop (ts.map f))).message ∧
      Corresponds f ts (e.toError (lastStop ts)).span.start
        ((e.relabel f).toError (lastStop (ts.map f))).span.start := by
  obtain ⟨wanted, found⟩ := e
  cases found with
  | none => exact ⟨rfl, .inr ⟨rfl, rfl⟩⟩
  | some t =>
    refine ⟨?_, .inl ⟨t, he t rfl, rfl, rfl⟩⟩
    have hkind : (f t).kind = t.kind := congrArg Prod.fst (hsign t)
    simp only [toError, relabel, Option.map_some, hkind]

namespace Document

variable {text text' : String}

/-- Where nothing is unknown, the errors are what the parser has met. -/
theorem errors_ofText (h : (Scan.ofText (Text.withoutMark text)).unknown = []) :
    (ofText text).errors = ((Grammar.file (Scan.ofText (Text.withoutMark text)).tokens).faults.map
      (·.toError (lastStop (Scan.ofText (Text.withoutMark text)).tokens))).mergeSort
        fun e e' ↦ e.span.start.le e'.span.start := by
  show List.mergeSort ((Scan.ofText (Text.withoutMark text)).unknown.map _ ++ _) _ = _
  rw [h, List.map_nil, List.nil_append]

/-- **Texts with the same tokens and nothing unknown are one document in two layouts.** -/
theorem exists_reformats (hunknown : (Scan.ofText (Text.withoutMark text)).unknown = [])
    (hunknown' : (Scan.ofText (Text.withoutMark text')).unknown = [])
    (hsigns : (Scan.ofText (Text.withoutMark text)).tokens.map Token.sign =
      (Scan.ofText (Text.withoutMark text')).tokens.map Token.sign) :
    ∃ f, (ofText text).Reformats f (ofText text') := by
  obtain ⟨ts, hts⟩ : ∃ ts, (Scan.ofText (Text.withoutMark text)).tokens = ts := ⟨_, rfl⟩
  obtain ⟨us, hus⟩ : ∃ us, (Scan.ofText (Text.withoutMark text')).tokens = us := ⟨_, rfl⟩
  have hord : Token.Ordered ts := hts ▸ Scan.ordered_ofText _
  have hord' : Token.Ordered us := hus ▸ Scan.ordered_ofText _
  rw [hts, hus] at hsigns
  -- Equal signs give a renaming of the tokens, and the parser looks at kinds only.
  obtain ⟨f, hf, rfl⟩ := exists_relabelling hord.nodup hsigns
  have hfile := Grammar.file_map (fun t ↦ congrArg Prod.fst (hf t)) ts
  have htokens : (ofText text).tokens.toList = ts := (regular_ofText text).tokens_eq.trans hts
  have htokens' : (ofText text').tokens.toList = ts.map f :=
    (regular_ofText text').tokens_eq.trans hus
  have htrees : (ofText text).trees = (Grammar.file ts).trees := by
    show (Grammar.file (Scan.ofText (Text.withoutMark text)).tokens).trees = _
    rw [hts]
  have htrees' : (ofText text').trees = Tree.relabelAll f (Grammar.file ts).trees := by
    show (Grammar.file (Scan.ofText (Text.withoutMark text')).tokens).trees = _
    rw [hus, hfile]
    rfl
  have herrors : (ofText text).errors = ((Grammar.file ts).faults.map
      (·.toError (lastStop ts))).mergeSort fun e e' ↦ e.span.start.le e'.span.start := by
    rw [errors_ofText hunknown, hts]
  have herrors' : (ofText text').errors = ((Grammar.file ts).faults.map fun e ↦
      (e.relabel f).toError (lastStop (ts.map f))).mergeSort
        fun e e' ↦ e.span.start.le e'.span.start := by
    rw [errors_ofText hunknown', hus, hfile]
    exact congrArg (List.mergeSort · _) List.map_map
  refine ⟨f, hf, ?_,
    ⟨⟨htokens.trans hts.symm, hunknown⟩, htokens'.trans hus.symm, hunknown'⟩, ?_, ?_,
    ?_⟩
  · obtain ⟨cs, hcs, -⟩ := Grammar.exists_trees_file ts
    rw [htrees, htrees', hcs]
    exact ⟨_, rfl, rfl⟩
  · rw [htokens]
    exact ⟨hord, hord'⟩
  · rw [htrees]
    exact Grammar.everywhere_filled ts
  · -- Errors are sorted by place, and both layouts have the places in one order.
    rw [htokens, herrors, herrors']
    refine forall₂_mergeSort ?_ fun h h' ↦ h.2.le_eq hord hord' h'.2
    rw [List.forall₂_map_left_iff, List.forall₂_map_right_iff, List.forall₂_same]
    exact fun e he ↦ e.corresponds_toError hf fun t ht ↦ Grammar.mem_of_found he ht

/-! ### Texts of given tokens -/

/-- **A text with the tokens of a file that is read without a fault** has no errors, and its tree is
that of the file. -/
theorem isomorphic_of_reads {w : List Token} {t : Tree}
    (hunknown : (Scan.ofText (Text.withoutMark text)).unknown = [])
    (hsigns : (Scan.ofText (Text.withoutMark text)).tokens.map Token.sign = w.map Token.sign)
    (h : Grammar.file.Reads w [t] []) :
    (ofText text).errors = [] ∧ ∃ t', (ofText text).trees = [t'] ∧ t'.Isomorphic t := by
  obtain ⟨ts, hts⟩ : ∃ ts, (Scan.ofText (Text.withoutMark text)).tokens = ts := ⟨_, rfl⟩
  have hord : Token.Ordered ts := hts ▸ Scan.ordered_ofText _
  rw [hts] at hsigns
  obtain ⟨f, hf, rfl⟩ := exists_relabelling hord.nodup hsigns
  obtain ⟨cs, hcs, -⟩ := Grammar.exists_trees_file ts
  obtain ⟨htrees, hfaults, -⟩ := h
  rw [Grammar.file_map fun t ↦ congrArg Prod.fst (hf t)] at htrees hfaults
  refine ⟨errors_eq_nil_iff.2 ⟨hunknown, ?_⟩, .node .file cs, ?_, ?_⟩
  · rw [hts]
    exact List.map_eq_nil_iff.1 hfaults
  · rw [← hcs, ← hts]
    rfl
  · replace htrees : Tree.relabelAll f (Grammar.file ts).trees = [t] := htrees
    rw [hcs] at htrees
    rw [← List.head_eq_of_cons_eq htrees]
    exact Tree.isomorphic_relabel hf _

end Document

end BslLint
