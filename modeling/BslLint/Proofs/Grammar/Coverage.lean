import BslLint.Grammar.Parse
import BslLint.Proofs.Grammar.Progress
import BslLint.Proofs.Grammar.Rules
import BslLint.Proofs.Syntax.Linking

/-!
# The whole text becomes one tree

No step of a parser loses a token, but a parser may stop early. The parser of files does not
(`rest_file`): each of its rounds makes **progress**, because a statement and a procedure read a
token wherever one is left, on every way through them, the ways of recovery included. So the tokens
of a document are those of its text, and with the numbering of nodes follows what a document's tree
looks like as a whole, `Document.Regular`.

The calls of the parser make the same trees (`Step.makes`), so the tree that is linked by these
calls stands for the document, and is regular as well: `SyntaxTree.isTreeOf_ofText`.

The tree of a file, of faulty text as well, is a row of parts of three forms: the variables of the
module, runs of procedures, which hold nothing else, and runs of code, each with one block of code
in it (`Grammar.exists_parts_file`).
-/

namespace BslLint

namespace Grammar

open BslLint.Parser

variable {inner : Parser} {ts : List Token}

/-! ### Procedures and runs read something -/

/-- A procedure has a word of its own. -/
theorem progress_sub (h : ts ≠ []) : Progress sub ts := by
  have hdeclaration : ∀ k, Progress (subDeclaration k) ts := fun k ↦
    ((((progress_seq_one compilerDirectives h).seq _).seq _).seq _).node k
  have hbody : ∀ k kind word,
      Progress (Parser.node k (subDeclaration kind ++ subCodeBlock ++ expect word)) ts :=
    fun k kind _ ↦ (((hdeclaration kind).seq _).seq _).node k
  exact (progress_ifAhead (hbody _ _ _) (hbody _ _ _)).node _

/-- Where no procedure is declared, the code between procedures takes a statement. -/
theorem progress_fileCodeBlock (h : ts ≠ []) (hsub : atSub ts = false) :
    Progress fileCodeBlock ts := by
  have hahead : (!ts.isEmpty && !atSub ts) = true := by
    rw [hsub, Bool.not_false, Bool.and_true, Bool.not_eq_true', List.isEmpty_eq_false_iff]
    exact h
  exact ((Progress.many hahead (progress_statement h)).node _).node _

/-- A run has a procedure in it or a statement. -/
theorem progress_run (h : ts ≠ []) : Progress run ts := by
  by_cases hsub : atSub ts = true
  · rw [Progress, run, ifAhead_pos hsub]
    exact ((progress_sub h).many hsub).node _
  · rw [Bool.not_eq_true] at hsub
    rw [Progress, run, ifAhead_neg hsub]
    exact progress_fileCodeBlock h hsub

theorem rest_eq_nil_of_nil (s : Step []) : s.rest = [] :=
  List.length_eq_zero_iff.1 (Nat.le_zero.1 s.length_rest_le)

/-- The runs go on until nothing is left. -/
theorem rest_runsFrom (coded : Bool) (ts : List Token) : (runsFrom coded ts).rest = [] := by
  fun_induction runsFrom coded ts with
  | case1 ts hts => exact List.isEmpty_iff.1 hts
  | case2 coded ts hts hcoded =>
    obtain rfl := List.isEmpty_iff.1 hts
    exact rest_eq_nil_of_nil _
  | case3 coded ts hts s hs ih => exact ih
  | case4 coded ts hts s hs =>
    exact absurd (progress_run fun hnil ↦ hts (List.isEmpty_iff.2 hnil)) hs

/-- **A file is read to its end.** -/
theorem rest_file (ts : List Token) : (file ts).rest = [] := by
  rw [file, rest_node, rest_seq]
  exact rest_runsFrom false _

/-- So all tokens of a file are in its tree. -/
theorem tokensAll_trees_file (ts : List Token) : Tree.tokensAll (file ts).trees = ts := by
  have h := (file ts).tokens_append_rest
  rwa [rest_file, List.append_nil] at h

/-! ### Kinds of node -/

/-- What holds of tokens and of admitted nodes, whatever is below them, holds everywhere. -/
theorem invariant_everywhere {admitted : NodeKind → Prop} {Q : Tree → Prop}
    (hleaf : ∀ t, Q (.leaf t)) (hnode : ∀ {k cs}, admitted k → Q (.node k cs)) :
    Invariant admitted fun cs _ ↦ Tree.Everywhere Q cs where
  nothing := .nil
  leaf t := .leaf (hleaf t)
  fault _ := .nil
  append := .append
  node hk hcs := .node (hnode hk) hcs

/-- Nodes of the kind of tokens are leaves, and there is no file inside of anything. -/
def OrdinaryInside (t : Tree) : Prop := (t.kind = .token → ∃ x, t = .leaf x) ∧ t.kind ≠ .file

theorem invariant_ordinaryInside :
    Invariant (fun k ↦ k ≠ .token ∧ k ≠ .file) fun cs _ ↦ Tree.Everywhere OrdinaryInside cs :=
  invariant_everywhere (fun t ↦ ⟨fun _ ↦ ⟨t, rfl⟩, nofun⟩) fun hk ↦ ⟨fun h ↦ absurd h hk.1, hk.2⟩

/-- A file holds ordinary nodes alone. -/
theorem exists_trees_file (ts : List Token) :
    ∃ cs, (file ts).trees = [.node .file cs] ∧ Tree.Everywhere OrdinaryInside cs := by
  have hord : ∀ k, isOrdinary k = true → k ≠ .token ∧ k ≠ .file := by
    intro k hk
    constructor <;> rintro rfl <;> exact nomatch hk
  have hinvariant := invariant_ordinaryInside
  have hclosed := hinvariant.fullyClosed_of_admitted hord ⟨nofun, nofun⟩ ⟨nofun, nofun⟩
  have hexpr := closed_expression hclosed.toClosed (hinvariant.keeps_node ⟨nofun, nofun⟩)
  have hsub : Keeps (fun cs _ ↦ Tree.Everywhere OrdinaryInside cs) sub :=
    hinvariant.keeps_node ⟨nofun, nofun⟩ (closed_procedure_or_function hclosed hexpr)
  exact ⟨_, rfl,
    keeps_moduleVars_runs hinvariant hclosed hexpr (hclosed.far_when byKind_atSub hsub) ts⟩

end Grammar

/-! ### The tree of a document -/

/-- What the tree of a document made of some tokens looks like. -/
structure Document.Regular (d : Document) (tokens : List Token) : Prop where
  /-- The tokens of the document are the given ones. -/
  tokens_eq : d.tokens.toList = tokens
  /-- There is one tree. -/
  single : ∃ t, d.trees = [t]
  /-- Its topmost node stands for a file and comes first. -/
  root_file : d.root.kind = .file ∧ d.root.id = 0
  /-- No other node stands for a file. -/
  file_root : ∀ n ∈ d.nodes, n.kind = .file → n = d.root
  /-- The listing in preorder gives the numbers from zero on, one for each node. -/
  ids : d.root.preorder.map Node.id = List.range d.size
  /-- It lists the nodes of the document. -/
  nodes_eq : d.root.preorder = d.nodes
  /-- The topmost node is below none. -/
  root_top : ∀ p ∈ d.nodes, ¬d.root.ChildOf p
  /-- Every other node is below exactly one. -/
  parent : ∀ n ∈ d.nodes, n ≠ d.root → ∃! p, p ∈ d.nodes ∧ n.ChildOf p
  /-- Every node is reached from the topmost one. -/
  reachable : ∀ n ∈ d.nodes, Relation.ReflTransGen (flip Node.ChildOf) d.root n
  /-- The leaves of the listing hold the tokens in their order. -/
  leaves : (d.root.preorder.filter (·.kind = .token)).map Node.tree = tokens.map Tree.leaf
  /-- Each covers the one place of its token. -/
  leaf_ranges : (d.root.preorder.filter (·.kind = .token)).map Node.range =
    (List.range tokens.length).map fun i ↦ ⟨i, i + 1⟩
  /-- All other nodes cover what their children cover, without a gap. -/
  tiled : ∀ n ∈ d.nodes, n.kind ≠ .token → n.range.Tiled (n.children.map Node.range)

/-- A document with one tree that holds no file inside is regular. -/
theorem Document.regular_of_trees {d : Document} {cs : List Tree}
    (htrees : d.trees = [.node .file cs])
    (hcs : Tree.Everywhere Grammar.OrdinaryInside cs) : d.Regular (Tree.tokensAll d.trees) := by
  have hroot : d.root = ⟨0, 0, .node .file cs⟩ := by rw [root, htrees]; rfl
  have hnodes : d.nodes = Node.preorderAll (Node.place 0 0 d.trees) := rfl
  have hlisting : d.root.preorder = d.nodes := by
    rw [hnodes, htrees, hroot]
    rfl
  have hcons : d.nodes = d.root :: Node.preorderAll d.root.children := by
    rw [← hlisting, Node.preorder, Node.preorderAll_cons, List.append_nil]
  have hnodup : d.nodes.Nodup := Node.nodup_preorderAll_place 0 0 d.trees
  -- All nodes but the root are children, and each occurs among the children just once.
  have hbelow : (d.nodes.flatMap Node.children).Perm (Node.preorderAll d.root.children) := by
    have hperm := Node.perm_preorderAll [d.root]
    rw [show Node.preorderAll [d.root] = d.nodes from hlisting] at hperm
    exact (hperm.trans (by rw [hcons])).cons_inv
  have hmem : ∀ n ∈ d.nodes, n ≠ d.root → n ∈ d.nodes.flatMap Node.children := by
    intro n hn hne
    rw [hcons] at hn
    exact hbelow.symm.subset ((List.mem_cons.1 hn).resolve_left hne)
  have hleaf : Tree.Everywhere (fun t ↦ t.kind = .token → ∃ x, t = .leaf x) d.trees := by
    rw [htrees]
    have hfile : NodeKind.file ≠ .token := by decide
    exact .node (fun hkind ↦ absurd hkind hfile) (hcs.mono fun _ ht ↦ ht.1)
  -- Links and numbers hold of every document; only the kinds need what is supposed of the trees.
  exact {
    tokens_eq := d.toList_tokens
    single := ⟨_, htrees⟩
    root_file := by
      rw [hroot]
      exact ⟨rfl, rfl⟩
    file_root := by
      intro n hn hkind
      rw [hcons, hroot] at hn
      rcases List.mem_cons.1 hn with rfl | hn
      · exact hroot.symm
      · obtain ⟨m, hm, hnm⟩ := Node.within_of_mem_preorderAll hn
        exact absurd hkind (hcs _ (Node.tree_mem_of_childOf hm) _ hnm).2
    ids := by rw [hlisting, hnodes, Node.map_id_preorderAll_place, size, List.range_eq_range']
    nodes_eq := hlisting
    root_top := by
      intro p hp hchild
      have hin : d.root ∈ Node.preorderAll d.root.children :=
        hbelow.subset (List.mem_flatMap.2 ⟨p, hp, hchild⟩)
      rw [hcons] at hnodup
      exact (List.nodup_cons.1 hnodup).1 hin
    parent := by
      intro n hn hne
      obtain ⟨p, hp, hchild⟩ := List.mem_flatMap.1 (hmem n hn hne)
      exact ⟨p, ⟨hp, hchild⟩, fun q hq ↦ Node.eq_of_childOf hq.1 hp hq.2 hchild⟩
    reachable := by
      intro n hn
      rw [← hlisting] at hn
      obtain ⟨m, hm, hreach⟩ := Node.exists_reflTransGen_of_mem_preorderAll hn
      rwa [List.mem_singleton.1 hm] at hreach
    leaves := by rw [hlisting, hnodes, Node.map_tree_filter_token 0 0 hleaf]
    leaf_ranges := by
      rw [hlisting, hnodes, Node.map_range_filter_token 0 0 hleaf, Tree.length_tokensAll,
        List.range_eq_range']
    tiled := by
      intro n hn hkind
      exact Node.tiled_range_children fun x hx ↦ hkind (by rw [Node.kind, hx]; rfl) }

/-- A text has no errors if nothing in it is unknown and it is read without a fault. -/
theorem Document.errors_eq_nil_iff {text : String} : (Document.ofText text).errors = [] ↔
    (Scan.ofText (Text.withoutMark text)).unknown = [] ∧
      (Grammar.file (Scan.ofText (Text.withoutMark text)).tokens).faults = [] := by
  rw [Document.ofText, ← List.length_eq_zero_iff, List.length_mergeSort, List.length_eq_zero_iff,
    List.append_eq_nil_iff, List.map_eq_nil_iff, List.map_eq_nil_iff]

/-- **Every text becomes a regular tree of its tokens**, whether it is well formed or not. -/
theorem Document.regular_ofText (text : String) :
    (Document.ofText text).Regular (Scan.ofText (Text.withoutMark text)).tokens := by
  obtain ⟨cs, htrees, hcs⟩ := Grammar.exists_trees_file (Scan.ofText (Text.withoutMark text)).tokens
  have h := Document.regular_of_trees (d := Document.ofText text) htrees hcs
  rwa [show Tree.tokensAll (ofText text).trees = _ from Grammar.tokensAll_trees_file _] at h

/-! ### The stored tree of a text -/

namespace TreeBuilder.Makes

variable {ε δ : Type}

/-- Errors alone make no trees. -/
theorem map_error : ∀ es : List ε, Makes (es.map .error) [] es
  | [] => .nothing
  | e :: es => (Makes.error e).append (map_error es)

/-- With other errors the calls make the same trees. -/
theorem map {xs : List (Call ε)} {cs : List Tree} {es : List ε} (h : Makes xs cs es) (g : ε → δ) :
    Makes (xs.map (.map id g)) cs (es.map g) := by
  induction h with
  | nothing => exact .nothing
  | token t => exact .token t
  | error e => exact .error (g e)
  | append _ _ hx hy =>
    rw [List.map_append, List.map_append]
    exact hx.append hy
  | node k _ h =>
    rw [List.map_cons, List.map_append]
    exact h.node k

end TreeBuilder.Makes

/-- Text, trees and errors are all that a document is. -/
theorem Document.eq_of_trees_eq {d e : Document} (hsource : d.source = e.source)
    (htrees : d.trees = e.trees) (herrors : d.errors = e.errors) : d = e := by
  obtain ⟨source, trees, errors, tokens, htokens⟩ := d
  obtain ⟨source', trees', errors', tokens', htokens'⟩ := e
  subst hsource htrees herrors
  obtain rfl : tokens = tokens' := Array.toList_inj.1 (htokens.trans htokens'.symm)
  rfl

namespace SyntaxTree

/-- A builder of trees makes the document of a text out of the calls of the parser. -/
theorem build_calls (text : String) :
    (Builder.after (calls (Scan.ofText (Text.withoutMark text)))).build (Text.withoutMark text) =
      Document.ofText text := by
  let scan := Scan.ofText (Text.withoutMark text)
  -- The parser tells of its trees by its calls, and the unknown text is noted before.
  have hmakes : TreeBuilder.Makes (calls scan) (Grammar.file scan.tokens).trees
      (scan.unknown.map (·.toError) ++
        (Grammar.file scan.tokens).faults.map (·.toError (lastStop scan.tokens))) := by
    have herrors := TreeBuilder.Makes.map_error (scan.unknown.map UnknownText.toError)
    rw [List.map_map] at herrors
    exact herrors.append ((Grammar.file scan.tokens).makes.map _)
  obtain ⟨cs, htrees, -⟩ := Grammar.exists_trees_file scan.tokens
  have hafter : Builder.after (calls scan) = _ := Builder.foldl_of_makes hmakes {}
  rw [hafter]
  refine Document.eq_of_trees_eq rfl ?_ ?_
  · show _ = (Grammar.file scan.tokens).trees
    rw [htrees]
    rfl
  · show List.mergeSort (List.reverse (List.reverse _ ++ [])) _ = _
    rw [List.append_nil, List.reverse_reverse]
    rfl

/-- **The stored tree of a text stands for the document of the text.** -/
theorem represents_ofText (text : String) : (ofText text).Represents (Document.ofText text) := by
  rw [← build_calls]
  exact TreeBuilder.represents_build ..

/-- What the stored tree of a text with some tokens is like. -/
structure IsTreeOf (t : SyntaxTree) (tokens : List Token) : Prop where
  /-- The tokens stored are the given ones. -/
  tokens_eq : t.tokens.toList = tokens
  /-- The root has the number zero and stands for a file. -/
  root_file : t.root = 0 ∧ 0 < t.arena.size ∧ (t.arena.cell t.root).kind = .file
  /-- No other node stands for a file. -/
  file_root : ∀ i < t.arena.size, (t.arena.cell i).kind = .file → i = t.root
  /-- From the first child of a node the siblings lead through its children and to an end. -/
  children : ∀ p < t.arena.size,
    Enumerates t.arena.nextChild (t.arena.cell p).firstChild (t.arena.children p)
  /-- The root is not a child. -/
  root_top : ∀ p < t.arena.size, t.root ∉ t.arena.children p
  /-- Every other node is a child of exactly one. -/
  parent : ∀ i < t.arena.size, i ≠ t.root → ∃! p, p < t.arena.size ∧ i ∈ t.arena.children p
  /-- Every node is reached from the root by going from nodes to their children. -/
  reachable : ∀ i < t.arena.size,
    Relation.ReflTransGen (fun p c ↦ c ∈ t.arena.children p) t.root i
  /-- The listing from the root on comes to an end and gives all numbers from zero on. -/
  preorder : Enumerates t.arena.nextInPreorder [t.root] (t.arena.preorder t.root) ∧
    t.arena.preorder t.root = List.range t.arena.size
  /-- The leaves of the listing cover one token each, one after the other. -/
  leaves : ((t.arena.preorder t.root).filter fun i ↦ (t.arena.cell i).kind = .token).map
      (fun i ↦ (t.arena.cell i).range) = (List.range tokens.length).map fun i ↦ ⟨i, i + 1⟩
  /-- All other nodes cover what their children cover, without a gap. -/
  tiled : ∀ i < t.arena.size, (t.arena.cell i).kind ≠ .token →
    (t.arena.cell i).range.Tiled ((t.arena.children i).map fun c ↦ (t.arena.cell c).range)

/-- What stands for a regular document is a tree of its tokens. -/
theorem Represents.isTreeOf {t : SyntaxTree} {d : Document} {tokens : List Token}
    (h : t.Represents d) (hd : d.Regular tokens) : t.IsTreeOf tokens := by
  have hnode : ∀ i < t.arena.size, ∃ n ∈ d.nodes, n.id = i := fun i ↦ (h.mem_nodes_iff i).2
  have hroot : d.root ∈ d.nodes := hd.nodes_eq ▸ d.root.mem_preorder_self
  have hlisted : ∀ n ∈ d.root.preorder, n ∈ d.nodes := fun n hn ↦ hd.nodes_eq ▸ hn
  constructor
  case tokens_eq => rw [h.tokens, hd.tokens_eq]
  case root_file =>
    rw [h.root, h.kind_eq hroot]
    exact ⟨hd.root_file.2, Nat.lt_of_le_of_lt (Nat.zero_le _) (h.id_lt hroot), hd.root_file.1⟩
  case file_root =>
    intro i hi hkind
    obtain ⟨n, hn, rfl⟩ := hnode i hi
    rw [h.kind_eq hn] at hkind
    rw [h.root, hd.file_root n hn hkind]
  case children =>
    intro p hp
    obtain ⟨n, hn, rfl⟩ := hnode p hp
    rw [h.children_eq hn]
    exact h.enumerates_children hn
  case root_top =>
    intro p hp hmem
    obtain ⟨n, hn, rfl⟩ := hnode p hp
    rw [h.root] at hmem
    exact hd.root_top n hn ((h.mem_children_iff hn hroot).1 hmem)
  case parent =>
    intro i hi hne
    obtain ⟨n, hn, rfl⟩ := hnode i hi
    have hroot' : n ≠ d.root := fun heq ↦ hne (by rw [heq, h.root])
    obtain ⟨p, ⟨hp, hchild⟩, -⟩ := hd.parent n hn hroot'
    have hmem := (h.mem_children_iff hp hn).2 hchild
    exact ⟨p.id, ⟨h.id_lt hp, hmem⟩, fun q hq ↦ h.eq_of_mem_children hq.1 (h.id_lt hp) hq.2 hmem⟩
  case reachable =>
    intro i hi
    obtain ⟨n, hn, rfl⟩ := hnode i hi
    rw [h.root]
    -- The way goes through nodes of the document, because it begins at one.
    have hway : ∀ {m}, Relation.ReflTransGen (flip Node.ChildOf) d.root m →
        m ∈ d.nodes ∧ Relation.ReflTransGen (fun p c ↦ c ∈ t.arena.children p) d.root.id m.id := by
      intro m hm
      induction hm with
      | refl => exact ⟨hroot, .refl⟩
      | tail _ hchild ih =>
        have hm := Node.mem_nodes_of_mem_children ih.1 hchild
        exact ⟨hm, ih.2.tail ((h.mem_children_iff ih.1 hm).2 hchild)⟩
    exact (hway (hd.reachable n hn)).2
  case preorder =>
    refine ⟨h.enumerates_preorder_self (h.root ▸ h.id_lt hroot), ?_⟩
    rw [h.root, h.preorder_eq hroot, hd.ids, h.size_eq]
  case leaves =>
    rw [h.root, h.preorder_eq hroot, List.filter_map, List.map_map, ← hd.leaf_ranges]
    have hfilter : d.root.preorder.filter ((fun i ↦ decide ((t.arena.cell i).kind = .token)) ∘
        Node.id) = d.root.preorder.filter (·.kind = .token) :=
      List.filter_congr fun n hn ↦ by rw [Function.comp_apply, h.kind_eq (hlisted n hn)]
    rw [hfilter]
    exact List.map_congr_left fun n hn ↦ h.range_eq (hlisted n (List.mem_of_mem_filter hn))
  case tiled =>
    intro i hi hkind
    obtain ⟨n, hn, rfl⟩ := hnode i hi
    rw [h.kind_eq hn] at hkind
    rw [h.range_eq hn, h.children_eq hn, List.map_map]
    have hranges : n.children.map ((fun c ↦ (t.arena.cell c).range) ∘ Node.id) =
        n.children.map Node.range :=
      List.map_congr_left fun c hc ↦ h.range_eq (Node.mem_nodes_of_mem_children hn hc)
    rw [hranges]
    exact hd.tiled n hn hkind

/-- **Every text is stored as a tree of its tokens**, whether it is well formed or not. -/
theorem isTreeOf_ofText (text : String) :
    (ofText text).IsTreeOf (Scan.ofText (Text.withoutMark text)).tokens :=
  (represents_ofText text).isTreeOf (Document.regular_ofText text)

end SyntaxTree

/-! ### What a module consists of -/

namespace Grammar

open BslLint.Parser

/-- A part of a module. -/
inductive IsPart : Tree → Prop where
  | moduleVars (cs : List Tree) : IsPart (.node .moduleVars cs)
  | subs {cs : List Tree} (h : ∀ t ∈ cs, t.kind = .sub) : IsPart (.node .subs cs)
  | code (cs : List Tree) : IsPart (.node .fileCodeBlock [.node .codeBlock cs])

/-- In a run of procedures there is nothing else. -/
theorem kind_of_mem_many_sub (ts : List Token) :
    ∀ t ∈ (many atSub sub ts).trees, t.kind = .sub := by
  have hsub (ts : List Token) : ∀ t ∈ (sub ts).trees, t.kind = .sub := fun t ht ↦
    List.mem_singleton.1 ht ▸ rfl
  refine many_induction (motive := fun _ s ↦ ∀ t ∈ s.trees, t.kind = .sub) (fun _ _ ↦ nofun)
    (fun ts _ _ ↦ hsub ts) (fun ts _ _ ih t ht ↦ ?_) ts
  exact (List.mem_append.1 ht).elim (hsub ts t) (ih t)

theorem isPart_of_mem_fileCodeBlock (ts : List Token) :
    ∀ t ∈ (fileCodeBlock ts).trees, IsPart t := fun _ ht ↦ List.mem_singleton.1 ht ▸ .code _

/-- A run is one part, -/
theorem isPart_of_mem_run (ts : List Token) : ∀ t ∈ (run ts).trees, IsPart t := by
  intro t ht
  cases hat : atSub ts with
  | true =>
    rw [run, ifAhead_pos hat] at ht
    exact List.mem_singleton.1 ht ▸ .subs (kind_of_mem_many_sub ts)
  | false =>
    rw [run, ifAhead_neg hat] at ht
    exact isPart_of_mem_fileCodeBlock ts t ht

/-- and runs are several. -/
theorem isPart_of_mem_runsFrom (coded : Bool) (ts : List Token) :
    ∀ t ∈ (runsFrom coded ts).trees, IsPart t := by
  fun_induction runsFrom coded ts with
  | case1 => rintro t ⟨⟩
  | case2 => exact isPart_of_mem_fileCodeBlock _
  | case3 coded ts hts s hs ih =>
    exact fun t ht ↦ (List.mem_append.1 ht).elim (isPart_of_mem_run ts t) (ih t)
  | case4 coded ts hts s hs => exact isPart_of_mem_run ts

/-- **A file is a row of parts.** -/
theorem exists_parts_file (ts : List Token) :
    ∃ cs, (file ts).trees = [.node .file cs] ∧ ∀ t ∈ cs, IsPart t := by
  refine ⟨_, rfl, fun t ht ↦ ?_⟩
  obtain ht | ht := List.mem_append.1 ht
  · cases hvar : atModuleVar ts with
    | true =>
      rw [when, ifAhead_pos hvar] at ht
      exact List.mem_singleton.1 ht ▸ .moduleVars _
    | false =>
      rw [when, ifAhead_neg hvar] at ht
      cases ht
  · exact isPart_of_mem_runsFrom false _ t ht

end Grammar

end BslLint
