import BslLint.Expression.OfNode
import BslLint.Proofs.Syntax.Standing

/-!
# What the expression of a node is made of

`Node.expr?` looks at the nodes below a node, at their kinds and at nothing else. So what it answers
can be told of trees: `Yields d f t P` says that the function `f` answers at every node with the
tree `t` that stands in the document `d`, and that `P` holds of the answer. Each rule of the grammar
has one lemma, which puts the answer for its tree together from those for the trees inside.

The property `P` is left open. It may say what an answer is, or what all answers have in common, and
both are needed.
-/

namespace BslLint

namespace Tree

@[simp]
theorem kind_leaf (t : Token) : (leaf t).kind = .token := rfl

@[simp]
theorem kind_node (k : NodeKind) (cs : List Tree) : (node k cs).kind = k := rfl

end Tree

namespace Node

/-! ### Children by their trees -/

theorem map_tree_place (id first : Nat) (cs : List Tree) : (place id first cs).map tree = cs := by
  induction cs generalizing id first with
  | nil => rfl
  | cons c cs ih => rw [place, List.map_cons, ih]

theorem map_tree_children (n : Node) : n.children.map tree = n.tree.children :=
  map_tree_place _ _ _

/-- What is found among the trees of the children is found among the children. -/
theorem exists_find? {n : Node} {t : Tree} (p : Tree → Bool)
    (h : n.tree.children.find? p = some t) :
    ∃ c ∈ n.children, n.children.find? (fun c ↦ p c.tree) = some c ∧ c.tree = t := by
  rw [← map_tree_children, List.find?_map] at h
  obtain ⟨c, hc, rfl⟩ := Option.map_eq_some_iff.1 h
  exact ⟨c, List.mem_of_find?_eq_some hc, hc, rfl⟩

theorem find?_eq_none {n : Node} (p : Tree → Bool) (h : n.tree.children.find? p = none) :
    n.children.find? (fun c ↦ p c.tree) = none := by
  rw [← map_tree_children, List.find?_map] at h
  exact Option.map_eq_none_iff.1 h

/-- The child at a place has the tree at this place. -/
theorem exists_getElem? {n : Node} {t : Tree} {i : Nat} (h : n.tree.children[i]? = some t) :
    ∃ c ∈ n.children, n.children[i]? = some c ∧ c.tree = t := by
  rw [← map_tree_children, List.getElem?_map] at h
  obtain ⟨c, hc, rfl⟩ := Option.map_eq_some_iff.1 h
  exact ⟨c, List.mem_of_getElem? hc, hc, rfl⟩

/-- The first child has the first tree. -/
theorem exists_head? {n : Node} {t : Tree} (h : n.tree.children.head? = some t) :
    ∃ c ∈ n.children, n.children.head? = some c ∧ c.tree = t := by
  rw [List.head?_eq_getElem?] at h ⊢
  exact exists_getElem? h

/-- The children of a kind have the trees of this kind. -/
theorem map_tree_childrenOfKind (n : Node) (k : NodeKind) :
    (n.childrenOfKind k).map tree = n.tree.children.filter (·.kind = k) := by
  rw [← map_tree_children, List.filter_map]
  rfl

theorem mem_children_of_mem_childrenOfKind {n c : Node} {k : NodeKind}
    (h : c ∈ n.childrenOfKind k) : c ∈ n.children :=
  List.mem_of_mem_filter h

/-! ### Nodes of a document and the depth of what is below them -/

/-- The node stands in the document, and the depth is enough for all that is below it. -/
structure Fits (n : Node) (d : Document) (depth : Nat) : Prop where
  /-- The node stands in the document. -/
  standsIn : n.StandsIn d
  /-- The node is not larger than the depth. -/
  size_le : n.size ≤ depth

/-- The depth that is enough for a node is enough for its children. -/
theorem Fits.child {n c : Node} {d : Document} {depth : Nat} (h : n.Fits d depth)
    (hc : c ∈ n.children) : c.Fits d depth :=
  ⟨h.standsIn.child hc, Nat.le_trans (Nat.le_of_lt (size_lt_of_mem_children hc)) h.size_le⟩

/-- A child can do with one level less. -/
theorem Fits.child_pred {n c : Node} {d : Document} {depth : Nat} (h : n.Fits d (depth + 1))
    (hc : c ∈ n.children) : c.Fits d depth :=
  ⟨h.standsIn.child hc,
    Nat.le_of_lt_succ (Nat.lt_of_lt_of_le (size_lt_of_mem_children hc) h.size_le)⟩

end Node

/-- What the origin of a part tells of its tree. -/
structure Origin.Tells (o : Origin) (d : Document) (t : Tree) : Prop where
  /-- The text of its range is the text of the tree. -/
  rangeText_eq : d.rangeText o.range = d.spanText t.tokens
  /-- The tokens of its range are those of the tree. -/
  tokenTexts_eq : d.tokenTexts o.range = t.tokens.map (·.text)
  /-- It has the kind of the token, if the tree is one. -/
  token?_eq : o.token? = t.token?.map (·.kind)

/-- The origin of a part is the node that it was made from, so it tells of the tree of this node. -/
theorem Node.StandsIn.tells {n : Node} {d : Document} (h : n.StandsIn d) :
    (Origin.ofNode n).Tells d n.tree :=
  ⟨Document.rangeText_eq h, Document.tokenTexts_eq h, rfl⟩

namespace Expr

/-! ### Answers -/

/-- At every node with the tree the function answers, and the answer has the property. -/
def Yields {β : Type} (d : Document) (f : (Node → Option Expr) → Node → Option β) (t : Tree)
    (P : β → Prop) : Prop :=
  ∀ n depth, n.Fits d depth → n.tree = t → ∃ b, f (nested? depth) n = some b ∧ P b

/-- At all nodes with the trees the function answers, and the answers have the property. -/
def YieldsAll {β : Type} (d : Document) (f : (Node → Option Expr) → Node → Option β)
    (ts : List Tree) (P : List β → Prop) : Prop :=
  ∀ (ns : List Node) depth, (∀ n ∈ ns, n.Fits d depth) → ns.map Node.tree = ts →
    ∃ bs, ns.mapM (f (nested? depth)) = some bs ∧ P bs

section

variable {β : Type} {d : Document} {f : (Node → Option Expr) → Node → Option β}

/-- What follows from a property of the answers may be said of them as well. -/
theorem Yields.mono {t : Tree} {P Q : β → Prop} (h : Yields d f t P) (hPQ : ∀ b, P b → Q b) :
    Yields d f t Q := by
  intro n depth hn ht
  obtain ⟨b, hb, hP⟩ := h n depth hn ht
  exact ⟨b, hb, hPQ b hP⟩

theorem YieldsAll.nil {P : List β → Prop} (hP : P []) : YieldsAll d f [] P := by
  intro ns depth _ hns
  obtain rfl := List.map_eq_nil_iff.1 hns
  exact ⟨[], rfl, hP⟩

/-- Answers at one node and at those behind it are answers at all of them. -/
theorem YieldsAll.cons {t : Tree} {ts : List Tree} {P : β → Prop} {Q R : List β → Prop}
    (ht : Yields d f t P) (hts : YieldsAll d f ts Q) (hR : ∀ b bs, P b → Q bs → R (b :: bs)) :
    YieldsAll d f (t :: ts) R := by
  intro ns depth hfits hns
  obtain ⟨n, ns, rfl, hn, hrest⟩ := List.map_eq_cons_iff.1 hns
  obtain ⟨hfit, hfits⟩ := List.forall_mem_cons.1 hfits
  obtain ⟨b, hb, hP⟩ := ht n depth hfit hn
  obtain ⟨bs, hbs, hQ⟩ := hts ns depth hfits hrest
  refine ⟨b :: bs, ?_, hR b bs hP hQ⟩
  rw [List.mapM_cons, hb, hbs]
  rfl

theorem YieldsAll.mono {ts : List Tree} {P Q : List β → Prop} (h : YieldsAll d f ts P)
    (hPQ : ∀ bs, P bs → Q bs) : YieldsAll d f ts Q := by
  intro ns depth hfits hns
  obtain ⟨bs, hbs, hP⟩ := h ns depth hfits hns
  exact ⟨bs, hbs, hPQ bs hP⟩

end

/-! ### Arguments and calls -/

variable {d : Document}

/-- A range without tokens has no text. -/
theorem rangeText_emptyAt (i : Nat) : d.rangeText (.emptyAt i) = "" := by
  have hempty : (TokenRange.emptyAt i).isEmpty = true := decide_eq_true (Nat.le_refl _)
  rw [Document.rangeText, Document.ends?, hempty]
  rfl

theorem tokenTexts_emptyAt (i : Nat) : d.tokenTexts (.emptyAt i) = [] := by
  rw [Document.tokenTexts, Array.toList_map, Array.toList_extract, TokenRange.emptyAt,
    List.extract_eq_take_drop, Nat.sub_self, List.take_zero, List.map_nil]

/-- An argument that is left out comes to an empty terminal. -/
theorem yields_argument_none {P : Expr → Prop}
    (hP : ∀ o : Origin, d.rangeText o.range = "" → d.tokenTexts o.range = [] →
      P (.terminal .empty o)) : Yields d argument? (.node .callParam []) P := by
  intro n depth _ ht
  refine ⟨_, ?_, hP ⟨n.id, .emptyAt n.first, none⟩ (rangeText_emptyAt _) (tokenTexts_emptyAt _)⟩
  have hnone : n.childOfKind? .expression = none :=
    Node.find?_eq_none (fun t ↦ t.kind = .expression) (by rw [ht]; rfl)
  rw [argument?, hnone]

/-- An argument comes to what its expression comes to. -/
theorem yields_argument_some {t : Tree} {P : Expr → Prop} (ht : t.kind = .expression)
    (h : Yields d id t P) : Yields d argument? (.node .callParam [t]) P := by
  intro n depth hn htree
  obtain ⟨c, hc, hfind, rfl⟩ := n.exists_find? (fun t ↦ t.kind = .expression) (t := t)
    (by rw [htree]; simp [Tree.children, ht])
  obtain ⟨x, hx, hP⟩ := h c depth (hn.child hc) rfl
  refine ⟨x, ?_, hP⟩
  rw [argument?, show n.childOfKind? .expression = some c from hfind]
  exact hx

theorem filter_params {t : Tree} (ht : t.kind = .callParam) (ts : List Tree) :
    (t :: ts).filter (·.kind = .callParam) = t :: ts.filter (·.kind = .callParam) :=
  List.filter_cons_of_pos (decide_eq_true ht)

/-- The arguments of a call, given all that were read: one that was left out alone is none. -/
def trimmed : List Expr → List Expr
  | [x] => if x.isEmpty then [] else [x]
  | xs => xs

/-- The arguments of a call are those of the nodes between its parentheses. -/
theorem yields_arguments {l r : Token} {cs : List Tree} {P Q : List Expr → Prop}
    (h : YieldsAll d argument? (cs.filter (·.kind = .callParam)) Q)
    (hP : ∀ xs, Q xs → P (trimmed xs)) :
    Yields d arguments? (.node .doCall [.leaf l, .node .callParamList cs, .leaf r]) P := by
  intro n depth hn htree
  obtain ⟨list, hlist, hfind, hcs⟩ := n.exists_find? (fun t ↦ t.kind = .callParamList)
    (t := .node .callParamList cs) (by rw [htree]; rfl)
  have hparams := list.map_tree_childrenOfKind .callParam
  rw [hcs] at hparams
  obtain ⟨xs, hxs, hQ⟩ := h _ depth (fun c hc ↦
    (hn.child hlist).child (Node.mem_children_of_mem_childrenOfKind hc)) hparams
  refine ⟨trimmed xs, ?_, hP xs hQ⟩
  rw [arguments?, show n.childOfKind? .callParamList = some list from hfind]
  simp only [Option.bind_eq_bind, Option.bind_some, hxs]
  rfl

/-- What a call of a method by the name `t` is. -/
def IsMethodCall (d : Document) (t : Token) (P : List Expr → Prop) (x : Expr) : Prop :=
  ∃ o args o', x = .call .method (.terminal .identifier o) args o' ∧ o.Tells d (.leaf t) ∧ P args

/-- A call of a method comes to its name and its arguments. -/
theorem yields_methodCall {k : NodeKind} {t : Token} {c : Tree} {P : List Expr → Prop}
    (hc : c.kind = .doCall) (h : Yields d arguments? c P) :
    Yields d methodCall? (.node k [.node .methodName [.leaf t], c]) (IsMethodCall d t P) := by
  intro n depth hn htree
  obtain ⟨name, hname, hfindName, hnameTree⟩ := n.exists_find? (fun t ↦ t.kind = .methodName)
    (t := .node .methodName [.leaf t]) (by rw [htree]; rfl)
  obtain ⟨leaf, hleaf, hhead, hleafTree⟩ := name.exists_head? (t := .leaf t)
    (by rw [hnameTree]; rfl)
  obtain ⟨doCall, hdoCall, hfindCall, rfl⟩ := n.exists_find? (fun t ↦ t.kind = .doCall) (t := c)
    (by rw [htree]; simp [Tree.children, hc])
  obtain ⟨args, hargs, hP⟩ := h doCall depth (hn.child hdoCall) rfl
  refine ⟨_, ?_, .ofNode leaf, args, .ofNode n, rfl, ?_, hP⟩
  · rw [methodCall?, show n.childOfKind? .methodName = some name from hfindName]
    simp only [Option.bind_eq_bind, Option.bind_some, hhead,
      show n.childOfKind? .doCall = some doCall from hfindCall, hargs]
    rfl
  · have htells := ((hn.child hname).child hleaf).standsIn.tells
    rwa [hleafTree] at htells

/-- The node that stands for the type of a new object. -/
def callee? (n : Node) : Option Node :=
  (n.childOfKind? .typeName).or (n.childToken? (.keyword .new))

/-- The arguments behind a type, none where they are left out. -/
def optionalArguments? (inner : Node → Option Expr) (n : Node) : Option (List Expr) :=
  match n.childOfKind? .doCall with
  | some doCall => arguments? inner doCall
  | none => some []

/-- The making of an object, as it is read: first the type is looked for, and then the arguments. -/
theorem newExpression?_eq (inner : Node → Option Expr) (n : Node) :
    newExpression? inner n = (callee? n).bind fun callee ↦ (optionalArguments? inner n).map
      fun args ↦ .call .constructor (ofTerminal .identifier callee) args (.ofNode n) := by
  unfold newExpression? callee? optionalArguments?
  cases n.childOfKind? .typeName <;> cases n.childOfKind? .doCall <;>
    simp only [Option.map_eq_bind] <;> rfl

/-- What the making of an object is, where the callee stands for `t`. -/
def IsConstruction (d : Document) (t : Tree) (P : List Expr → Prop) (x : Expr) : Prop :=
  ∃ o args o', x = .call .constructor (.terminal .identifier o) args o' ∧ o.Tells d t ∧ P args

/-- The tree that stands for the type of a new object, given the word in front of it. -/
def calleeTree (word : Token) : List Tree → Tree
  | [] => .leaf word
  | type :: _ => type

/-- What the grammar has behind the word for a new object and the type. -/
def YieldsOptional (d : Document) (ds : List Tree) (P : List Expr → Prop) : Prop :=
  (ds = [] ∧ P []) ∨ ∃ c, ds = [c] ∧ c.kind = .doCall ∧ Yields d arguments? c P

/-- The type is the node behind the word if there is one, else the word itself. -/
theorem exists_callee? {n : Node} {t : Token} {cs ds : List Tree} (ht : t.kind = .keyword .new)
    (hcs : cs = [] ∨ ∃ type, cs = [.node .typeName [.leaf type]])
    (hds : ds.find? (fun t ↦ t.kind = .typeName) = none)
    (htree : n.tree.children = .leaf t :: (cs ++ ds)) :
    ∃ c ∈ n.children, callee? n = some c ∧ c.tree = calleeTree t cs := by
  obtain rfl | ⟨type, rfl⟩ := hcs
  · obtain ⟨word, hword, hfind, hwordTree⟩ := n.exists_find?
      (fun t ↦ t.token?.map (·.kind) = some (.keyword .new)) (t := .leaf t)
      (by rw [htree]; simp [Tree.token?, ht])
    have hnone : n.childOfKind? .typeName = none :=
      Node.find?_eq_none (fun t ↦ t.kind = .typeName) (by
        rw [htree, List.nil_append, List.find?_cons_of_neg (by simp)]
        exact hds)
    refine ⟨word, hword, ?_, hwordTree⟩
    rw [callee?, hnone, Option.none_or]
    exact hfind
  · obtain ⟨c, hc, hfind, hctree⟩ := n.exists_find? (fun t ↦ t.kind = .typeName)
      (t := .node .typeName [.leaf type]) (by rw [htree]; simp)
    refine ⟨c, hc, ?_, hctree⟩
    rw [callee?, show n.childOfKind? .typeName = some c from hfind, Option.some_or]

/-- Where no arguments follow, there are none. -/
theorem exists_optionalArguments? {n : Node} {depth : Nat} {cs ds : List Tree}
    {P : List Expr → Prop} (hn : n.Fits d depth)
    (hcs : cs.find? (fun t ↦ t.kind = .doCall) = none) (hds : YieldsOptional d ds P)
    (htree : n.tree.children = cs ++ ds) :
    ∃ args, optionalArguments? (nested? depth) n = some args ∧ P args := by
  have hfind : n.tree.children.find? (fun t ↦ t.kind = .doCall) =
      ds.find? (fun t ↦ t.kind = .doCall) := by
    rw [htree, List.find?_append, hcs, Option.none_or]
  obtain ⟨rfl, hP⟩ | ⟨c, rfl, hc, hyields⟩ := hds
  · refine ⟨[], ?_, hP⟩
    rw [optionalArguments?, show n.childOfKind? .doCall = none from Node.find?_eq_none _ hfind]
  · obtain ⟨doCall, hdoCall, hfindCall, rfl⟩ := n.exists_find? (fun t ↦ t.kind = .doCall) (t := c)
      (hfind.trans (List.find?_cons_of_pos (decide_eq_true hc)))
    obtain ⟨args, hargs, hP⟩ := hyields doCall depth (hn.child hdoCall) rfl
    refine ⟨args, ?_, hP⟩
    rw [optionalArguments?, show n.childOfKind? .doCall = some doCall from hfindCall]
    exact hargs

/-- The making of an object comes to its type and its arguments. -/
theorem yields_newExpression {t : Token} {cs ds : List Tree} {P : List Expr → Prop}
    (ht : t.kind = .keyword .new) (hcs : cs = [] ∨ ∃ type, cs = [.node .typeName [.leaf type]])
    (hds : YieldsOptional d ds P) :
    Yields d newExpression? (.node .newExpression (.leaf t :: (cs ++ ds)))
      (IsConstruction d (calleeTree t cs) P) := by
  intro n depth hn htree
  have hchildren : n.tree.children = .leaf t :: (cs ++ ds) := by rw [htree, Tree.children]
  -- The call behind the type does not pass for the type, nor the type for the call.
  have hnoType : ds.find? (fun t ↦ t.kind = .typeName) = none := by
    obtain ⟨rfl, -⟩ | ⟨c, rfl, hc, -⟩ := hds
    · rfl
    · simp [hc]
  have hnoCall : (.leaf t :: cs).find? (fun t ↦ t.kind = .doCall) = none := by
    obtain rfl | ⟨type, rfl⟩ := hcs <;> simp
  obtain ⟨callee, hmem, hcallee, hcalleeTree⟩ := exists_callee? ht hcs hnoType hchildren
  obtain ⟨args, hargs, hP⟩ := exists_optionalArguments? hn hnoCall hds hchildren
  refine ⟨_, ?_, .ofNode callee, args, .ofNode n, rfl, ?_, hP⟩
  · rw [newExpression?_eq, hcallee, Option.bind_some, hargs, Option.map_some, ofTerminal]
  · have htells := (hn.child hmem).standsIn.tells
    rwa [hcalleeTree] at htells

/-- A choice comes to its three parts. -/
theorem yields_ternaryOperator {q l c c' r : Token} {t₁ t₂ t₃ : Tree} {P₁ P₂ P₃ P : Expr → Prop}
    (ht₁ : t₁.kind = .expression) (ht₂ : t₂.kind = .expression) (ht₃ : t₃.kind = .expression)
    (h₁ : Yields d id t₁ P₁) (h₂ : Yields d id t₂ P₂) (h₃ : Yields d id t₃ P₃)
    (hP : ∀ x y z o, P₁ x → P₂ y → P₃ z → P (.ternary x y z o)) :
    Yields d ternaryOperator? (.node .ternaryOperator
      [.leaf q, .leaf l, t₁, .leaf c, t₂, .leaf c', t₃, .leaf r]) P := by
  intro n depth hn htree
  -- The three parts are the children that are expressions, in the order they stand in.
  have hparts := n.map_tree_childrenOfKind .expression
  rw [htree, Tree.children] at hparts
  simp only [List.filter_cons, Tree.kind_leaf, ht₁, ht₂, ht₃, decide_true, reduceCtorEq,
    decide_false, if_true, Bool.false_eq_true, if_false, List.filter_nil] at hparts
  obtain ⟨n₁, _, hns, rfl, hrest₁⟩ := List.map_eq_cons_iff.1 hparts
  obtain ⟨n₂, _, rfl, rfl, hrest₂⟩ := List.map_eq_cons_iff.1 hrest₁
  obtain ⟨n₃, _, rfl, rfl, hrest₃⟩ := List.map_eq_cons_iff.1 hrest₂
  obtain rfl := List.map_eq_nil_iff.1 hrest₃
  have hfits : ∀ m ∈ [n₁, n₂, n₃], m.Fits d depth := fun m hm ↦
    hn.child (Node.mem_children_of_mem_childrenOfKind (hns ▸ hm))
  obtain ⟨x, hx, hPx⟩ := h₁ n₁ depth (hfits n₁ (by simp)) rfl
  obtain ⟨y, hy, hPy⟩ := h₂ n₂ depth (hfits n₂ (by simp)) rfl
  obtain ⟨z, hz, hPz⟩ := h₃ n₃ depth (hfits n₃ (by simp)) rfl
  refine ⟨.ternary x y z (.ofNode n), ?_, hP x y z _ hPx hPy hPz⟩
  rw [id_eq] at hx hy hz
  simp [ternaryOperator?, hns, hx, hy, hz]

/-! ### What calls and choices are made of

The other direction: where there is a value, its parts were found. -/

section

variable {inner : Node → Option Expr} {n : Node} {x : Expr} {args : List Expr}

/-- What was read as arguments stands in the list between the parentheses. -/
theorem of_arguments? (h : arguments? inner n = some args) :
    ∃ list xs, n.childOfKind? .callParamList = some list ∧
      (list.childrenOfKind .callParam).mapM (argument? inner) = some xs ∧ args = trimmed xs := by
  simp only [arguments?, Option.bind_eq_bind, Option.bind_eq_some_iff] at h
  obtain ⟨list, hlist, xs, hxs, h⟩ := h
  exact ⟨list, xs, hlist, hxs, (Option.some.inj h).symm⟩

/-- What was read as a call of a method has a name and arguments. -/
theorem of_methodCall? (h : methodCall? inner n = some x) :
    ∃ name word doCall args, n.childOfKind? .methodName = some name ∧
      name.children.head? = some word ∧ n.childOfKind? .doCall = some doCall ∧
      arguments? inner doCall = some args ∧
      x = .call .method (ofTerminal .identifier word) args (.ofNode n) := by
  simp only [methodCall?, Option.bind_eq_bind, Option.bind_eq_some_iff, Option.pure_def,
    Option.some.injEq] at h
  obtain ⟨name, hname, word, hword, doCall, hdoCall, args, hargs, rfl⟩ := h
  exact ⟨name, word, doCall, args, hname, hword, hdoCall, hargs, rfl⟩

/-- Behind a type there were arguments or none. -/
theorem of_optionalArguments? (h : optionalArguments? inner n = some args) :
    args = [] ∨ ∃ doCall, n.childOfKind? .doCall = some doCall ∧
      arguments? inner doCall = some args := by
  unfold optionalArguments? at h
  split at h
  next doCall hdoCall => exact .inr ⟨doCall, hdoCall, h⟩
  next => exact .inl (Option.some.inj h).symm

/-- What was read as the making of an object has a type, or the word for a new object. -/
theorem of_newExpression? (h : newExpression? inner n = some x) :
    ∃ callee args, callee? n = some callee ∧ optionalArguments? inner n = some args ∧
      x = .call .constructor (ofTerminal .identifier callee) args (.ofNode n) := by
  rw [newExpression?_eq] at h
  simp only [Option.bind_eq_some_iff, Option.map_eq_some_iff] at h
  obtain ⟨callee, hcallee, args, hargs, rfl⟩ := h
  exact ⟨callee, args, hcallee, hargs, rfl⟩

/-- A choice is between the values of the first three expressions below its node. -/
theorem of_ternaryOperator? (h : ternaryOperator? inner n = some x) :
    ∃ c₁ c₂ c₃ rest y₁ y₂ y₃, n.childrenOfKind .expression = c₁ :: c₂ :: c₃ :: rest ∧
      inner c₁ = some y₁ ∧ inner c₂ = some y₂ ∧ inner c₃ = some y₃ ∧
      x = .ternary y₁ y₂ y₃ (.ofNode n) := by
  simp only [ternaryOperator?, Option.bind_eq_bind, Option.bind_eq_some_iff, Option.pure_def,
    Option.some.injEq] at h
  obtain ⟨c₁, h₁, y₁, hy₁, c₂, h₂, y₂, hy₂, c₃, h₃, y₃, hy₃, rfl⟩ := h
  generalize n.childrenOfKind .expression = parts at h₁ h₂ h₃
  obtain _ | ⟨a, _ | ⟨b, _ | ⟨c, rest⟩⟩⟩ := parts
  · cases h₁
  · cases h₂
  · cases h₃
  · obtain rfl := Option.some.inj h₁
    obtain rfl := Option.some.inj h₂
    obtain rfl := Option.some.inj h₃
    exact ⟨a, b, c, rest, y₁, y₂, y₃, rfl, hy₁, hy₂, hy₃, rfl⟩

end

end Expr

end BslLint
