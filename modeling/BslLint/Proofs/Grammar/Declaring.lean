import BslLint.Engine.Metrics
import BslLint.Proofs.Grammar.Annotations
import BslLint.Proofs.Grammar.Locality
import BslLint.Proofs.Syntax.Preorder
import BslLint.Proofs.Token.Places

/-!
# Declarations and the words for them

A procedure, a function or a variable of the module is declared by a word, and the word is found
before the annotations in front of it are read. `Declares` tells what becomes of the word of one
declaration, and `Orderly` what is known of all declarations in some trees, which parsers pass on
(`farClosed_keepsOrder`).

Annotations that leave a parenthesis open lead astray. The token behind them is taken for the word,
whatever it is, and the word is still to come: it declares something **once more**. So a text may
have more procedures than words for them (`argument_taken_for_word`), but no more than go astray.
-/

namespace BslLint

/-- The word for what a node of the kind declares, behind annotations or without any. -/
def NodeKind.declaringWord? : NodeKind → Option Keyword
  | .procDeclaration => some .procedure
  | .funcDeclaration => some .function
  | .moduleVar => some .var
  | _ => none

namespace Grammar

open BslLint.Parser

/-! ### One declaration -/

/-- The annotations in front of what a tree declares. -/
def annotations (t : Tree) : List Tree := t.children.takeWhile (·.kind = .compilerDirective)

/-- In the annotations of a tree all parentheses are closed again. -/
def ClosesAnnotations (t : Tree) : Prop :=
  opened (Tree.tokensAll (annotations t)) = closed (Tree.tokensAll (annotations t))

instance (t : Tree) : Decidable (ClosesAnnotations t) := inferInstanceAs (Decidable (_ = _))

/-- What a tree that declares something has to do with the word for it, where `ts` are the tokens
from the tree on. -/
structure Declares (word : Keyword) (t : Tree) (ts : List Token) : Prop where
  /-- The word comes behind the annotations, as told by their parentheses. -/
  found : isAt (.keyword word) (afterDirectives ts) = true
  /-- The annotations that were read close no more parentheses than they open. -/
  closed_le : closed (Tree.tokensAll (annotations t)) ≤ opened (Tree.tokensAll (annotations t))
  /-- They end where the word was found if they close all of them, and only then. -/
  agrees_iff : afterDirectives ts = ts.drop (Tree.widthAll (annotations t)) ↔ ClosesAnnotations t
  /-- The next token is taken for the word, which it is if they end there. -/
  exists_token : ∃ x cs, t.children = annotations t ++ .leaf x :: cs ∧
    (ClosesAnnotations t → x.kind = .keyword word)

variable {ts : List Token} {k : NodeKind} {word : Keyword} {q : Parser}

/-- What is read of a declaration: annotations, the word and more. -/
abbrev declaration (q : Parser) : Parser := compilerDirectives ++ (one ++ q)

/-- The head of a procedure is a declaration, -/
theorem subDeclaration_eq (k : NodeKind) : subDeclaration k = node k (declaration
    (ifAhead (isAt .identifier) (node .subName one) (missing .subName) ++ paramList ++
      eat (.keyword .export_))) := by
  simp only [subDeclaration, declaration, seq_assoc]

/-- and so are the variables of a module. -/
theorem moduleVar_eq : moduleVar = node .moduleVar (declaration
    (node .moduleVarsList (commaSeparated
      (node .moduleVarDeclaration (expectName .variableName ++ eat (.keyword .export_)))) ++
      expect .semicolon)) := by
  simp only [moduleVar, declaration, seq_assoc]

/-- Behind the trees that were made the tokens that are left begin. -/
theorem drop_widthAll_trees (s : Step ts) : ts.drop (Tree.widthAll s.trees) = s.rest := by
  calc ts.drop (Tree.widthAll s.trees)
      = (Tree.tokensAll s.trees ++ s.rest).drop (Tree.tokensAll s.trees).length := by
        rw [s.tokens_append_rest, Tree.length_tokensAll]
    _ = s.rest := List.drop_left

/-- **What is read where a word was found declares what the word is for.** -/
theorem exists_declares (hword : .keyword word ∈ declarationWords)
    (hfound : isAt (.keyword word) (afterDirectives ts) = true) (k : NodeKind) (q : Parser) :
    ∃ x us, (compilerDirectives ts).rest = x :: us ∧
      Declares word (.node k (declaration q ts).trees) ts ∧
      (ClosesAnnotations (.node k (declaration q ts).trees) → x.kind = .keyword word) ∧
      ((declaration q ts).faults = [] → ClosesAnnotations (.node k (declaration q ts).trees)) := by
  have hany : isAtAny declarationWords (afterDirectives ts) = true := by
    obtain ⟨t, us, heq, ht⟩ := isAt_iff.1 hfound
    rw [heq, isAtAny_cons, ht]
    exact List.elem_iff.2 hword
  -- The search has found the token `x` at which the annotations end, if they are closed.
  obtain ⟨x, us, hrest, hle, hagrees⟩ := exists_of_annotations hany
  have htrees : (declaration q ts).trees =
      (compilerDirectives ts).trees ++ .leaf x :: (q us).trees := by
    rw [trees_seq, hrest]
    rfl
  have hannotations : annotations (.node k (declaration q ts).trees) =
      (compilerDirectives ts).trees := by
    have hall : ∀ t ∈ (compilerDirectives ts).trees, decide (t.kind = .compilerDirective) = true :=
      fun t ht ↦ decide_eq_true (kind_of_mem_compilerDirectives ts t ht)
    rw [annotations, Tree.children, htrees, List.takeWhile_append_of_pos hall,
      List.takeWhile_cons_of_neg (by simp [Tree.kind]), List.append_nil]
  have hcloses : ClosesAnnotations (.node k (declaration q ts).trees) ↔
      afterDirectives ts = x :: us := by
    rw [ClosesAnnotations, hannotations, hagrees]
  have hx (h : ClosesAnnotations (.node k (declaration q ts).trees)) : x.kind = .keyword word := by
    rwa [hcloses.1 h, isAt_cons, beq_iff_eq] at hfound
  refine ⟨x, us, hrest, ⟨hfound, ?_, ?_, x, (q us).trees, ?_, hx⟩, hx, fun hfaults ↦ ?_⟩
  · rwa [hannotations]
  · rw [hannotations, drop_widthAll_trees, hrest, hcloses]
  · rw [hannotations, Tree.children, htrees]
  · -- without a fault the annotations end where the search says
    have hread := reads_of_faults_eq_nil (List.append_eq_nil_iff.1 hfaults).1
    obtain ⟨w, hw, hskip⟩ := exists_of_reads_compilerDirectives hread
    rw [hcloses, ← hrest, ← hskip _ rfl, ← hw]

/-! ### What is known of all declarations -/

/-- Whether nodes of the kind are neither procedures nor declarations. -/
def isPlain (k : NodeKind) : Bool := !isDeclaration k && k != .sub

/-- Nodes that are neither have no word of their own. -/
theorem of_isPlain (h : isPlain k = true) :
    k ∉ [NodeKind.procedure, .function, .sub] ∧ k.declaringWord? = none := by
  cases k <;> first | exact ⟨by decide, rfl⟩ | exact absurd h (by decide)

/-- Whether a token is a word for a procedure or a function. -/
def isSubWord (t : Token) : Bool := t.kind = .keyword .procedure ∨ t.kind = .keyword .function

/-- Whether a tree declares a procedure or a function, and its annotations leave a parenthesis
open. -/
def isAstray (t : Tree) : Bool :=
  (t.kind = .procDeclaration ∨ t.kind = .funcDeclaration) ∧ ¬ClosesAnnotations t

/-- What is known of some tokens and faults and of the trees with all below them that came of the
tokens, each with the tokens from there on. Of the words, `spare` have no procedure yet. -/
structure Orderly (spare : Nat) (w : List Token) (fs : List Fault) (l : List (Tree × List Token)) :
    Prop where
  /-- Every declaration follows the word for it, and closes all annotations without a fault. -/
  declares : ∀ s ∈ l, ∀ word, s.1.kind.declaringWord? = some word →
    Declares word s.1 s.2 ∧ (fs = [] → ClosesAnnotations s.1)
  /-- Each procedure or function is one of the two. -/
  heads : l.countP (·.1.kind = .procedure) + l.countP (·.1.kind = .function) =
    l.countP (·.1.kind = .sub)
  /-- Each has a word of its own or is astray. -/
  words : l.countP (·.1.kind = .sub) + spare ≤ w.countP isSubWord + l.countP (isAstray ·.1)

namespace Orderly

variable {a b : Nat} {w v : List Token} {fs gs : List Fault} {l m : List (Tree × List Token)}
  {t u : Tree}

/-- What is known of two stretches of tokens is known of both, each with its own words to spare. -/
theorem append (h : Orderly a w fs l) (h' : Orderly b v gs m) :
    Orderly (a + b) (w ++ v) (fs ++ gs) (l ++ m) := by
  have hheads := h.heads
  have hheads' := h'.heads
  have hwords := h.words
  have hwords' := h'.words
  refine ⟨fun s hs word hword ↦ ?_, ?_, ?_⟩
  · rw [List.append_eq_nil_iff]
    rcases List.mem_append.1 hs with hs | hs
    · exact (h.declares s hs word hword).imp_right fun hcloses hfaults ↦ hcloses hfaults.1
    · exact (h'.declares s hs word hword).imp_right fun hcloses hfaults ↦ hcloses hfaults.2
  · simp only [List.countP_append]
    omega
  · simp only [List.countP_append]
    omega

/-- In front comes a tree that is no procedure. -/
theorem cons (hkind : t.kind ∉ [NodeKind.procedure, .function, .sub])
    (hdeclares : ∀ word, t.kind.declaringWord? = some word →
      Declares word t ts ∧ (fs = [] → ClosesAnnotations t))
    (hspare : b ≤ a + if isAstray t then 1 else 0) (h : Orderly a w fs l) :
    Orderly b w fs ((t, ts) :: l) := by
  simp only [List.mem_cons, List.not_mem_nil, or_false, not_or] at hkind
  refine ⟨List.forall_mem_cons.2 ⟨hdeclares, h.declares⟩, ?_, ?_⟩
  · simpa [hkind] using h.heads
  · have hwords := h.words
    simp only [List.countP_cons, hkind, decide_false, Bool.false_eq_true, if_false]
    omega

/-- In front may come a node that has nothing to do with declarations. -/
theorem cons_plain (ht : isPlain t.kind = true) (h : Orderly a w fs l) (ts : List Token) :
    Orderly a w fs ((t, ts) :: l) := by
  obtain ⟨hkind, hnone⟩ := of_isPlain ht
  exact h.cons hkind (fun _ hword ↦ absurd (hnone.symm.trans hword) nofun) (Nat.le_add_right _ _)

/-- A procedure takes a word that is to spare. -/
theorem cons_sub (ht : t.kind = .sub) (hu : u.kind ∈ [NodeKind.procedure, .function])
    (h : Orderly 1 w fs l) (ts us : List Token) : Orderly 0 w fs ((t, ts) :: (u, us) :: l) := by
  have hkind : u.kind.declaringWord? = none ∧ isAstray u = false ∧ u.kind ≠ .sub ∧
      (if u.kind = .procedure then 1 else 0) + (if u.kind = .function then 1 else 0) = 1 := by
    simp only [List.mem_cons, List.not_mem_nil, or_false] at hu
    rcases hu with hu | hu <;> simp [hu, isAstray, NodeKind.declaringWord?]
  obtain ⟨hnone, hastray', hsub, hone⟩ := hkind
  have hnone' : t.kind.declaringWord? = none := by rw [ht]; rfl
  have hastray : isAstray t = false := by simp [isAstray, ht]
  have hheads := h.heads
  have hwords := h.words
  -- Neither node announces anything itself.
  refine ⟨List.forall_mem_cons.2 ⟨fun _ hword ↦ absurd (hnone'.symm.trans hword) nofun,
    List.forall_mem_cons.2 ⟨fun _ hword ↦ absurd (hnone.symm.trans hword) nofun, h.declares⟩⟩,
    ?_, ?_⟩
  · simp only [List.countP_cons, ht, hsub, decide_eq_true_eq, if_true, if_false, reduceCtorEq]
    omega
  · simp only [List.countP_cons, ht, hsub, hastray, hastray', decide_true, decide_false, if_true,
      if_false, Bool.false_eq_true]
    omega

end Orderly

/-- What is known of a parser at some tokens. -/
def OrderlyAt (spare : Nat) (p : Parser) (ts : List Token) : Prop :=
  Orderly spare (Tree.tokensAll (p ts).trees) (p ts).faults (Tree.outlookAll ts (p ts).trees)

namespace OrderlyAt

variable {a b : Nat} {p : Parser}

theorem of_trees_eq_nil (h : (p ts).trees = []) : OrderlyAt 0 p ts := by
  rw [OrderlyAt, h]
  exact ⟨nofun, rfl, Nat.le_refl _⟩

theorem one {x : Token} (hspare : a ≤ [x].countP isSubWord) (us : List Token) :
    OrderlyAt a Parser.one (x :: us) := by
  have hnone : Orderly a [x] [] [] := by
    refine ⟨nofun, rfl, ?_⟩
    rw [List.countP_nil, List.countP_nil]
    omega
  exact hnone.cons_plain rfl (x :: us)

/-- Words that two parsers leave to spare are counted together. -/
theorem seq (hp : OrderlyAt a p ts) (hq : OrderlyAt b q (p ts).rest) :
    OrderlyAt (a + b) (p ++ q) ts := by
  have happend := Orderly.append hp hq
  rwa [← Tree.tokensAll_append, ← drop_widthAll_trees (p ts), ← Tree.outlookAll_append,
    drop_widthAll_trees (p ts)] at happend

/-- What is known of a node is known of what is in it, with the node in front. -/
theorem node_iff : OrderlyAt a (Parser.node k p) ts ↔
    Orderly a (Tree.tokensAll (p ts).trees) (p ts).faults
      ((.node k (p ts).trees, ts) :: Tree.outlookAll ts (p ts).trees) := by
  rw [OrderlyAt, trees_node, Tree.outlookAll_node, Tree.tokensAll, Tree.tokensAll, Tree.tokens,
    List.append_nil, faults_node]

theorem node (hk : isPlain k = true) (hp : OrderlyAt a p ts) : OrderlyAt a (Parser.node k p) ts :=
  node_iff.2 (hp.cons_plain (t := .node k (p ts).trees) hk ts)

end OrderlyAt

/-- What is known of a parser at any tokens. -/
def KeepsOrder (p : Parser) : Prop := ∀ ts, OrderlyAt 0 p ts

namespace KeepsOrder

variable {p : Parser} {ahead : List Token → Bool}

theorem nothing : KeepsOrder nothing := fun _ ↦ .of_trees_eq_nil rfl

theorem one : KeepsOrder one
  | [] => .of_trees_eq_nil rfl
  | _ :: us => .one (Nat.zero_le _) us

theorem node (hk : isPlain k = true) (hp : KeepsOrder p) : KeepsOrder (node k p) :=
  fun ts ↦ (hp ts).node hk

theorem ifAhead (hp : KeepsOrder p) (hq : KeepsOrder q) : KeepsOrder (ifAhead ahead p q) := by
  intro ts
  unfold OrderlyAt Parser.ifAhead
  split
  · exact hp ts
  · exact hq ts

theorem many (hp : KeepsOrder p) : KeepsOrder (many ahead p) :=
  many_induction (motive := fun ts s ↦
      Orderly 0 (Tree.tokensAll s.trees) s.faults (Tree.outlookAll ts s.trees))
    (fun ts _ ↦ nothing ts) (fun ts _ _ ↦ hp ts)
    fun ts _ _ ih ↦ OrderlyAt.seq (q := Parser.many ahead p) (hp ts) ih

theorem fix {f : Parser → Parser} (hf : ∀ q, KeepsOrder q → KeepsOrder (f q)) :
    KeepsOrder (fix f) := by
  have hnested : ∀ depth, KeepsOrder (nested f depth) := by
    intro depth
    induction depth with
    | zero => exact hf _ nothing
    | succ depth ih => exact hf _ ih
  exact fun ts ↦ hnested ts.length ts

end KeepsOrder

theorem isPlain_of_isInner (h : isInner k = true) : isPlain k = true := by
  cases k <;> first | rfl | exact absurd h (by decide)

/-- Nothing inside of procedures declares anything, so combinators keep what is known. -/
theorem farClosed_keepsOrder : FarClosed KeepsOrder where
  nothing := .nothing
  one := .one
  missing _ _ := .of_trees_eq_nil rfl
  seq hp hq ts := (hp ts).seq (hq _)
  node hk := .node (isPlain_of_isInner hk)
  error _ := .node rfl
  typeName := .ifAhead (.node rfl .one) .nothing
  select hc ts := by
    have hchoice := hc (peek ts) ts
    rwa [OrderlyAt, ifAhead_pos (beq_self_eq_true (peek ts))] at hchoice
  ifAhead _ _ := .ifAhead
  many _ := .many
  fix _ := .fix
  far_ifAhead _ := .ifAhead
  far_many _ := .many

theorem keepsOrder_expression : KeepsOrder expression :=
  closed_expression farClosed_keepsOrder.toClosed (.node rfl)

/-! ### Procedures, variables and files -/

/-- A word for a procedure or a function is to spare for the node around it. -/
theorem orderlyAt_declaration (hk : k.declaringWord? = some word)
    (hfound : isAt (.keyword word) (afterDirectives ts) = true) (hq : KeepsOrder q) :
    OrderlyAt (if word = .var then 0 else 1) (node k (declaration q)) ts := by
  have hkind : k ∉ [NodeKind.procedure, .function, .sub] ∧ .keyword word ∈ declarationWords ∧
      (word ≠ .var → (k = .procDeclaration ∨ k = .funcDeclaration) ∧
        (word = .procedure ∨ word = .function)) := by
    rcases k <;> cases hk <;> decide
  obtain ⟨hplain, hmem, hsub⟩ := hkind
  obtain ⟨x, us, hrest, hdeclares, hx, hcloses⟩ := exists_declares hmem hfound k q
  have hdirectives : OrderlyAt 0 compilerDirectives ts :=
    closed_compilerDirectives farClosed_keepsOrder.toClosed keepsOrder_expression ts
  have hinside : OrderlyAt (0 + ([x].countP isSubWord + 0)) (declaration q) ts := by
    refine hdirectives.seq ?_
    rw [hrest]
    exact (OrderlyAt.one (Nat.le_refl _) us).seq (hq us)
  refine OrderlyAt.node_iff.2 (hinside.cons hplain (fun word' hword' ↦ ?_) ?_)
  · obtain rfl := Option.some.inj (hk.symm.trans hword')
    exact ⟨hdeclares, hcloses⟩
  · by_cases hvar : word = .var
    · rw [if_pos hvar]
      exact Nat.zero_le _
    · obtain ⟨hkind, hword⟩ := hsub hvar
      rw [if_neg hvar]
      by_cases hclosed : ClosesAnnotations (.node k (declaration q ts).trees)
      · -- the word itself was read
        have hx : isSubWord x = true := by
          rw [isSubWord, hx hclosed]
          exact decide_eq_true (by simpa only [Token.Kind.keyword.injEq] using hword)
        rw [List.countP_singleton, if_pos hx]
        omega
      · have hastray : isAstray (.node k (declaration q ts).trees) = true :=
          decide_eq_true ⟨hkind, hclosed⟩
        rw [if_pos hastray]
        omega

/-- Variables are announced by their word, and take no word for a procedure. -/
theorem keepsOrder_moduleVar : KeepsOrder (when atModuleVar moduleVar) := by
  have h := farClosed_keepsOrder.toClosed
  intro ts
  cases hat : atModuleVar ts with
  | false => exact .of_trees_eq_nil (congrArg Step.trees (ifAhead_neg hat))
  | true =>
    rw [OrderlyAt, when, ifAhead_pos hat, moduleVar_eq]
    have hnames := h.commaSeparated (h.node (k := .moduleVarDeclaration) rfl
      (h.seq (h.expectName .variableName) (h.eat (.keyword .export_))))
    exact orderlyAt_declaration rfl hat (h.seq (h.node rfl hnames) (h.expect _))

/-- A procedure or a function that is declared next. -/
theorem orderlyAt_branch {branch : NodeKind} (hbranch : branch ∈ [NodeKind.procedure, .function])
    (hk : k.declaringWord? = some word) (hword : word ≠ .var)
    (hfound : isAt (.keyword word) (afterDirectives ts) = true) (last : Token.Kind) :
    OrderlyAt 0 (node .sub (node branch (subDeclaration k ++ subCodeBlock ++ expect last))) ts := by
  have h := farClosed_keepsOrder.toClosed
  have hname : KeepsOrder (ifAhead (isAt .identifier) (node .subName one) (missing .subName)) :=
    h.choice (near_isAt _) (h.node rfl h.one) (h.missing _)
  have hhead : OrderlyAt 1 (subDeclaration k) ts := by
    have hread := orderlyAt_declaration hk hfound
      (h.seq (h.seq hname (closed_paramList h)) (h.eat (.keyword .export_)))
    rwa [if_neg hword, ← subDeclaration_eq] at hread
  have hbody := (hhead.seq (closed_subCodeBlock h keepsOrder_expression _)).seq (h.expect last _)
  rw [OrderlyAt.node_iff, trees_node, Tree.outlookAll_node, Tree.tokensAll, Tree.tokensAll,
    Tree.tokens, List.append_nil]
  exact hbody.cons_sub (t := .node .sub _) (u := .node branch _) rfl hbranch ts ts

/-- A procedure takes the word that announced it. -/
theorem keepsOrder_sub : KeepsOrder (when atSub sub) := by
  intro ts
  cases hat : atSub ts with
  | false => exact .of_trees_eq_nil (congrArg Step.trees (ifAhead_neg hat))
  | true =>
    rw [OrderlyAt, when, ifAhead_pos hat]
    -- A function is looked for first; what is no function then is a procedure.
    cases hfunction : isAt (.keyword .function) (afterDirectives ts) with
    | true =>
      have hsub : sub ts = node .sub (node .function _) ts :=
        congrArg (Step.wrap .sub) (ifAhead_pos hfunction)
      rw [hsub]
      exact orderlyAt_branch (by decide) rfl (by decide) hfunction (.keyword .endFunction)
    | false =>
      have hsub : sub ts = node .sub (node .procedure _) ts :=
        congrArg (Step.wrap .sub) (ifAhead_neg hfunction)
      rw [hsub]
      obtain ⟨t, us, heq, ht⟩ := exists_of_isAtAny hat
      rw [heq, isAt_cons, beq_eq_false_iff_ne] at hfunction
      have hprocedure : isAt (.keyword .procedure) (afterDirectives ts) = true := by
        rw [heq, isAt_cons]
        simpa [hfunction] using ht
      exact orderlyAt_branch (by decide) rfl (by decide) hprocedure (.keyword .endProcedure)

/-- So in a file there are no more procedures than words for them. -/
theorem keepsOrder_file : KeepsOrder file := by
  have h := farClosed_keepsOrder
  have hrun : KeepsOrder run := closed_run h keepsOrder_expression keepsOrder_sub
  have hcode : KeepsOrder fileCodeBlock := closed_fileCodeBlock h keepsOrder_expression
  have hruns (coded : Bool) : KeepsOrder (runsFrom coded) := by
    intro ts
    unfold OrderlyAt
    fun_induction runsFrom coded ts with
    | case1 => exact KeepsOrder.nothing _
    | case2 => exact hcode _
    | case3 coded ts hts s hs ih => exact OrderlyAt.seq (q := runsFrom (!atSub ts)) (hrun ts) ih
    | case4 coded ts hts s hs => exact hrun ts
  exact .node rfl (h.seq (closed_moduleVars h keepsOrder_moduleVar) (hruns false))

end Grammar

/-! ### Documents -/

namespace Document

open Grammar

/-- **Every declaration was announced by its word**, in every text, well formed or not. The word is
the token behind the annotations that were read, unless these leave a parenthesis open, which does
not happen without an error. So a text has no more procedures and functions than words for them, but
for those whose annotations do. -/
theorem declarations_are_announced (text : String) :
    (∀ n ∈ (ofText text).nodes, ∀ word, n.kind.declaringWord? = some word →
      Declares word n.tree ((ofText text).tokens.toList.drop n.first) ∧
        ((ofText text).errors = [] → ClosesAnnotations n.tree)) ∧
    (ofText text).metrics.procedures + (ofText text).metrics.functions =
      (ofText text).countKind .sub ∧
    (ofText text).countKind .sub ≤
      (ofText text).tokens.toList.countP isSubWord +
        (ofText text).nodes.countP (isAstray ·.tree) := by
  have htokens : (ofText text).tokens.toList = (Scan.ofText (Text.withoutMark text)).tokens :=
    (regular_ofText text).tokens_eq
  have hview : ((ofText text).nodes.map fun n ↦
        (n.tree, (ofText text).tokens.toList.drop n.first)) =
      Tree.outlookAll (ofText text).tokens.toList (ofText text).trees :=
    Node.map_preorderAll_place _ 0 0 _
  -- What is read as a file keeps order, and its nodes look at the tokens of the text.
  have horder : Orderly 0 (ofText text).tokens.toList
      (file (Scan.ofText (Text.withoutMark text)).tokens).faults
      ((ofText text).nodes.map fun n ↦ (n.tree, (ofText text).tokens.toList.drop n.first)) := by
    have hfile := keepsOrder_file (Scan.ofText (Text.withoutMark text)).tokens
    rw [OrderlyAt, tokensAll_trees_file] at hfile
    rwa [hview, htokens]
  refine ⟨fun n hn word hword ↦ ?_, ?_, ?_⟩
  · obtain ⟨hdeclares, hcloses⟩ := horder.declares _ (List.mem_map_of_mem hn) word hword
    exact ⟨hdeclares, fun herrors ↦ hcloses (errors_eq_nil_iff.1 herrors).2⟩
  · have hheads := horder.heads
    simp only [List.countP_map] at hheads
    exact hheads
  · have hwords := horder.words
    simp only [List.countP_map] at hwords
    exact hwords

/-- An annotation with an argument in parentheses of its own. -/
theorem word_follows_annotations : ∃ text, text = "&А((1)) Процедура П() КонецПроцедуры" ∧
    (ofText text).errors = [] ∧ ∃ n ∈ (ofText text).nodes,
      n.kind.declaringWord? = some .procedure ∧ ∃ x cs,
        n.tree.children = annotations n.tree ++ .leaf x :: cs ∧ x.kind = .keyword .procedure := by
  obtain ⟨text, htext⟩ : ∃ text, text = "&А((1)) Процедура П() КонецПроцедуры" := ⟨_, rfl⟩
  have hany : (ofText text).errors = [] ∧
      (ofText text).nodes.any (·.kind.declaringWord? = some .procedure) = true := by
    rw [htext, Document.ofText_eq_evaluated]
    decide +kernel
  obtain ⟨n, hn, hword⟩ := List.any_eq_true.1 hany.2
  obtain ⟨hdeclares, hcloses⟩ :=
    (declarations_are_announced text).1 n hn .procedure (of_decide_eq_true hword)
  obtain ⟨x, cs, hchildren, hx⟩ := hdeclares.exists_token
  exact ⟨text, htext, hany.1, n, hn, of_decide_eq_true hword, x, cs, hchildren, hx (hcloses hany.1)⟩

/-- Where two arguments stand with no comma between them, the second one is taken for the word, and
the word itself declares another procedure. -/
theorem argument_taken_for_word : ∃ text, text = "&А(1 2) Процедура П() КонецПроцедуры" ∧
    (∃ n ∈ (ofText text).nodes, n.kind = .procDeclaration ∧
      (n.childToken? (.keyword .procedure)).isNone = true) ∧
    (ofText text).countKind .sub = 2 ∧ (ofText text).tokens.toList.countP isSubWord = 1 := by
  refine ⟨_, rfl, ?_⟩
  have hany : (ofText "&А(1 2) Процедура П() КонецПроцедуры").nodes.any (fun n ↦
      n.kind = .procDeclaration ∧ (n.childToken? (.keyword .procedure)).isNone = true) = true ∧
      (ofText "&А(1 2) Процедура П() КонецПроцедуры").countKind .sub = 2 ∧
      (ofText "&А(1 2) Процедура П() КонецПроцедуры").tokens.toList.countP isSubWord = 1 := by
    rw [Document.ofText_eq_evaluated]
    decide +kernel
  obtain ⟨n, hn, hnone⟩ := List.any_eq_true.1 hany.1
  exact ⟨⟨n, hn, of_decide_eq_true hnone⟩, hany.2⟩

end Document

end BslLint
