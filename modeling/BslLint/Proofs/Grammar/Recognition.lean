import BslLint.Proofs.Grammar.Coverage
import BslLint.Proofs.Grammar.Soundness
import BslLint.Proofs.Token.Places

/-!
# The parser recognises the grammar of expressions

What is derived is read (`Derives.reads`), and what is read without a fault is derived
(`exists_derives_of_reads`), which makes the grammar and the parser the same thing. For documents it
says that a text without errors holds no expression but those of the grammar, because a fault
anywhere is an error of the document.
-/

namespace BslLint

namespace Grammar

open BslLint.Parser

/-! ### Expressions in documents -/

/-- An expression of the grammar, where an expression is meant. -/
def IsDerived (t : Tree) : Prop := t.kind = .expression → Derives .expression t.tokens [t]

theorem isDerived_of_ne {t : Tree} (h : t.kind ≠ .expression) : IsDerived t := fun hk ↦ absurd hk h

theorem everywhere_leaves (ts : List Token) : Tree.Everywhere IsDerived (ts.map .leaf) := by
  induction ts with
  | nil => exact .nil
  | cons t ts ih => exact Tree.Everywhere.cons_leaf_iff.2 ⟨isDerived_of_ne nofun, ih⟩

theorem everywhere_unary (ts : List Token) : Tree.Everywhere IsDerived (ts.map unaryTree) := by
  induction ts with
  | nil => exact .nil
  | cons t ts ih =>
    exact Tree.Everywhere.cons_node_iff.2 ⟨isDerived_of_ne nofun, everywhere_leaves [t], ih⟩

theorem everywhere_operation (t : Token) : Tree.Everywhere IsDerived [operationTree t] := by
  refine .node (isDerived_of_ne nofun) ?_
  split
  · exact .node (isDerived_of_ne nofun) (everywhere_leaves [t])
  · split
    · exact .node (isDerived_of_ne nofun) (everywhere_leaves [t])
    · exact everywhere_leaves [t]

/-- The expressions inside of a derivation are derived. -/
theorem Derives.everywhere {p : Part} {w : List Token} {cs : List Tree} (h : Derives p w cs) :
    Tree.Everywhere IsDerived cs := by
  have hne : ∀ {t : Tree}, t.kind ≠ .expression → IsDerived t := isDerived_of_ne
  have hleaf : ∀ t, IsDerived (.leaf t) := fun t ↦ hne nofun
  induction h with
  | @expression u v cs ds hfirst hothers ihfirst ihothers =>
    -- The tokens of the node are those that the derivation is of.
    have hd := Derives.expression hfirst hothers
    have htokens := hd.tokensAll_eq
    rw [Tree.tokensAll, Tree.tokensAll, List.append_nil] at htokens
    refine .node (fun _ ↦ ?_) (ihfirst.append ihothers)
    rwa [htokens]
  | row_cons _ _ _ ihfirst ihothers =>
    exact (everywhere_operation _).append (ihfirst.append ihothers)
  | member _ _ ih => exact .node (hne nofun) ((everywhere_unary _).append ih)
  | strings => exact .node (hne nofun) (everywhere_leaves _)
  | constant => exact .node (hne nofun) (everywhere_leaves [_])
  | complex _ _ ihhead ihmods => exact .node (hne nofun) (ihhead.append ihmods)
  | modifiers_cons _ _ ihfirst ihothers => exact ihfirst.append ihothers
  | _ => simp_all [Tree.Everywhere.cons_leaf_iff, Tree.Everywhere.cons_node_iff,
      Tree.Everywhere.append_iff, Tree.Everywhere.nil, IsDerived, Tree.kind]

/-- Where nothing is missing all expressions are derived. -/
theorem invariant_isDerived : Invariant (· ≠ .expression) fun cs fs ↦
    fs = [] → Tree.Everywhere IsDerived cs :=
  (invariant_everywhere (fun _ ↦ isDerived_of_ne nofun) fun hk ↦ isDerived_of_ne hk).withoutFaults

theorem keeps_isDerived_expression :
    Keeps (fun cs fs ↦ fs = [] → Tree.Everywhere IsDerived cs) expression := by
  intro ts hfaults
  obtain ⟨w, -, hd⟩ := exists_derives_of_reads (reads_of_faults_eq_nil hfaults)
  exact hd.everywhere

theorem everywhere_file {ts : List Token} (h : (file ts).faults = []) :
    Tree.Everywhere IsDerived (file ts).trees := by
  have hord : ∀ k, isOrdinary k = true → k ≠ .expression := by
    rintro k hk rfl
    exact nomatch hk
  have hclosed := invariant_isDerived.fullyClosed_of_admitted hord nofun nofun
  have hsub : Keeps (fun cs fs ↦ fs = [] → Tree.Everywhere IsDerived cs) sub :=
    invariant_isDerived.keeps_node nofun
      (closed_procedure_or_function hclosed keeps_isDerived_expression)
  exact .node (isDerived_of_ne nofun)
    (keeps_moduleVars_runs invariant_isDerived hclosed keeps_isDerived_expression
      (hclosed.far_when byKind_atSub hsub) ts h)

/-- In a text without errors, the tree of an expression is derived. -/
theorem derives_of_mem_nodes {text : String} (h : (Document.ofText text).errors = []) {n : Node}
    (hn : n ∈ (Document.ofText text).nodes) (hkind : n.kind = .expression) :
    Derives .expression n.tree.tokens [n.tree] := by
  obtain ⟨t, ht, hnt⟩ := Node.within_of_mem_nodes hn
  exact everywhere_file (Document.errors_eq_nil_iff.1 h).2 t ht n.tree hnt hkind

/-- **Where a file was read without a fault, there is no node of an error.** -/
theorem everywhere_ne_error {ts : List Token} (h : (file ts).faults = []) :
    Tree.Everywhere (·.kind ≠ .error) (file ts).trees := by
  have hinvariant : Invariant (· ≠ .error) fun cs fs ↦
      fs = [] → Tree.Everywhere (·.kind ≠ .error) cs :=
    (invariant_everywhere (Q := (·.kind ≠ .error)) (fun _ ↦ nofun) fun hk ↦ hk).withoutFaults
  have hord : ∀ k, isOrdinary k = true → k ≠ .error := by
    rintro k hk rfl
    exact nomatch hk
  have htype := hinvariant.keeps_node (k := .typeName) nofun hinvariant.keeps_one
  have hclosed := hinvariant.fullyClosed hord (fun hfaults _ h ↦ absurd h hfaults)
    (Invariant.keeps_ifAhead htype fun _ ↦ hinvariant.nothing)
  have hexpr := closed_expression hclosed.toClosed (hinvariant.keeps_node nofun)
  have hsub : Keeps (fun cs fs ↦ fs = [] → Tree.Everywhere (·.kind ≠ .error) cs) sub :=
    hinvariant.keeps_node nofun (closed_procedure_or_function hclosed hexpr)
  exact .node nofun (keeps_moduleVars_runs hinvariant hclosed hexpr
    (hclosed.far_when byKind_atSub hsub) ts h)

/-- What comes behind an expression in a statement, if anything does. -/
def followKinds : List Token.Kind :=
  [.semicolon, .comma, .rightParen, .rightBracket, .keyword .then_, .keyword .do_, .keyword .to_] ++
    blockEnds

/-- **The parser recognises exactly the expressions of the grammar.** What the grammar derives is
read to its end in front of everything that may come behind an expression, without a fault and with
the tree of the derivation; and where a text has no errors, all its expressions are derivations. -/
theorem recognises_expressions :
    (∀ w cs, Derives .expression w cs → ∀ k, (∀ kind, peek k = some kind → kind ∈ followKinds) →
      expression.Reads (w ++ k) cs k) ∧
    ∀ text, (Document.ofText text).errors = [] → ∀ n ∈ (Document.ofText text).nodes,
      n.kind = .expression → Derives .expression n.tree.tokens [n.tree] := by
  constructor
  · intro w cs h k hk
    refine h.reads k fun kind hkind ↦ ?_
    have hmem := hk kind hkind
    revert hmem
    clear hkind
    revert kind
    decide
  · intro text herrors n hn hkind
    obtain ⟨t, ht, hnt⟩ := Node.within_of_mem_nodes hn
    exact everywhere_file (Document.errors_eq_nil_iff.1 herrors).2 t ht n.tree hnt hkind

/-- The tokens of `(1) * Б(, 2)[0]`, without their places. -/
def sampleSigns : List (Token.Kind × String) :=
  [(.leftParen, "("), (.numberLiteral, "1"), (.rightParen, ")"), (.multiply, "*"),
    (.identifier, "Б"),
    (.leftParen, "("), (.comma, ","), (.numberLiteral, "2"), (.rightParen, ")"),
    (.leftBracket, "["),
    (.numberLiteral, "0"), (.rightBracket, "]")]

/-- A product of an expression in parentheses and of an item of what a call gives, one argument of
which is left out: in front of a semicolon, and as an expression of a text. -/
theorem recognises_product :
    (∃ w cs, w.map Token.sign = sampleSigns ∧ Derives .expression w cs ∧
      expression.Reads (w ++ [⟨.semicolon, ";", .start, .start⟩]) cs
        [⟨.semicolon, ";", .start, .start⟩]) ∧
    ∃ n ∈ (Document.ofText "Х=(1)*Б(,2)[0];").nodes, n.tree.tokens.map Token.sign = sampleSigns ∧
      Derives .expression n.tree.tokens [n.tree] := by
  constructor
  · -- The derivation is written out from the numbers up to the product.
    let token (kind : Token.Kind) (text : String) : Token := ⟨kind, text, .start, .start⟩
    have hmember {v cs} (hvalue : Derives .value v cs) : Derives .member ([] ++ v) _ :=
      .member nofun hvalue
    have hnumber (text : String) : Derives .expression _ _ :=
      .expression (hmember (.constant (t := token .numberLiteral text) (List.mem_cons_self ..)))
        .row_nil
    have hparens : Derives .value _ _ := .parens (l := token .leftParen "(")
      (r := token .rightParen ")") rfl rfl (hnumber "1") .modifiers_nil
    have hcall : Derives .call _ _ := .call (l := token .leftParen "(") (r := token .rightParen ")")
      rfl .argument_none (.arguments_cons (c := token .comma ",") rfl (.argument_some (hnumber "2"))
        .arguments_nil) rfl
    have hindex : Derives .modifier _ _ := .index (l := token .leftBracket "[")
      (r := token .rightBracket "]") rfl (hnumber "0") rfl
    have hitem : Derives .value _ _ := .complex
      (.globalCall (t := token .identifier "Б") rfl hcall) (.modifiers_cons hindex .modifiers_nil)
    have hrow : Derives .row (token .multiply "*" :: _) _ :=
      .row_cons (by decide) (hmember hitem) .row_nil
    have hproduct : Derives .expression _ _ := .expression (hmember hparens) hrow
    refine ⟨_, _, rfl, hproduct, recognises_expressions.1 _ _ hproduct _ fun kind hkind ↦ ?_⟩
    obtain rfl := Option.some.inj hkind
    decide
  · -- The text is parsed once, and then only the theorem is used.
    have hread : (Document.ofText "Х=(1)*Б(,2)[0];").errors = [] ∧
        (Document.ofText "Х=(1)*Б(,2)[0];").nodes.any (fun n ↦
          n.kind = .expression ∧ n.tree.tokens.map Token.sign = sampleSigns) = true := by
      rw [Document.ofText_eq_evaluated]
      decide +kernel
    obtain ⟨n, hn, hsigns⟩ := List.any_eq_true.1 hread.2
    obtain ⟨hkind, hsigns⟩ := of_decide_eq_true hsigns
    exact ⟨n, hn, hsigns, recognises_expressions.2 _ hread.1 n hn hkind⟩

end Grammar

end BslLint
