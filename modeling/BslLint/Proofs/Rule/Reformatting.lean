import BslLint.Proofs.Data.Attempts
import BslLint.Proofs.Pass.Reformatting
import BslLint.Proofs.Rule.Locations

/-!
# Reformatting changes nothing but places

Two texts with the same tokens may differ in white space, comments, instructions to the preprocessor
and line breaks. They have the same tree, node by node, the same errors in the same order, the same
canonical forms, and whatever the rules are configured to find, they find it in both, on the same
nodes and in the same order (`Document.reformatting_changes_places_only`).

The rules look at kinds, at the texts of tokens and at numbers of nodes. Two of them have to be
watched: a finding about a node without tokens would stand at the start of the text, and the text of
a node of several tokens holds what stands between them. The first does not happen, because nothing
is found in an expression that is missing, and the second does not matter, because the one text that
a rule looks at is the name of a type.
-/

namespace BslLint

variable {f : Token → Token} {d d' : Document}

/-! ### The rules -/

theorem Pass.Answer.alike_found {xs ys : List Finding} {ts : List Token}
    (h : List.Forall₂ (Finding.Alike f ts) xs ys) : Alike f ts (found () xs) (found () ys) :=
  ⟨h, rfl⟩

theorem ParseErrors.ignoresLayout : ParseErrors.pass.IgnoresLayout where
  nodup := .nil
  checkFile {f d d'} h := by
    refine Pass.Answer.alike_found ?_
    rw [List.forall₂_map_left_iff, List.forall₂_map_right_iff]
    exact h.errors.imp fun e e' he ↦ ⟨rfl, he.2⟩
  visit _ _ _ hkind := absurd hkind List.not_mem_nil

namespace IdenticalExpressions

theorem ignoresLayout (min : Nat) : (pass min).IgnoresLayout where
  nodup := Rule.nodup_kinds .identicalExpressions min
  checkFile _ := Pass.Answer.alike_found .nil
  visit {f d d'} h n hn hkind := by
    have hcompare : d'.upToChains = d.upToChains := congrArg (Comparison.mk · true) h.tokenTexts_eq
    have hlength : (n.relabel f).children.length = n.children.length := by
      rw [Node.children_relabel, List.length_map]
    simp only [pass, hlength, n.expr?_relabel h.kind]
    split
    · exact Pass.Answer.alike_found .nil
    · cases hx : n.expr? with
      | none => exact Pass.Answer.alike_found .nil
      | some x =>
        have hwidth := width_pos (h.filled_of_mem hn) (List.mem_singleton.1 hkind) hx
        refine ⟨?_, rfl⟩
        simp only [check, hcompare]
        rw [List.forall₂_map_left_iff, List.forall₂_map_right_iff, List.forall₂_same]
        exact fun o _ ↦ h.atNode hn hwidth _ _

end IdenticalExpressions

namespace ConditionComplexity

theorem operations_relabel (n : Node) : operations (n.relabel f) = operations n := by
  simp only [operations, Node.preorder_relabel, List.countP_map, Function.comp_def,
    Node.kind_relabel]

theorem ignoresLayout (max : Nat) : (pass max).IgnoresLayout where
  nodup := Rule.nodup_kinds .conditionComplexity max
  checkFile _ := Pass.Answer.alike_found .nil
  visit {f d d'} h n hn _ := by
    refine Pass.Answer.alike_found ?_
    rw [check, check, Node.childOfKind?_relabel]
    cases hcondition : n.childOfKind? .expression with
    | none => exact .nil
    | some condition =>
      have hmem : condition ∈ d.nodes :=
        Node.mem_nodes_of_mem_children hn (Node.mem_children_of_childOfKind? hcondition)
      have hkind := Node.kind_of_childOfKind? hcondition
      simp only [Option.map_some, operations_relabel]
      split
      next hmax =>
        have hwidth := width_pos (h.filled_of_mem hmem) hkind hmax
        exact .cons (h.atNode hmem hwidth _ _) .nil
      · exact .nil

end ConditionComplexity

namespace StructureValues

theorem argumentCount_relabel (n : Node) : argumentCount (n.relabel f) = argumentCount n := by
  simp only [argumentCount, Node.childOfKind?_relabel, Option.bind_eq_bind, Option.bind_map,
    Function.comp_def, Node.childrenOfKind_relabel, List.length_map]

theorem ignoresLayout (max : Nat) : (pass max).IgnoresLayout where
  nodup := Rule.nodup_kinds .structureValues max
  checkFile _ := Pass.Answer.alike_found .nil
  visit {f d d'} h n hn _ := by
    refine Pass.Answer.alike_found ?_
    rw [check, check, Node.childOfKind?_relabel, argumentCount_relabel]
    cases htype : n.childOfKind? .typeName with
    | none => exact .nil
    | some type =>
      have hchild := Node.mem_children_of_childOfKind? htype
      have hmem : type ∈ d.nodes := Node.mem_nodes_of_mem_children hn hchild
      have hkind := Node.kind_of_childOfKind? htype
      obtain ⟨x, hx⟩ := (h.filled_of_mem hmem).typeName hkind
      obtain ⟨htext, htext'⟩ := h.text_eq hmem (t := x) (by rw [hx]; rfl)
      have hwidth := width_pos (h.filled_of_mem hmem) hchild hkind
      simp only [Option.map_some, htext, htext']
      split
      · exact .cons (h.atNode hn hwidth _ _) .nil
      · exact .nil

end StructureValues

/-- **No rule looks at the layout.** -/
theorem Rule.ignoresLayout (r : Rule) (limit : Nat) : (r.pass limit).IgnoresLayout := by
  cases r with
  | parseErrors => exact ParseErrors.ignoresLayout
  | identicalExpressions => exact IdenticalExpressions.ignoresLayout limit
  | conditionComplexity => exact ConditionComplexity.ignoresLayout limit
  | structureValues => exact StructureValues.ignoresLayout limit

namespace Config

variable {c : Config} {r : Runner Unit} {p : RankedPass Unit}

theorem pass_of_rankedPass? {rule : Rule} (h : c.rankedPass? rule = .ok p) :
    ∃ limit, p.pass = rule.pass limit := by
  rw [rankedPass?] at h
  split at h
  next limit _ =>
    obtain rfl := Except.ok.inj h
    exact ⟨limit, rfl⟩
  next => exact nomatch h

/-- The runner of a configuration runs rules and nothing else. -/
theorem exists_rule_of_mem_passes (h : c.runner? = .ok r) (hp : p ∈ r.passes) :
    ∃ (rule : Rule) (limit : Nat), p.pass = rule.pass limit := by
  rw [runner?] at h
  cases hpasses : (Rule.all.filter c.isEnabled).mapM c.rankedPass? with
  | error e =>
    rw [hpasses] at h
    exact nomatch h
  | ok ps =>
    rw [hpasses] at h
    obtain rfl : ⟨ps⟩ = r := Except.ok.inj h
    obtain ⟨rule, -, hrule⟩ := exists_of_mem_of_mapM_ok hpasses p hp
    exact ⟨rule, pass_of_rankedPass? hrule⟩

end Config

/-! ### Reformatting -/

/-- What a node is, apart from its tokens and their places. -/
structure Node.Outline where
  /-- The number of the node. -/
  id : Nat
  /-- What it stands for. -/
  kind : NodeKind
  /-- The kind of token, if it is one. -/
  token : Option Token.Kind
  /-- The tokens that it covers. -/
  range : TokenRange
  /-- The numbers of the nodes directly below, from the first to the last. -/
  children : List Nat
  deriving DecidableEq, Repr

/-- What the node is, apart from its tokens and their places. -/
def Node.outline (n : Node) : Outline :=
  ⟨n.id, n.kind, n.tokenKind?, n.range, n.children.map Node.id⟩

theorem Node.outline_relabel (hf : ∀ t, (f t).kind = t.kind) (n : Node) :
    (n.relabel f).outline = n.outline := by
  rw [outline, id_relabel, kind_relabel, tokenKind?_relabel hf, range_relabel, children_relabel,
    List.map_map]
  rfl

namespace Document

/-- **Reformatting changes nothing but places.** Two texts without unknown pieces, whose tokens have
the same kinds and texts, have the same nodes, the same messages of errors and the same canonical
forms, and every configuration finds the same in them, in the same order. -/
theorem reformatting_changes_places_only {text text' : String}
    (hunknown : (Scan.ofText (Text.withoutMark text)).unknown = [])
    (hunknown' : (Scan.ofText (Text.withoutMark text')).unknown = [])
    (hsigns : (Scan.ofText (Text.withoutMark text)).tokens.map Token.sign =
      (Scan.ofText (Text.withoutMark text')).tokens.map Token.sign) :
    (ofText text).nodes.map Node.outline = (ofText text').nodes.map Node.outline ∧
      (ofText text).errors.map (·.message) = (ofText text').errors.map (·.message) ∧
      (ofText text).nodes.map (·.tree.canonical) = (ofText text').nodes.map (·.tree.canonical) ∧
      ∀ (c : Config) (r : Runner Unit), c.runner? = .ok r →
        (r.run (ofText text)).map Diagnostic.summary =
          (r.run (ofText text')).map Diagnostic.summary := by
  obtain ⟨f, h⟩ := exists_reformats hunknown hunknown' hsigns
  refine ⟨?_, ?_, ?_, fun c r hr ↦ Runner.map_summary_run (fun p hp ↦ ?_) h⟩
  · rw [h.nodes_eq, List.map_map]
    exact List.map_congr_left fun n _ ↦ (n.outline_relabel h.kind).symm
  · rw [← List.forall₂_eq_eq_eq, List.forall₂_map_left_iff, List.forall₂_map_right_iff]
    exact h.errors.imp fun _ _ he ↦ he.1
  · rw [h.nodes_eq, List.map_map]
    refine List.map_congr_left fun n _ ↦ (Tree.canonical_eq_iff _ _).2 ?_
    exact Tree.isomorphic_relabel h.sign n.tree
  · obtain ⟨rule, limit, hpass⟩ := Config.exists_rule_of_mem_passes hr hp
    rw [hpass]
    exact rule.ignoresLayout limit

/-- A variable that is compared with itself, on one line and on several, with a comment and an
instruction to the preprocessor in between. -/
theorem comparison_is_found_in_both_layouts :
    ∃ text text' : String, text = "Х=А=А" ∧ text' = "Х=// а\n#Если\nА = А" ∧
      (Scan.ofText (Text.withoutMark text)).unknown = [] ∧
      (Scan.ofText (Text.withoutMark text')).unknown = [] ∧
      (Scan.ofText (Text.withoutMark text)).tokens.map Token.sign =
        (Scan.ofText (Text.withoutMark text')).tokens.map Token.sign ∧
      ∃ r, Config.standard.runner? = .ok r ∧ (r.run (ofText text')).map Diagnostic.summary =
        [⟨"IdenticalExpressions", .error, some 8⟩] := by
  obtain ⟨text, htext⟩ : ∃ text, text = "Х=А=А" := ⟨_, rfl⟩
  obtain ⟨text', htext'⟩ : ∃ text', text' = "Х=// а\n#Если\nА = А" := ⟨_, rfl⟩
  have hunknown : (Scan.ofText (Text.withoutMark text)).unknown = [] := by
    rw [htext, Scan.ofText_eq_evaluated]
    decide +kernel
  have hunknown' : (Scan.ofText (Text.withoutMark text')).unknown = [] := by
    rw [htext', Scan.ofText_eq_evaluated]
    decide +kernel
  have hsigns : (Scan.ofText (Text.withoutMark text)).tokens.map Token.sign =
      (Scan.ofText (Text.withoutMark text')).tokens.map Token.sign := by
    rw [htext, htext', Scan.ofText_eq_evaluated, Scan.ofText_eq_evaluated]
    decide +kernel
  -- What is found is computed in the first layout only.
  have hfound : Config.standard.runner?.toOption.map (fun r ↦
      (r.run (ofText text)).map Diagnostic.summary) =
        some [⟨"IdenticalExpressions", .error, some 8⟩] := by
    rw [htext, Document.ofText_eq_evaluated]
    decide +kernel
  obtain ⟨-, -, -, hrun⟩ := reformatting_changes_places_only hunknown hunknown' hsigns
  refine ⟨text, text', htext, htext', hunknown, hunknown', hsigns, ?_⟩
  cases hr : Config.standard.runner? with
  | error e =>
    rw [hr] at hfound
    exact nomatch hfound
  | ok r =>
    rw [hr] at hfound
    exact ⟨r, rfl, (hrun _ r hr).symm.trans (Option.some.inj hfound)⟩

end Document

end BslLint
