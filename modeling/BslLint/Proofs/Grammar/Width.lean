import BslLint.Proofs.Grammar.Coverage

/-!
# Nodes without tokens

A node may be without tokens: an argument left out, an empty block, an expression that is missing.
Two things can be said of every tree that the parser makes, of faulty text as well. The name of a
type is one token, and an expression without tokens is nothing but an error node, so nothing can be
found in it.

What is below the node of an expression has a form in every tree too: there are members with an
operation between each two of them, and nothing else (`Grammar.everywhere_alternating`).
-/

namespace BslLint

namespace Grammar

open BslLint.Parser

variable {inner : Parser} {ts : List Token}

/-- What stands where an expression is missing. -/
def missingExpression : Tree := .node .expression [.node .member [.node .error []]]

/-- The name of a type is one token, and an expression has tokens or is missing. -/
structure Filled (t : Tree) : Prop where
  typeName : t.kind = .typeName → ∃ x, t = .node .typeName [.leaf x]
  expression : t.kind = .expression → 0 < t.width ∨ t = missingExpression

theorem filled_of_ne {t : Tree} (htype : t.kind ≠ .typeName) (hexpr : t.kind ≠ .expression) :
    Filled t := ⟨fun h ↦ absurd h htype, fun h ↦ absurd h hexpr⟩

theorem filled_leaf (x : Token) : Filled (.leaf x) := filled_of_ne nofun nofun

theorem filled_typeName (x : Token) : Filled (.node .typeName [.leaf x]) :=
  ⟨fun _ ↦ ⟨x, rfl⟩, nofun⟩

theorem filled_expression {cs : List Tree} (h : 0 < (Tree.node .expression cs).width ∨
    Tree.node .expression cs = missingExpression) : Filled (.node .expression cs) :=
  ⟨nofun, fun _ ↦ h⟩

/-! ### Members read something -/

theorem progress_constValue (hts : ts ≠ []) (h : ∀ k, peek ts = some k → isConstant k = true) :
    Progress (constValue false) ts := by
  refine Progress.node ?_ _
  show Progress (select _) ts
  refine progress_select fun k hk ↦ ?_
  split
  · exact Progress.many (by rw [isAt, hk, beq_self_eq_true]) (progress_one hts)
  next kind _ =>
    rw [if_pos (h kind hk)]
    exact progress_one hts
  · cases ts with
    | nil => exact absurd rfl hts
    | cons t ts => cases hk

theorem progress_complexIdentifier (hts : ts ≠ []) : Progress (complexIdentifier inner) ts := by
  have hone : Progress one ts := progress_one hts
  refine ((progress_select fun k _ ↦ ?_).seq _).node _
  split
  · exact ((hone.seq _).seq _).node _
  · exact (((((((hone.seq _).seq _).seq _).seq _).seq _).seq _).seq _).node _
  · exact progress_identifierHead hts

/-- A value is read, or it is missing. -/
theorem progress_value_or (inner : Parser) (ts : List Token) : Progress (valueParser inner) ts ∨
    valueParser inner ts = node .error (missing .expression) ts := by
  have hne : peek ts ≠ none → ts ≠ [] := by
    rintro hsome rfl
    exact hsome rfl
  have hselect {choice : Option Token.Kind → Parser} (h : ∀ k, peek ts = k →
      Progress (choice k) ts ∨ choice k ts = node .error (missing .expression) ts) :
      Progress (select choice) ts ∨ select choice ts = node .error (missing .expression) ts :=
    h _ rfl
  refine hselect fun k hk ↦ ?_
  split
  · exact .inl ((((progress_one (hne (by simp [hk]))).seq _).seq _).seq _)
  · exact .inl (progress_complexIdentifier (hne (by simp [hk])))
  · exact .inl (progress_complexIdentifier (hne (by simp [hk])))
  · exact .inl (progress_complexIdentifier (hne (by simp [hk])))
  -- A token that begins no value leaves a constant, or nothing.
  next kind _ _ _ _ =>
    split
    next hconst =>
      refine .inl (progress_constValue (hne (by simp [hk])) fun k hk' ↦ ?_)
      rw [← Option.some.inj (hk.symm.trans hk')]
      exact hconst
    · exact .inr rfl
  · exact .inr rfl

/-- A member reads a token, or it is an error and nothing is read. -/
theorem progress_member_or (inner : Parser) (ts : List Token) : Progress (member inner) ts ∨
    (member inner ts).trees = [.node .member [.node .error []]] ∧ (member inner ts).rest = ts := by
  cases hunary : isAtAny unaryKinds ts with
  | true =>
    have hts := ne_nil_of_isAtAny hunary
    exact .inl (((Progress.many hunary ((progress_one hts).node _)).seq _).node _)
  | false =>
    have hmember : member inner ts = node .member (nothing ++ valueParser inner) ts := by
      rw [member_eq]
      show Step.wrap .member (Step.andThen (many _ _ ts) (valueParser inner (many _ _ ts).rest)) = _
      rw [many_of_stop hunary]
      rfl
    rw [Progress, hmember]
    refine (progress_value_or inner ts).imp id fun hmissing ↦ ?_
    show [Tree.node .member (valueParser inner ts).trees] = _ ∧ (valueParser inner ts).rest = ts
    rw [hmissing]
    exact ⟨rfl, rfl⟩

/-- An expression reads a token, or it is missing. -/
theorem members_width (inner : Parser) (ts : List Token) :
    0 < Tree.widthAll (members inner ts).trees ∨
      (members inner ts).trees = [missingExpression] := by
  have hwidth : Progress (members inner) ts → 0 < Tree.widthAll (members inner ts).trees := by
    intro h
    have hlength := congrArg List.length (members inner ts).tokens_append_rest
    rw [List.length_append, Tree.length_tokensAll] at hlength
    rw [Progress] at h
    omega
  obtain hprogress | ⟨htrees, hrest⟩ := progress_member_or inner ts
  · exact .inl (hwidth ((hprogress.seq _).node _))
  · -- The operator and the members behind it are read only if there is an operator.
    have hmembers : members inner ts =
        ((member inner ts).andThen (many atBinaryOperator (operation ++ member inner)
          (member inner ts).rest)).wrap .expression := rfl
    cases hoperator : atBinaryOperator ts with
    | true =>
      have hne : ts ≠ [] := by
        rintro rfl
        exact Bool.false_ne_true hoperator
      have hoperation : Progress operation ts := by
        refine (progress_select fun k _ ↦ ?_).node _
        rcases k with - | k
        · exact progress_one hne
        · dsimp only
          split
          · exact (progress_one hne).node _
          · split
            · exact (progress_one hne).node _
            · exact progress_one hne
      refine .inl (hwidth ?_)
      rw [Progress, hmembers]
      show (many atBinaryOperator (operation ++ member inner)
        (member inner ts).rest).rest.length < _
      rw [hrest]
      exact Progress.many hoperator (hoperation.seq _)
    | false =>
      refine .inr ?_
      rw [hmembers]
      show [Tree.node .expression ((member inner ts).trees ++
        (many atBinaryOperator (operation ++ member inner) (member inner ts).rest).trees)] = _
      rw [hrest, many_of_stop hoperator, htrees]
      rfl

/-! ### Files -/

/-- What holds of tokens and of all nodes but those for types and for expressions holds everywhere
in a file, if it holds of types as they are named and of expressions as they are read. -/
theorem everywhere_file_of {Q : Tree → Prop} (hleaf : ∀ x, Q (.leaf x))
    (hnode : ∀ {k cs}, k ≠ .typeName ∧ k ≠ .expression → Q (.node k cs))
    (htype : ∀ x, Q (.node .typeName [.leaf x]))
    (hexpr : ∀ inner ts cs, (members inner ts).trees = [.node .expression cs] →
      Q (.node .expression cs)) (ts : List Token) : Tree.Everywhere Q (file ts).trees := by
  have hinvariant := invariant_everywhere hleaf hnode
  have hord : ∀ k, isOrdinary k = true → k ≠ .typeName ∧ k ≠ .expression := by
    intro k hk
    constructor <;> rintro rfl <;> exact Bool.false_ne_true hk
  have htypeName : Keeps (fun cs _ ↦ Tree.Everywhere Q cs)
      (when (isAt .identifier) (node .typeName one)) := by
    intro ts
    -- A type is named by an identifier alone.
    cases hat : isAt .identifier ts with
    | false =>
      rw [when, ifAhead_neg hat]
      exact .nil
    | true =>
      obtain ⟨t, us, rfl, -⟩ := isAt_iff.1 hat
      rw [when, ifAhead_pos hat]
      exact .node (htype t) (.leaf (hleaf t))
  have hclosed := hinvariant.fullyClosed hord
    (fun _ ↦ .node (hnode ⟨by decide, by decide⟩)) htypeName
  have hexpression : Keeps (fun cs _ ↦ Tree.Everywhere Q cs) expression :=
    hclosed.fix (fun _ _ ts hagree ↦ agreeBelow_members hagree ts (Nat.lt_succ_self _))
      fun inner hinner ts ↦ .node (hexpr inner ts _ rfl) (closed_row hclosed.toClosed hinner ts)
  have hsub : Keeps (fun cs _ ↦ Tree.Everywhere Q cs) sub :=
    hinvariant.keeps_node ⟨by decide, by decide⟩ (closed_procedure_or_function hclosed hexpression)
  exact .node (hnode ⟨by decide, by decide⟩) (keeps_moduleVars_runs hinvariant hclosed hexpression
    (hclosed.far_when byKind_atSub hsub) ts)

/-- **In the tree of a file the names of types are tokens, and expressions without tokens are
missing.** -/
theorem everywhere_filled (ts : List Token) : Tree.Everywhere Filled (file ts).trees := by
  refine everywhere_file_of filled_leaf (fun hk ↦ filled_of_ne hk.1 hk.2) filled_typeName
    (fun inner ts cs hcs ↦ filled_expression ?_) ts
  have hwidth := members_width inner ts
  rw [hcs] at hwidth
  exact hwidth.imp id List.head_eq_of_cons_eq

/-! ### Members and operations take turns -/

/-- Members with an operation between each two of them. -/
inductive Alternating : List Tree → Prop where
  | member (cs : List Tree) : Alternating [.node .member cs]
  | operation (cs ds : List Tree) {ts : List Tree} (h : Alternating ts) :
    Alternating (.node .member cs :: .node .operation ds :: ts)

/-- More operations with members behind them still take turns with the member in front. -/
theorem alternating_append_many (inner : Parser) (ts : List Token) (cs : List Tree) :
    Alternating
      (.node .member cs :: (many atBinaryOperator (operation ++ member inner) ts).trees) := by
  revert cs
  refine many_induction (motive := fun _ s ↦ ∀ cs, Alternating (.node .member cs :: s.trees))
    (fun _ _ cs ↦ ?_) (fun ts _ _ cs ↦ ?_) (fun ts _ _ ih cs ↦ ?_) ts
  · exact .member cs
  · exact .operation cs _ (.member _)
  · exact .operation cs _ (ih _)

/-- **In the tree of a file, members and operations take turns below expressions.** -/
theorem everywhere_alternating (ts : List Token) :
    Tree.Everywhere (fun t ↦ t.kind = .expression → Alternating t.children) (file ts).trees := by
  refine everywhere_file_of (fun _ ↦ nofun) (fun hk h ↦ absurd h hk.2) (fun _ ↦ nofun)
    (fun inner ts cs hcs _ ↦ ?_) ts
  obtain rfl := (Tree.node.inj (List.head_eq_of_cons_eq hcs)).2
  exact alternating_append_many inner _ _

end Grammar

end BslLint
