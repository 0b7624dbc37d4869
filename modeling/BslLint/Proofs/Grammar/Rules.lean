import BslLint.Proofs.Grammar.Lookahead

/-!
# Every rule has a property that parsers pass on

One walk over the grammar, rule by rule, for all properties at once. What a property of interest is
about is left to the caller: the nodes of a whole file, of a procedure and of an expression. For the
rules that lie inside of expressions the parser for expressions is a parameter, and for the rest of
the grammar what is asked is that `expression` has the property; `closed_expression` gives that
where its own node is like others.
-/

namespace BslLint.Grammar

open BslLint.Parser

variable {K : Parser → Prop}

section

variable (h : Closed K)

include h

/-! ### Expressions -/

/-- Signs and the words for logic are read alike. -/
theorem closed_operation : K operation := by
  refine h.node rfl (h.select_of_forall fun k ↦ ?_)
  rcases k with - | k
  · exact h.one
  · simp only
    split
    · exact h.node rfl h.one
    · split
      · exact h.node rfl h.one
      · exact h.one

/-- A constant is closed with or without the sign in front of a number. -/
theorem closed_constValue (signed : Bool) : K (constValue signed) := by
  have hsign : Near fun ts ↦ signed && isAtAny [.minus, .plus] ts := fun _ _ hpeek ↦
    congrArg (signed && ·) (near_isAtAny _ hpeek)
  refine h.node rfl (h.seq (h.when hsign h.one) (h.select_of_forall fun k ↦ ?_))
  split
  · exact h.many (near_isAt _) h.one
  · split
    · exact h.one
    · exact h.missing _
  · exact h.missing _

section

variable {inner : Parser} (hinner : K inner)

include hinner

/-- An argument may be left out, so nothing is asked of it. -/
theorem closed_callParam : K (callParam inner) :=
  h.node rfl (h.when ((near_isAt _).not.and (near_isAt _).not) hinner)

theorem closed_doCall : K (doCall inner) :=
  h.node rfl (h.seq (h.seq (h.expect _)
    (h.node rfl (h.commaSeparated (closed_callParam h hinner)))) (h.expect _))

theorem closed_globalMethodCall : K (globalMethodCall inner) :=
  h.node rfl (h.seq (h.node rfl h.one) (closed_doCall h hinner))

/-- A name may be followed by a call. -/
theorem closed_identifierHead : K (identifierHead inner) :=
  h.ifAhead (byKind_look 1 (· == some .leftParen)) settled_identifierHead
    (closed_globalMethodCall h hinner) h.one

/-- Behind a dot there is a name, and behind this a call may follow. -/
theorem closed_memberAccess : K (memberAccess inner) := by
  have hnamed : ByKind fun ts ↦ (look 1 ts).any Token.Kind.isNameLike :=
    byKind_look 1 (·.any Token.Kind.isNameLike)
  rw [memberAccess_eq]
  refine h.node rfl (h.ifAhead (hnamed.and (byKind_look 2 (· == some .leftParen)))
    settled_memberAccess ?_ (h.ifAhead hnamed settled_accessProperty ?_ ?_))
  · exact h.node rfl (h.seq h.one
      (h.node rfl (h.seq (h.node rfl h.one) (closed_doCall h hinner))))
  · exact h.node rfl (h.seq h.one h.one)
  · exact h.node rfl (h.seq h.one (h.missing _))

theorem closed_indexAccess : K (indexAccess inner) :=
  h.node rfl (h.node rfl (h.seq (h.seq h.one hinner) (h.expect _)))

theorem closed_modifiers : K (modifiers inner) :=
  h.many (near_isAtAny _)
    (h.choice (near_isAt _) (closed_memberAccess h hinner) (closed_indexAccess h hinner))

theorem closed_newExpression : K (newExpression inner) :=
  h.node rfl (h.seq (h.seq h.one h.typeName) (h.when (near_isAt _) (closed_doCall h hinner)))

theorem closed_ternaryOperator : K (ternaryOperator inner) := by
  refine h.node rfl (h.seq (h.seq (h.seq (h.seq (h.seq (h.seq (h.seq h.one ?_) hinner) ?_) hinner)
    ?_) hinner) ?_) <;> exact h.expect _

/-- A value is made, chosen or named, and then accessed. -/
theorem closed_complexIdentifier : K (complexIdentifier inner) := by
  refine h.node rfl (h.seq (h.select_of_forall fun k ↦ ?_) (closed_modifiers h hinner))
  split
  · exact closed_newExpression h hinner
  · exact closed_ternaryOperator h hinner
  · exact closed_identifierHead h hinner

/-- Signs in front of a member are read one by one. -/
theorem closed_member : K (member inner) := by
  refine h.node rfl (h.seq (h.many (near_isAtAny _) (h.node rfl h.one))
    (h.select_of_forall fun k ↦ ?_))
  split
  · exact h.seq (h.seq (h.seq h.one hinner) (h.expect _)) (closed_modifiers h hinner)
  · exact closed_complexIdentifier h hinner
  · exact closed_complexIdentifier h hinner
  · exact closed_complexIdentifier h hinner
  · split
    · exact closed_constValue h false
    · exact h.error_missing _
  · exact h.error_missing _

/-- The members of an expression and the operators between them, without the node around them. -/
theorem closed_row : K (member inner ++ many atBinaryOperator (operation ++ member inner)) :=
  h.seq (closed_member h hinner)
    (h.many near_atBinaryOperator (h.seq (closed_operation h) (closed_member h hinner)))

end

/-- The rules call for expressions again, and so the proof does: by induction on the tokens that are
left. -/
theorem closed_expression (hnode : ∀ {p}, K p → K (Parser.node .expression p)) : K expression :=
  h.fix (fun _ _ ts hagree ↦ agreeBelow_members hagree ts (Nat.lt_succ_self _)) fun _ hinner ↦
    hnode (closed_row h hinner)

/-! ### Statements -/

/-- What fits no rule is read into a node of its own. -/
theorem closed_unexpected : K unexpected :=
  h.error (fun _ ↦ List.cons_ne_nil _ _) (h.seq (h.seq (h.seq (h.missing _) h.one)
    (h.many ((near_isEmpty.not.and (near_isAt _).not).and (near_isAtAny _).not) h.one)) (h.eat _))

/-- A label is read with its colon or without. -/
theorem closed_label (withColon : Bool) : K (label withColon) := by
  refine h.node rfl (h.seq (h.seq h.one (h.expectName _)) ?_)
  split
  · exact h.expect _
  · exact h.nothing

theorem closed_gotoStatement : K gotoStatement :=
  h.node rfl (h.seq h.one (h.choice (near_isAt _) (closed_label h _) (h.missing _)))

theorem closed_statementEnd : K statementEnd :=
  h.choice (near_isAt _) h.one (h.choice near_atBoundary h.nothing (h.missing _))

section

variable (hexpr : K expression)

include hexpr

/-- The left side is a value with accesses, and the right side an expression. -/
theorem closed_assignment : K assignment :=
  h.node rfl (h.seq (h.seq (h.node rfl (h.seq (closed_identifierHead h hexpr)
    (closed_modifiers h hexpr))) (h.expect _)) hexpr)

theorem closed_callStatement : K callStatement :=
  h.node rfl (h.seq (closed_identifierHead h hexpr) (closed_modifiers h hexpr))

theorem closed_returnStatement : K returnStatement :=
  h.node rfl (h.seq h.one (h.choice near_atStatementEnd h.nothing hexpr))

/-- A raise may name its error with or without parentheses. -/
theorem closed_raiseStatement : K raiseStatement :=
  h.node rfl (h.seq h.one (h.choice near_atStatementEnd h.nothing
    (h.ifAhead ((near_isAt _).byKind.and fun _ hf ts ↦ commaAhead_map hf 0 ts)
      settled_raiseStatement (closed_doCall h hexpr) hexpr)))

/-- The choice is made at an identifier, and there it is settled. -/
theorem closed_assignment_or_call :
    K (Parser.when (peek · == some .identifier)
      (Parser.ifAhead (assignmentAhead 0) assignment callStatement ++ statementEnd)) := by
  have hsame : Parser.when (peek · == some .identifier)
      (Parser.ifAhead (assignmentAhead 0) assignment callStatement ++ statementEnd) =
    Parser.when (peek · == some .identifier)
      (Parser.ifAhead (fun ts ↦ isAt .identifier ts && assignmentAhead 0 ts) assignment
        callStatement
        ++ statementEnd) := by
    refine when_congr fun ts hat ↦ ?_
    have hchoice : Parser.ifAhead (assignmentAhead 0) assignment callStatement ts =
        Parser.ifAhead (fun ts ↦ isAt .identifier ts && assignmentAhead 0 ts) assignment
          callStatement ts := by
      simp only [Parser.ifAhead, isAt, hat, Bool.true_and]
    show Step.andThen _ _ = Step.andThen _ _
    rw [hchoice]
  rw [hsame]
  exact h.when (near_peek _) (h.seq (h.ifAhead
    ((near_isAt _).byKind.and fun _ hf ts ↦ assignmentAhead_map hf 0 ts) settled_assignment
    (closed_assignment h hexpr) (closed_callStatement h hexpr)) (closed_statementEnd h))

section

variable {inner : Parser} (hinner : K inner)

include hinner

/-- A condition is followed by a block. -/
theorem closed_conditionalBranch {k : NodeKind} (hk : isInner k = true) :
    K (conditionalBranch inner k) :=
  h.node hk (h.seq (h.seq (h.seq h.one hexpr) (h.expect _)) hinner)

/-- There may be any number of further branches. -/
theorem closed_ifStatement : K (ifStatement inner) :=
  h.node rfl (h.seq (h.seq (h.seq (closed_conditionalBranch h hexpr hinner rfl)
    (h.many (near_isAt _) (closed_conditionalBranch h hexpr hinner rfl)))
    (h.when (near_isAt _) (h.node rfl (h.seq h.one hinner)))) (h.expect _))

omit hexpr in
theorem closed_loopBody : K (loopBody inner) := h.seq (h.seq (h.expect _) hinner) (h.expect _)

theorem closed_whileStatement : K (whileStatement inner) :=
  h.node rfl (h.seq (h.seq h.one hexpr) (closed_loopBody h hinner))

theorem closed_forStatement : K (forStatement inner) :=
  h.node rfl (h.seq (h.seq (h.seq (h.seq (h.seq (h.seq h.one (h.expectName _)) (h.expect _)) hexpr)
    (h.expect _)) hexpr) (closed_loopBody h hinner))

theorem closed_forEachStatement : K (forEachStatement inner) :=
  h.node rfl (h.seq (h.seq (h.seq (h.seq (h.seq h.one h.one) (h.expectName _)) (h.expect _)) hexpr)
    (closed_loopBody h hinner))

omit hexpr in
/-- Both blocks of an attempt are blocks of statements. -/
theorem closed_tryStatement : K (tryStatement inner) :=
  h.node rfl (h.seq (h.seq (h.seq (h.seq h.one (h.node rfl hinner)) (h.expect _))
    (h.node rfl hinner)) (h.expect _))

/-- The form of a statement is chosen by its first token. -/
theorem closed_statementBody : K (statementBody inner) := by
  -- All forms but a label end in the same way, and were chosen by looking at one token.
  have hend : ∀ {p : Parser}, K p → K (p ++ statementEnd) := fun hp ↦
    h.seq hp (closed_statementEnd h)
  have hat : ∀ {k : Option Token.Kind} {p : Parser}, K p → K (Parser.when (peek · == k) p) :=
    fun hp ↦ h.when (near_peek _) hp
  refine h.select fun k ↦ ?_
  split
  · exact hat (hend (closed_ifStatement h hexpr hinner))
  · exact hat (hend (closed_whileStatement h hexpr hinner))
  · exact hat (hend (h.ifAhead (byKind_look 1 (· == some (.keyword .each))) settled_forStatement
      (closed_forEachStatement h hexpr hinner) (closed_forStatement h hexpr hinner)))
  · exact hat (hend (closed_tryStatement h hinner))
  · exact hat (hend (closed_returnStatement h hexpr))
  · exact hat (hend (h.node rfl h.one))
  · exact hat (hend (h.node rfl h.one))
  · exact hat (hend (closed_raiseStatement h hexpr))
  · exact hat (hend (closed_gotoStatement h))
  · exact closed_assignment_or_call h hexpr
  · exact hat (closed_statementEnd h)
  · exact hat (closed_unexpected h)

/-- A statement is read with the semicolon behind it. -/
theorem closed_statement : K (statement inner) := by
  have hbody : K (statementBody inner) := closed_statementBody h hexpr hinner
  have hlabelled := h.seq (closed_label h true)
    (h.choice near_atStatementEnd (h.eat .semicolon) hbody)
  exact h.node rfl (h.ifAhead ((near_isAt _).byKind.and (byKind_look 2 (· == some .colon)))
    settled_label hlabelled hbody)

theorem closed_statements : K (statements inner) :=
  h.node rfl (h.many near_atBoundary.not (closed_statement h hexpr hinner))

end

/-- Statements hold blocks and blocks hold statements, so this goes by induction on the tokens as
well. -/
theorem closed_block : K block :=
  h.fix (fun _ _ ts hagree ↦ agreeBelow_statements hagree ts (Nat.lt_succ_self _)) fun _ hinner ↦
    closed_statements h hexpr hinner

/-! ### Procedures -/

theorem closed_compilerDirectives : K compilerDirectives :=
  h.many (near_isAt _) (h.node rfl (h.seq h.one (h.when (near_isAt _) (closed_doCall h hexpr))))

omit hexpr in
/-- A parameter may have annotations, a word in front and a default behind. -/
theorem closed_param : K param :=
  h.node rfl (h.seq (h.seq (h.eat _) (h.expectName _))
    (h.when (near_isAt _) (h.node rfl (h.seq h.one (closed_constValue h true)))))

omit hexpr in
theorem closed_paramList : K paramList :=
  h.node rfl (h.choice (near_isAt _) (h.seq (h.seq h.one
    (h.choice (near_isAt _) h.nothing (h.commaSeparated (closed_param h)))) (h.expect _))
    (h.missing _))

/-- What stands in front of the body of a procedure. -/
theorem closed_subDeclaration {k : NodeKind} (hnode : ∀ {p}, K p → K (node k p)) :
    K (subDeclaration k) :=
  hnode (h.seq (h.seq (h.seq (h.seq (closed_compilerDirectives h hexpr) h.one)
    (h.choice (near_isAt _) (h.node rfl h.one) (h.missing _))) (closed_paramList h)) (h.eat _))

omit hexpr in
theorem closed_subVar : K subVar :=
  h.node rfl (h.seq (h.seq h.one (h.node rfl (h.commaSeparated (h.node rfl (h.expectName _)))))
    (h.expect _))

theorem closed_subCodeBlock : K subCodeBlock :=
  h.node rfl (h.seq (h.when (near_isAt _)
    (h.node rfl (h.many (near_isAt _) (closed_subVar h)))) (closed_block h hexpr))

/-- A procedure or a function up to the word that ends it. -/
theorem closed_subBody {k : NodeKind} (hnode : ∀ {p}, K p → K (node k p)) :
    K (subDeclaration k ++ subCodeBlock) :=
  h.seq (closed_subDeclaration h hexpr hnode) (closed_subCodeBlock h hexpr)

/-! ### Variables of modules -/

/-- Variables of a module may be exported. -/
theorem closed_moduleVar (hnode : ∀ {p}, K p → K (node .moduleVar p)) : K moduleVar :=
  hnode (h.seq (h.seq (h.seq (closed_compilerDirectives h hexpr) h.one)
    (h.node rfl (h.commaSeparated (h.node rfl (h.seq (h.expectName _) (h.eat _))))))
    (h.expect _))

end

end

/-! ### Runs -/

section

variable (h : FarClosed K) (hexpr : K expression)

include h

/-- Variables are read where they are declared, so that may be used of `moduleVar`. -/
theorem closed_moduleVars (hvar : K (Parser.when atModuleVar moduleVar)) :
    K (Parser.when atModuleVar (Parser.node .moduleVars (many atModuleVar moduleVar))) := by
  rw [← many_when]
  exact h.far_when byKind_atModuleVar (h.node rfl (h.far_many byKind_atModuleVar hvar))

include hexpr

theorem closed_fileCodeBlock : K fileCodeBlock :=
  h.node rfl (h.node rfl (h.far_many (near_isEmpty.not.byKind.and byKind_atSub.not)
    (closed_statement h.toClosed hexpr (closed_block h.toClosed hexpr))))

/-- Procedures are read where they are declared, so that may be used of `sub`. -/
theorem closed_run (hsub : K (Parser.when atSub sub)) : K run := by
  rw [run, ← many_when]
  exact h.far_ifAhead byKind_atSub (h.node rfl (h.far_many byKind_atSub hsub))
    (closed_fileCodeBlock h hexpr)

end

/-! ### Modules -/

section

variable (h : FullyClosed K) (hexpr : K expression)

include h hexpr

/-- A procedure or a function, without the node around both. -/
theorem closed_procedure_or_function :
    K (Parser.ifAhead (fun ts ↦ isAt (.keyword .function) (afterDirectives ts))
      (Parser.node .function
        (subDeclaration .funcDeclaration ++ subCodeBlock ++ expect (.keyword .endFunction)))
      (Parser.node .procedure
        (subDeclaration .procDeclaration ++ subCodeBlock ++ expect (.keyword .endProcedure)))) := by
  have hclosed := h.toClosed
  have hbody : ∀ k kind word, isDeclaration k = true → isDeclaration kind = true →
      K (Parser.node k (subDeclaration kind ++ subCodeBlock ++ expect word)) :=
    fun k kind word hk hkind ↦ h.declaration hk
      (hclosed.seq (closed_subBody hclosed hexpr (h.declaration hkind)) (hclosed.expect _))
  exact h.far_ifAhead (byKind_afterDirectives (near_isAt _).byKind) (hbody _ _ _ rfl rfl)
    (hbody _ _ _ rfl rfl)

/-- The parts of a file, that is, all of it but its own node. -/
theorem closed_moduleVars_runs (hruns : K runs) :
    K (Parser.when atModuleVar (Parser.node .moduleVars (many atModuleVar moduleVar)) ++ runs) :=
  h.seq (closed_moduleVars h.toFarClosed (h.far_when byKind_atModuleVar
    (closed_moduleVar h.toClosed hexpr (h.declaration rfl)))) hruns

end

/-! ### Invariants of modules -/

section

variable {admitted : NodeKind → Prop} {P : List Tree → List Fault → Prop}
  (h : Invariant admitted P) (hclosed : FullyClosed (Keeps P)) (hexpr : Keeps P expression)
  (hsub : Keeps P (Parser.when atSub sub))

include h hclosed hexpr hsub

/-- Runs of procedures and of code alternate until the text is read. -/
theorem keeps_runs : Keeps P runs := by
  intro ts
  unfold runs
  fun_induction runsFrom false ts with
  | case1 => exact h.nothing
  | case2 => exact closed_fileCodeBlock hclosed.toFarClosed hexpr _
  | case3 coded ts hts s hs ih => exact h.append (closed_run hclosed.toFarClosed hexpr hsub ts) ih
  | case4 coded ts hts s hs => exact closed_run hclosed.toFarClosed hexpr hsub ts

/-- Below the node of a file an invariant holds. -/
theorem keeps_moduleVars_runs :
    Keeps P
      (Parser.when atModuleVar (Parser.node .moduleVars (many atModuleVar moduleVar)) ++ runs) :=
  closed_moduleVars_runs hclosed hexpr (keeps_runs h hclosed hexpr hsub)

end

end BslLint.Grammar
