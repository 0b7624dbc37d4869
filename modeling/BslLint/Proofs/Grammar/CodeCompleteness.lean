import BslLint.Proofs.Grammar.Assignment
import BslLint.Proofs.Grammar.Code
import BslLint.Proofs.Grammar.Completeness
import BslLint.Proofs.Grammar.Lookahead
import BslLint.Proofs.Grammar.Unfolding

/-!
# What is derived is read: statements

The parser for blocks reads what the grammar of statements derives, with the trees of the derivation
(`DerivesCode.isRead`). A block ends where a word comes that closes it, or the text ends, and this
is what every part of code relies on: no action is continued by a semicolon or by a word that closes
a block. The two choices that are made by scanning ahead come out right since what is derived is
balanced: in a call no equals sign stands outside of parentheses, and in an expression that begins
with a parenthesis no comma does inside of it and of no other.
-/

namespace BslLint.Grammar

open BslLint.Parser

/-! ### What may come behind code -/

/-- A word that closes a block is next, or nothing. -/
abbrev ClosesBlock (k : List Token) : Prop := Meets blockEnds k

/-- A semicolon is next, or a word that closes a block, or nothing. -/
abbrev ClosesStatement (k : List Token) : Prop := Meets (.semicolon :: blockEnds) k

variable {inner : Parser} {k us w : List Token} {cs ds : List Tree}

theorem ClosesBlock.closesStatement (h : ClosesBlock k) : ClosesStatement k :=
  h.mono (List.subset_cons_self _ _)

/-- A word that closes a block is a boundary for statements, -/
theorem ClosesBlock.atBoundary (h : ClosesBlock k) : atBoundary k = true := by
  cases k with
  | nil => rfl
  | cons t k =>
    have hend : isAtAny blockEnds (t :: k) = true := by
      rw [isAtAny_cons, List.contains_eq_mem, decide_eq_true_iff]
      exact meets_cons.1 h
    rw [Grammar.atBoundary, hend, Bool.or_true, Bool.true_or]

/-- and a semicolon closes a statement as well. -/
theorem ClosesStatement.cases (h : ClosesStatement k) :
    (∃ s ts, k = s :: ts ∧ s.kind = .semicolon) ∨ ClosesBlock k := by
  cases k with
  | nil => exact .inr meets_nil
  | cons t k =>
    obtain ht | ht := List.mem_cons.1 (meets_cons.1 h)
    · exact .inl ⟨t, k, rfl, ht⟩
    · exact .inr (meets_cons.2 ht)

theorem ClosesStatement.atStatementEnd (h : ClosesStatement k) : atStatementEnd k = true := by
  obtain ⟨s, ts, rfl, hs⟩ | hblock := h.cases
  · rw [Grammar.atStatementEnd, isAt_iff.2 ⟨s, ts, rfl, hs⟩, Bool.true_or]
  · rw [Grammar.atStatementEnd, hblock.atBoundary, Bool.or_true]

/-- Where a statement may end, a semicolon is all that its end is. -/
theorem ClosesStatement.statementEnd_eq (h : ClosesStatement k) :
    statementEnd k = eat .semicolon k := by
  obtain ⟨s, ts, rfl, hs⟩ | hblock := h.cases
  · have hat : isAt .semicolon (s :: ts) = true := isAt_iff.2 ⟨s, ts, rfl, hs⟩
    rw [statementEnd, eat, when, ifAhead_pos hat, ifAhead_pos hat]
  · have hat : isAt .semicolon k = false := hblock.isAt_eq_false (by decide)
    rw [statementEnd, eat, when, ifAhead_neg hat, ifAhead_neg hat, ifAhead_pos hblock.atBoundary]

/-- The scan for an equals sign ends where the statement does. -/
theorem ClosesStatement.assignmentAhead (h : ClosesStatement k) : assignmentAhead 0 k = false := by
  cases k with
  | nil => rfl
  | cons t k =>
    have ht := meets_cons.1 h
    simp only [blockEnds, List.mem_cons, List.not_mem_nil, or_false] at ht
    rcases ht with ht | ht | ht | ht | ht | ht | ht | ht | ht <;>
      rw [Grammar.assignmentAhead, ht] <;> rfl

theorem ClosesStatement.ends_expression (h : ClosesStatement k) : Part.expression.Ends k :=
  h.avoids (by decide)

/-- A statement does not end in front of what is none of its ends. -/
theorem atStatementEnd_of_notMem {t : Token} (ht : t.kind ∉ endKinds) :
    atStatementEnd (t :: k) = false := by
  have hsemicolon : isAt .semicolon (t :: k) = false := by
    rw [isAt_cons, beq_eq_false_iff_ne]
    exact fun h ↦ ht (h ▸ List.mem_cons_self)
  rw [atStatementEnd, hsemicolon, Bool.false_or, Bool.eq_false_iff]
  intro hboundary
  obtain hnil | ⟨s, ts, hs, hmem⟩ := exists_of_atBoundary hboundary
  · exact nomatch hnil
  · obtain ⟨rfl, -⟩ := List.cons.inj hs
    exact ht hmem

/-- There a semicolon is missing. -/
theorem statementEnd_of_notMem {t : Token} (ht : t.kind ∉ endKinds) :
    statementEnd (t :: k) = missing (.token .semicolon) (t :: k) := by
  obtain ⟨hsemicolon, hboundary⟩ := Bool.or_eq_false_iff.1 (atStatementEnd_of_notMem (k := k) ht)
  rw [statementEnd, ifAhead_neg hsemicolon, ifAhead_neg hboundary]

/-- An expression does not begin like the end of a statement. -/
theorem Derives.not_atStatementEnd (h : Derives .expression w cs) (k : List Token) :
    atStatementEnd (w ++ k) = false := by
  have hfirsts : ∀ kind ∈ Part.expression.firsts, kind ∉ endKinds := by decide
  obtain ⟨t, ts, rfl, ht⟩ := h.begins_of_ne rfl
  exact atStatementEnd_of_notMem (hfirsts _ ht)

/-! ### Statements without statements inside -/

/-- An action is read, with the end of the statement behind it. -/
structure ActionIsRead (w : List Token) (cs : List Tree) : Prop where
  /-- It begins as actions do. -/
  begins : ∃ t ts, w = t :: ts ∧ t.kind ∈ actionKinds
  /-- A semicolon behind it is read with it, if there is one. -/
  reads : ∀ ⦃k ds us⦄, ClosesStatement k → (eat .semicolon).Reads k ds us →
    (statementBody block).Reads (w ++ k) (cs ++ ds) us

/-- An action that is told by its first token is read if its parser reads it. -/
theorem actionIsRead_of_reads {p : Parser} {kind : Token.Kind} {t : Token} (ht : t.kind = kind)
    (hkind : kind ∈ actionKinds)
    (hbody : ∀ {k ds us}, (p ++ statementEnd).Reads (t :: (w ++ k)) ds us →
      (statementBody block).Reads (t :: (w ++ k)) ds us)
    (hread : ∀ {k}, ClosesStatement k → p.Reads (t :: (w ++ k)) cs k) :
    ActionIsRead (t :: w) cs where
  begins := ⟨t, w, rfl, ht ▸ hkind⟩
  reads _ _ _ hk hend := hbody ((hread hk).seq ((reads_congr hk.statementEnd_eq).2 hend))

/-- In a call to a name no equals sign stands outside of parentheses. -/
theorem Derives.assignmentAhead_of_call {u v : List Token} (head : Derives .head u cs)
    (mods : Derives .modifiers v ds) (hk : ClosesStatement k) :
    assignmentAhead 0 (u ++ (v ++ k)) = false := by
  obtain ⟨b, hb⟩ := (head.balanced.append mods.balanced).exists_assignmentAhead (by decide)
  rw [← List.append_assoc, hb, hk.assignmentAhead, Bool.and_false]

/-- A name, or a call to one, is read with the accesses behind it. -/
theorem reads_accessed {t : Token} {u v : List Token} (ht : t.kind = .identifier)
    (head : Derives .head (t :: u) cs) (mods : Derives .modifiers v ds)
    (hk : Avoids [.dot, .leftBracket, .leftParen, .identifier] k) :
    (identifierHead expression ++ modifiers expression).Reads (t :: (u ++ v) ++ k) (cs ++ ds)
      k := by
  have hbehind : Part.head.Ends (v ++ k) := mods.avoids_append (by decide) (hk.mono (by decide))
  have hread : Part.head.parser.Reads (t :: (u ++ (v ++ k))) cs (v ++ k) := head.reads _ hbehind
  rw [List.cons_append, List.append_assoc]
  exact ((reads_select_cons ht).1 hread).seq (mods.reads k (hk.mono (by decide)))

/-- Behind the word that raises an exception comes nothing, an expression or a list of arguments. -/
theorem actionIsRead_raise {r : Token} (hr : r.kind = .keyword .raise)
    (h : ∀ {k}, ClosesStatement k → (ifAhead atStatementEnd nothing (ifAhead
      (fun ts ↦ isAt .leftParen ts && commaAhead 0 ts) (doCall expression) expression)).Reads
        (w ++ k) cs k) : ActionIsRead (r :: w) [.node .raiseStatement (.leaf r :: cs)] :=
  actionIsRead_of_reads hr (by decide) (fun h ↦ (reads_select_cons hr).2 h) fun hk ↦
    ((Reads.token r _).seq (h hk)).node _

/-- **An action without statements inside is read.** -/
theorem SimpleAction.isRead (h : SimpleAction w cs) : ActionIsRead w cs := by
  cases h with
  | @assignment a e w _ ha he value =>
    refine actionIsRead_of_reads ha (by decide) (fun h ↦ (reads_select_cons ha).2 h) fun {k} hk ↦ ?_
    have hahead : assignmentAhead 0 (a :: e :: (w ++ k)) = true := by
      simp only [assignmentAhead, ha, he, BEq.rfl, Bool.true_or]
    exact (reads_ifAhead_pos hahead).2
      ((reads_assignment he).2 ⟨_, value.reads k hk.ends_expression, rfl⟩)
  | @call t u v _ _ ht head mods =>
    refine actionIsRead_of_reads ht (by decide) (fun h ↦ (reads_select_cons ht).2 h) fun {k} hk ↦ ?_
    have hread := (reads_accessed ht head mods (hk.avoids (by decide))).node .callStatement
    rw [List.cons_append, List.append_assoc] at hread
    rw [List.append_assoc]
    exact (reads_ifAhead_neg (Derives.assignmentAhead_of_call head mods hk)).2 hread
  | @returnNothing r hr =>
    refine actionIsRead_of_reads hr (by decide) (fun h ↦ (reads_select_cons hr).2 h) fun {k} hk ↦ ?_
    have hnothing := (reads_ifAhead_pos (q := expression) hk.atStatementEnd).2
      (reads_nothing.2 ⟨rfl, rfl⟩)
    exact ((Reads.token r k).seq hnothing).node _
  | @returnValue r _ _ hr value =>
    refine actionIsRead_of_reads hr (by decide) (fun h ↦ (reads_select_cons hr).2 h) fun {k} hk ↦ ?_
    have hvalue := (reads_ifAhead_neg (p := nothing) (value.not_atStatementEnd k)).2
      (value.reads k hk.ends_expression)
    exact ((Reads.token r _).seq hvalue).node _
  | reraise hr =>
    exact actionIsRead_raise hr fun hk ↦
      (reads_ifAhead_pos hk.atStatementEnd).2 (reads_nothing.2 ⟨rfl, rfl⟩)
  | raise hr value =>
    refine actionIsRead_raise hr fun {k} hk ↦ ?_
    refine (reads_ifAhead_neg (value.not_atStatementEnd k)).2 ?_
    exact (reads_ifAhead_neg (value.commaAhead_of_expression k)).2
      (value.reads k hk.ends_expression)
  | @raiseList r l u c v w e _ _ _ hr hl first hc second others he =>
    refine actionIsRead_raise hr fun {k} hk ↦ ?_
    -- The list is written like the arguments of a call, and is read as such.
    have hcall : Derives .call (l :: (u ++ (c :: (v ++ w) ++ [e]))) _ :=
      .call hl first (.arguments_cons hc second others) he
    have hread := hcall.reads k fun _ _ ↦ List.not_mem_nil
    simp only [List.cons_append, List.append_assoc, List.nil_append] at hread ⊢
    refine (reads_ifAhead_neg (atStatementEnd_of_notMem (by rw [hl]; decide))).2 ?_
    refine (reads_ifAhead_pos ?_).2 hread
    rw [first.commaAhead_of_argument hl hc, isAt_cons, hl]
    rfl
  | @goto g t n hg ht hn =>
    refine actionIsRead_of_reads hg (by decide) (fun h ↦ (reads_select_cons hg).2 h) fun {k} _ ↦ ?_
    have hlabel : (label false).Reads (t :: n :: k) [.node .label [.leaf t, .leaf n]] k :=
      (((Reads.token t _).seq (.name hn _ k)).seq (reads_nothing.2 ⟨rfl, rfl⟩)).node _
    have hat : isAt .tilde (t :: n :: k) = true := isAt_iff.2 ⟨t, _, rfl, ht⟩
    exact ((Reads.token g _).seq ((reads_ifAhead_pos hat).2 hlabel)).node _
  | breakLoop hb =>
    exact actionIsRead_of_reads hb (by decide) (fun h ↦ (reads_select_cons hb).2 h) fun _ ↦
      (Reads.token _ _).node _
  | continueLoop hc =>
    exact actionIsRead_of_reads hc (by decide) (fun h ↦ (reads_select_cons hc).2 h) fun _ ↦
      (Reads.token _ _).node _

/-! ### Statements -/

/-- A statement with what comes behind its action, which is a semicolon or nothing. -/
theorem reads_statement {l : List Token} {ls : List Tree} (hlabel : Label l ls)
    (haction : w = [] ∧ cs = [] ∨ ActionIsRead w cs) (hk : ClosesStatement k)
    (hend : (eat .semicolon).Reads k ds us) (hne : l ++ w = [] → isAt .semicolon k = true) :
    (statement block).Reads (l ++ (w ++ k)) [.node .statement (ls ++ (cs ++ ds))] us := by
  have hfirsts : ∀ kind ∈ actionKinds, kind ∉ endKinds ∧ kind ≠ .tilde := by decide
  refine Reads.node ?_ _
  cases hlabel with
  | none =>
    suffices isAt .tilde (w ++ k) = false ∧ (statementBody block).Reads (w ++ k) (cs ++ ds) us by
      refine (reads_ifAhead_neg ?_).2 this.2
      rw [List.nil_append, this.1, Bool.false_and]
    obtain ⟨rfl, rfl⟩ | haction := haction
    · -- an empty statement is told by its semicolon
      obtain ⟨s, ts, rfl, hs⟩ := isAt_iff.1 (hne rfl)
      refine ⟨by rw [List.nil_append, isAt_cons, hs]; rfl, (reads_select_cons hs).2 ?_⟩
      exact (reads_congr hk.statementEnd_eq).2 hend
    · refine ⟨?_, haction.reads hk hend⟩
      obtain ⟨t, ts, rfl, ht⟩ := haction.begins
      exact isAt_cons.trans (beq_eq_false_iff_ne.2 (hfirsts _ ht).2)
  | @some t n c ht hn hc =>
    have hahead : (isAt .tilde (t :: n :: c :: (w ++ k)) &&
        look 2 (t :: n :: c :: (w ++ k)) == some .colon) = true := by
      rw [isAt_cons, ht, show look 2 (t :: n :: c :: (w ++ k)) = some c.kind from rfl, hc]
      rfl
    have hread : (label true).Reads (t :: n :: c :: (w ++ k)) _ (w ++ k) :=
      reads_label.2 ⟨n, c, hn, hc, rfl, rfl⟩
    refine (reads_ifAhead_pos hahead).2 (hread.seq ?_)
    -- Behind a label the parser looks for the end of the statement before it looks for an action.
    obtain ⟨rfl, rfl⟩ | haction := haction
    · exact (reads_ifAhead_pos hk.atStatementEnd).2 hend
    · refine (reads_ifAhead_neg ?_).2 (haction.reads hk hend)
      obtain ⟨t, ts, rfl, ht⟩ := haction.begins
      exact atStatementEnd_of_notMem (hfirsts _ ht).1

/-! ### Parts with blocks inside -/

/-- A condition is read up to its word, and then the block. -/
theorem reads_conditionalBranch (kind : NodeKind) (i : Token) {t : Token} {u v : List Token}
    (condition : Derives .expression u cs) (ht : t.kind = .keyword .then_)
    (hinside : inner.Reads v ds k) : (conditionalBranch inner kind).Reads (i :: (u ++ t :: v))
      [.node kind (.leaf i :: (cs ++ .leaf t :: ds))] k := by
  have hcondition := condition.reads (t :: v) (avoids_token ht (by decide))
  have hall := ((((Reads.token i _).seq hcondition).seq (.expect ht v)).seq hinside).node kind
  simp only [List.append_assoc, List.cons_append, List.nil_append] at hall
  exact hall

/-- The body of a loop comes behind an expression. -/
theorem DerivesCode.ends_expression (h : DerivesCode .body w cs) :
    Part.expression.Ends (w ++ k) := by
  obtain ⟨t, ts, rfl, ht⟩ := h.begins_of_ne rfl
  exact avoids_token (List.mem_singleton.1 ht) (by decide)

/-- What the parser makes of a part of code, in front of what may come behind it. A list of
statements is read in this way by whatever goes on where a statement begins. -/
def Code.IsRead : Code → Form
  | block, w, cs => ∀ k, ClosesBlock k → Grammar.block.Reads (w ++ k) cs k
  | statements, w, cs => ∀ ahead : List Token → Bool,
      (∀ t ts, t.kind ∈ statementKinds → ahead (t :: ts) = true) →
      ∀ k, ClosesBlock k → ahead k = false →
        (many ahead (Grammar.statement Grammar.block)).Reads (w ++ k) cs k
  | statement, w, cs => ∀ k, (Grammar.statement Grammar.block).Reads (w ++ k) cs k
  | last, w, cs => ∀ k, ClosesBlock k → (Grammar.statement Grammar.block).Reads (w ++ k) cs k
  | action, w, cs => ActionIsRead w cs
  | actionOrNone, w, cs => w = [] ∧ cs = [] ∨ ActionIsRead w cs
  | elsifs, w, cs => ∀ k, Meets [.keyword .else_, .keyword .endIf] k → ClosesBlock (w ++ k) ∧
      (many (isAt (.keyword .elsIf)) (conditionalBranch Grammar.block .elsifBranch)).Reads
        (w ++ k) cs k
  | otherwise, w, cs => ∀ k, Meets [.keyword .endIf] k →
      Meets [.keyword .else_, .keyword .endIf] (w ++ k) ∧
      (when (isAt (.keyword .else_)) (node .elseBranch (one ++ Grammar.block))).Reads (w ++ k) cs k
  | body, w, cs => ∀ k, (loopBody Grammar.block).Reads (w ++ k) cs k

/-- A block is a list of statements up to a word that closes it. -/
theorem isRead_block (h : Code.statements.IsRead w cs) :
    Code.block.IsRead w [.node .codeBlock cs] := by
  intro k hk
  have hkinds : ∀ kind ∈ statementKinds, blockEnds.contains kind = false ∧
      [Token.Kind.keyword .procedure, .keyword .function, .directive].contains kind = false := by
    decide
  refine (reads_congr (block_eq _)).2 ((h (!atBoundary ·) (fun t ts ht ↦ ?_) k hk ?_).node _)
  · rw [atBoundary, isAtAny_cons, isAtAny_cons, (hkinds _ ht).1, (hkinds _ ht).2]
    rfl
  · rw [hk.atBoundary]
    rfl

/-- A loop over numbers has two bounds, each in front of its word. -/
theorem actionIsRead_forLoop {f n e t : Token} {u v : List Token} {es : List Tree}
    (hf : f.kind = .keyword .for_) (hn : n.kind = .identifier) (he : e.kind = .equal)
    (first : Derives .expression u cs) (ht : t.kind = .keyword .to_)
    (last : Derives .expression v ds) (body : DerivesCode .body w es) (h : Code.body.IsRead w es) :
    ActionIsRead (f :: n :: e :: (u ++ t :: (v ++ w)))
      [.node .forStatement (.leaf f :: .leaf n :: .leaf e :: (cs ++ .leaf t :: (ds ++ es)))] := by
  have hnext (ts : List Token) : (look 1 (f :: n :: ts) == some (.keyword .each)) = false := by
    rw [show look 1 (f :: n :: ts) = some n.kind from rfl, hn]
    rfl
  refine actionIsRead_of_reads hf (by decide) (fun h ↦ (reads_select_cons hf).2 h) fun {k} _ ↦
    (reads_ifAhead_neg (hnext _)).2 ?_
  have hfirst := first.reads (t :: (v ++ (w ++ k))) (avoids_token ht (by decide))
  have hlast := last.reads (w ++ k) body.ends_expression
  have hhead := ((Reads.token f _).seq (.name hn .loopVariable _)).seq
    (.expect he (u ++ t :: (v ++ (w ++ k))))
  have hall := ((((hhead.seq hfirst).seq (.expect ht _)).seq hlast).seq (h k)).node .forStatement
  simp only [List.append_assoc, List.cons_append, List.nil_append] at hall ⊢
  exact hall

/-- A loop over items is told by its second word. -/
theorem actionIsRead_forEachLoop {f e n i : Token} {u : List Token} (hf : f.kind = .keyword .for_)
    (he : e.kind = .keyword .each) (hn : n.kind = .identifier) (hi : i.kind = .keyword .in_)
    (items : Derives .expression u cs) (body : DerivesCode .body w ds) (h : Code.body.IsRead w ds) :
    ActionIsRead (f :: e :: n :: i :: (u ++ w))
      [.node .forEachStatement (.leaf f :: .leaf e :: .leaf n :: .leaf i :: (cs ++ ds))] := by
  have hnext (ts : List Token) : (look 1 (f :: e :: ts) == some (.keyword .each)) = true := by
    rw [show look 1 (f :: e :: ts) = some e.kind from rfl, he]
    rfl
  refine actionIsRead_of_reads hf (by decide) (fun h ↦ (reads_select_cons hf).2 h) fun {k} _ ↦
    (reads_ifAhead_pos (hnext _)).2 ?_
  have hitems := items.reads (w ++ k) body.ends_expression
  have hhead := (((Reads.token f _).seq (.token e _)).seq (.name hn .loopVariable _)).seq
    (.expect hi (u ++ (w ++ k)))
  have hall := ((hhead.seq hitems).seq (h k)).node .forEachStatement
  simp only [List.append_assoc, List.cons_append, List.nil_append] at hall ⊢
  exact hall

/-- **Completeness.** What the grammar of statements derives is read, with the trees of the
derivation. -/
theorem DerivesCode.isRead {p : Code} (h : DerivesCode p w cs) : p.IsRead w cs := by
  induction h with
  | block _ ih => exact isRead_block ih
  | nil => exact fun ahead _ k _ hstop ↦ .many_nil hstop
  | @cons u v cs ds first others ihfirst ihothers =>
    intro ahead hahead k hk hstop
    obtain ⟨t, ts, rfl, ht⟩ := first.begins_of_ne rfl
    rw [List.append_assoc]
    refine .many_cons (hahead t _ ht) (ihfirst (v ++ k)) ?_ (ihothers ahead hahead k hk hstop)
    simp only [List.cons_append, List.length_cons, List.length_append]
    omega
  | singleton only ih =>
    intro ahead hahead k hk hstop
    obtain ⟨t, ts, rfl, ht⟩ := only.begins_of_ne rfl
    have hlt : k.length < (t :: ts ++ k).length := by
      simp only [List.cons_append, List.length_cons, List.length_append]
      omega
    have hall := Reads.many_cons (hahead t _ ht) (ih k hk) hlt (.many_nil hstop)
    rwa [List.append_nil] at hall
  | @statement l w s ls cs label _ hs ih =>
    intro k
    have hat : isAt .semicolon (s :: k) = true := isAt_iff.2 ⟨s, k, rfl, hs⟩
    have hk : ClosesStatement (s :: k) := meets_cons.2 (hs ▸ List.mem_cons_self)
    rw [List.append_assoc, List.append_assoc]
    exact reads_statement label ih hk ((reads_when_pos hat).2 (.token s k)) fun _ ↦ hat
  | @last l w ls cs label _ hne ih =>
    intro k hk
    have hnothing : (eat .semicolon).Reads k [] k :=
      (reads_when_neg (hk.isAt_eq_false (by decide))).2 ⟨rfl, rfl⟩
    have hread := reads_statement label ih hk.closesStatement hnothing fun hnil ↦ absurd hnil hne
    rwa [List.append_nil, ← List.append_assoc] at hread
  | action_none => exact .inl ⟨rfl, rfl⟩
  | action_some _ ih => exact .inr ih
  | simple action => exact action.isRead
  | @conditional i t e u v w x cs ds es fs hi condition ht _ _ _ he ihinside ihelsifs ihotherwise =>
    refine actionIsRead_of_reads hi (by decide) (fun h ↦ (reads_select_cons hi).2 h) fun {k} _ ↦ ?_
    -- From the last part to the first, each tells what comes behind the one before it.
    obtain ⟨hx, hotherwise⟩ := ihotherwise (e :: k) (meets_cons.2 (he ▸ List.mem_cons_self))
    obtain ⟨hw, helsifs⟩ := ihelsifs _ hx
    have hbranch := reads_conditionalBranch .ifBranch i condition ht (ihinside _ hw)
    have hall := (((hbranch.seq helsifs).seq hotherwise).seq (.expect he k)).node .ifStatement
    simp only [List.append_assoc, List.cons_append, List.nil_append] at hall ⊢
    exact hall
  | elsifs_nil =>
    exact fun k hk ↦ ⟨hk.mono (by decide), .many_nil (hk.isAt_eq_false (by decide))⟩
  | @elsifs_cons i t u v w cs ds es hi condition ht _ _ ihinside ihothers =>
    intro k hk
    obtain ⟨hw, hothers⟩ := ihothers k hk
    have hbranch := reads_conditionalBranch .elsifBranch i condition ht (ihinside _ hw)
    simp only [List.append_assoc, List.cons_append] at hbranch ⊢
    refine ⟨meets_cons.2 (by rw [hi]; decide), ?_⟩
    refine .many_cons (isAt_iff.2 ⟨i, _, rfl, hi⟩) hbranch ?_ hothers
    simp only [List.length_cons, List.length_append]
    omega
  | otherwise_none =>
    exact fun k hk ↦ ⟨hk.mono (by decide),
      (reads_when_neg (hk.isAt_eq_false (by decide))).2 ⟨rfl, rfl⟩⟩
  | @otherwise_some e w cs he _ ih =>
    intro k hk
    refine ⟨meets_cons.2 (by rw [he]; decide), ?_⟩
    refine (reads_when_pos (isAt_iff.2 ⟨e, _, rfl, he⟩)).2 ?_
    exact ((Reads.token e _).seq (ih k (hk.mono (by decide)))).node _
  | @body d e w cs hd _ he ih =>
    intro k
    have hinside := ih (e :: k) (meets_cons.2 (by rw [he]; decide))
    have hall := ((Reads.expect hd (w ++ e :: k)).seq hinside).seq (.expect he k)
    simp only [List.append_assoc, List.cons_append, List.nil_append] at hall ⊢
    exact hall
  | @whileLoop h u w cs ds hh condition body ih =>
    refine actionIsRead_of_reads hh (by decide) (fun h ↦ (reads_select_cons hh).2 h) fun {k} _ ↦ ?_
    have hcondition := condition.reads (w ++ k) body.ends_expression
    rw [List.append_assoc]
    exact (((Reads.token h _).seq hcondition).seq (ih k)).node _
  | forLoop hf hn he first ht last body ih =>
    exact actionIsRead_forLoop hf hn he first ht last body ih
  | forEachLoop hf he hn hi items body ih =>
    exact actionIsRead_forEachLoop hf he hn hi items body ih
  | @attempt t x e u v cs ds ht _ hx _ he ihinside ihrescue =>
    refine actionIsRead_of_reads ht (by decide) (fun h ↦ (reads_select_cons ht).2 h) fun {k} _ ↦ ?_
    have hinside := ihinside (x :: (v ++ e :: k)) (meets_cons.2 (by rw [hx]; decide))
    have hrescue := ihrescue (e :: k) (meets_cons.2 (by rw [he]; decide))
    have hfirst := ((Reads.token t _).seq (hinside.node .tryCodeBlock)).seq (.expect hx _)
    have hall := (hfirst.seq (hrescue.node .exceptCodeBlock)).seq (.expect he k)
    simp only [List.append_assoc, List.cons_append, List.nil_append] at hall ⊢
    exact hall.node _

end BslLint.Grammar
