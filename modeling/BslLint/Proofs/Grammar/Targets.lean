import BslLint.Proofs.Grammar.CodeCompleteness
import BslLint.Proofs.Token.Places

/-!
# Assignments to properties and elements

Of a statement that begins with an identifier the parser decides before it reads any of it whether
it is an assignment: it looks for an equals sign outside of parentheses (`assignmentAhead`). What
comes before the sign is read by other rules, which take any reserved word for a name if it stands
behind a dot. The search knows nothing of dots, and gives up at a reserved word that occurs in no
expression.

So the two agree about a target unless it accesses something by such a word itself, outside of its
arguments and indices (`Target.assignmentAhead_append`). Then what should be an assignment is read
as a call, and the equals sign is a fault (`Target.cut_off`); everything else that can be written in
front of an equals sign is assigned to (`Target.isRead`). In front of a semicolon each target is a
call, whatever its words.
-/

namespace BslLint

namespace Grammar

open BslLint.Parser

/-! ### Targets -/

/-- What may stand in front of an equals sign: a name or the call of one, with accesses behind. -/
inductive Target : Form
  | mk {t u v cs ds} (ht : t.kind = .identifier) (head : Derives .head (t :: u) cs)
      (mods : Derives .modifiers v ds) : Target (t :: (u ++ v)) (cs ++ ds)

/-- The search for an equals sign gives up at a token of this kind. -/
def endsSearch : Token.Kind → Bool
  | .keyword word => !isExpressionKeyword word
  | _ => false

/-- The name behind the dot, in an access by name. -/
def accessName? : Tree → Option Token
  | .node .modifier [.node .accessProperty [_, .leaf t]] => some t
  | .node .modifier [.node .accessCall [_, .node .methodCall (.node .methodName [.leaf t] :: _)]] =>
    some t
  | _ => none

/-- None of the accesses is by a word at which the search gives up. -/
def IsInSight (cs : List Tree) : Prop := ∀ t ∈ cs.filterMap accessName?, endsSearch t.kind = false

instance (cs : List Tree) : Decidable (IsInSight cs) :=
  inferInstanceAs (Decidable (∀ t ∈ cs.filterMap accessName?, endsSearch t.kind = false))

variable {w u v k x : List Token} {cs ds es : List Tree} {t e s : Token}

/-- Accesses are in sight if each of them is. -/
theorem isInSight_append : IsInSight (cs ++ ds) ↔ IsInSight cs ∧ IsInSight ds := by
  rw [IsInSight, List.filterMap_append, List.forall_mem_append]
  rfl

/-! ### The search for an equals sign -/

/-- A token that is no parenthesis, bracket, sign or semicolon is passed over, or ends the search.
-/
theorem assignmentAhead_cons (ht : t.kind ∉ nestingKinds) (hequal : t.kind ≠ .equal) :
    assignmentAhead 0 (t :: k) = (!endsSearch t.kind && assignmentAhead 0 k) := by
  rw [assignmentAhead]
  split <;> simp_all [nestingKinds, endsSearch]

/-- A name is passed over unless it is a word that begins a statement. -/
theorem assignmentAhead_name (ht : IsName t.kind) :
    assignmentAhead 0 (t :: k) = (!endsSearch t.kind && assignmentAhead 0 k) := by
  obtain ⟨hnesting, hnever⟩ := isName_notMem ht
  exact assignmentAhead_cons hnesting fun h ↦ hnever (h ▸ by decide)

/-- Nothing in the arguments of a call is an end to the search. -/
theorem Derives.assignmentAhead_call (h : Derives .call w cs) :
    assignmentAhead 0 (w ++ k) = assignmentAhead 0 k := by
  obtain ⟨l, u, r, rfl, hl, hr, hinside⟩ := h.exists_parens
  have hpair : IsPair l.kind r.kind := .inl ⟨hl, hr⟩
  rw [List.cons_append, List.append_assoc, List.singleton_append]
  exact hpair.assignmentAhead 0 (hinside.assignmentAhead_succ 0)

/-- A name, called or not, is passed over. -/
theorem Derives.assignmentAhead_head (ht : t.kind = .identifier) (h : Derives .head (t :: u) cs) :
    assignmentAhead 0 (t :: (u ++ k)) = assignmentAhead 0 k := by
  have hpass : ∀ ts, assignmentAhead 0 (t :: ts) = assignmentAhead 0 ts := fun ts ↦ by
    rw [assignmentAhead_name (.inl ht), ht]
    rfl
  rw [hpass]
  cases h with
  | name => rfl
  | globalCall _ call => exact call.assignmentAhead_call
  | new hnew => exact nomatch ht.symm.trans hnew
  | ternary hq => exact nomatch ht.symm.trans hq

/-- An access is passed over if it is in sight. In an index anything may stand. -/
theorem Derives.assignmentAhead_modifier (h : Derives .modifier w cs) :
    assignmentAhead 0 (w ++ k) = (decide (IsInSight cs) && assignmentAhead 0 k) := by
  have hdot {d : Token} (hd : d.kind = .dot) (ts : List Token) :
      assignmentAhead 0 (d :: ts) = assignmentAhead 0 ts := by
    rw [assignmentAhead_cons (by rw [hd]; decide) (by rw [hd]; decide), hd]
    rfl
  cases h with
  | @property d t hd ht =>
    show assignmentAhead 0 (d :: t :: k) = _
    rw [hdot hd, assignmentAhead_name ht]
    simp [IsInSight, accessName?]
  | @methodCall d t u _ hd ht call =>
    show assignmentAhead 0 (d :: t :: (u ++ k)) = _
    rw [hdot hd, assignmentAhead_name ht, call.assignmentAhead_call]
    simp [IsInSight, accessName?]
  -- In brackets the search is on another level and sees no word that ends it.
  | @index l r u _ hl inside hr =>
    have hpair : IsPair l.kind r.kind := .inr ⟨hl, hr⟩
    rw [List.cons_append, List.append_assoc, List.singleton_append,
      hpair.assignmentAhead 0 (inside.balanced.assignmentAhead_succ 0)]
    rfl

/-- The first access that is out of sight ends the search. -/
theorem Derives.assignmentAhead_modifiers (h : Derives .modifiers w cs) :
    assignmentAhead 0 (w ++ k) = (decide (IsInSight cs) && assignmentAhead 0 k) := by
  generalize hp : Part.modifiers = p at h
  induction h with
  | modifiers_nil => rfl
  | modifiers_cons first _ _ ih =>
    rw [List.append_assoc, first.assignmentAhead_modifier, ih hp, ← Bool.and_assoc,
      ← Bool.decide_and]
    simp only [isInSight_append]
  | _ => cases hp

theorem Derives.isInSight_head (h : Derives .head w cs) : IsInSight cs := by
  cases h <;> simp [IsInSight, accessName?]

/-- **The search passes over a target exactly if all its accesses are in sight.** -/
theorem Target.assignmentAhead_append (h : Target w cs) :
    assignmentAhead 0 (w ++ k) = (decide (IsInSight cs) && assignmentAhead 0 k) := by
  cases h with
  | @mk t u v cs ds ht head mods =>
    rw [List.cons_append, List.append_assoc, head.assignmentAhead_head ht,
      mods.assignmentAhead_modifiers]
    simp only [isInSight_append, head.isInSight_head, true_and]

/-! ### Statements that begin with a target -/

/-- A target begins with a name. -/
theorem Target.begins (h : Target w cs) : ∃ t ts, w = t :: ts ∧ t.kind = .identifier := by
  cases h with
  | mk ht => exact ⟨_, _, rfl, ht⟩

/-- What may be assigned to may also be called. -/
theorem Target.action (h : Target w cs) : SimpleAction w [.node .callStatement cs] := by
  cases h with
  | mk ht head mods => exact .call ht head mods

theorem Target.tokensAll_eq (h : Target w cs) : Tree.tokensAll cs = w := by
  cases h with
  | mk _ head mods =>
    rw [Tree.tokensAll_append, head.tokensAll_eq, mods.tokensAll_eq]
    rfl

/-- A target is read to its end in front of what does not go on with it. -/
theorem Target.reads (h : Target w cs)
    (hk : Avoids [.dot, .leftBracket, .leftParen, .identifier] k) :
    (identifierHead expression ++ modifiers expression).Reads (w ++ k) cs k := by
  cases h with
  | mk ht head mods => exact reads_accessed ht head mods hk

/-- **What is in sight is assigned to.** -/
theorem Target.isRead (h : Target w cs) (hsight : IsInSight cs) (he : e.kind = .equal)
    (value : Derives .expression x es) :
    ActionIsRead (w ++ e :: x) [.node .assignment (.node .lValue cs :: .leaf e :: es)] := by
  obtain ⟨t, ts, rfl, ht⟩ := h.begins
  refine actionIsRead_of_reads (w := ts ++ e :: x) ht (by decide)
    (fun h ↦ (reads_select_cons ht).2 h) fun {k} hk ↦ ?_
  have hahead : assignmentAhead 0 (t :: (ts ++ e :: (x ++ k))) = true := by
    rw [← List.cons_append, h.assignmentAhead_append, decide_eq_true hsight, assignmentAhead, he]
    rfl
  have htarget := (h.reads (k := e :: (x ++ k)) (avoids_token he (by decide))).node .lValue
  have hall := (htarget.seq (.expect he (x ++ k))).seq (value.reads k hk.ends_expression)
  rw [List.append_assoc]
  exact (reads_ifAhead_pos hahead).2 (hall.node _)

/-- **What is out of sight is called**: the statement ends in front of the equals sign, where a
semicolon is missing. -/
theorem Target.cut_off (h : Target w cs) (hsight : ¬IsInSight cs) (he : e.kind = .equal) :
    (statement block (w ++ e :: k)).trees = [.node .statement [.node .callStatement cs]] ∧
      (statement block (w ++ e :: k)).faults = [⟨.token .semicolon, some e⟩] ∧
      (statement block (w ++ e :: k)).rest = e :: k := by
  have hahead : assignmentAhead 0 (w ++ e :: k) = false := by
    rw [h.assignmentAhead_append, decide_eq_false hsight, Bool.false_and]
  have hcall : (ifAhead (assignmentAhead 0) assignment callStatement).Reads (w ++ e :: k)
      [.node .callStatement cs] (e :: k) :=
    (reads_ifAhead_neg hahead).2 ((h.reads (avoids_token he (by decide))).node _)
  have hend : statementEnd (e :: k) = missing (.token .semicolon) (e :: k) :=
    statementEnd_of_notMem (by rw [he]; decide)
  obtain ⟨t, ts, rfl, ht⟩ := h.begins
  obtain ⟨htrees, hfaults, hrest⟩ := hcall
  rw [List.cons_append] at htrees hfaults hrest ⊢
  rw [statement_identifier ht, trees_node, faults_node, rest_node, trees_seq, faults_seq, rest_seq,
    htrees, hfaults, hrest, hend]
  exact ⟨rfl, rfl, rfl⟩

/-- An action with a semicolon behind it is a statement. -/
theorem ActionIsRead.reads_statement (h : ActionIsRead w cs) (hs : s.kind = .semicolon) :
    (statement block).Reads (w ++ s :: k) [.node .statement (cs ++ [.leaf s])] k := by
  have hat : isAt .semicolon (s :: k) = true := isAt_iff.2 ⟨s, k, rfl, hs⟩
  have hk : ClosesStatement (s :: k) := meets_cons.2 (hs ▸ List.mem_cons_self)
  exact Grammar.reads_statement .none (.inr h) hk ((reads_when_pos hat).2 (.token s k)) fun _ ↦ hat

/-- The tree of a statement that assigns to the trees of a target. -/
def assigningTree (cs : List Tree) (e : Token) (es : List Tree) (s : Token) : Tree :=
  .node .statement [.node .assignment (.node .lValue cs :: .leaf e :: es), .leaf s]

/-- The tree of a statement that calls a target. -/
def callingTree (cs : List Tree) (s : Token) : Tree :=
  .node .statement [.node .callStatement cs, .leaf s]

/-- With an equals sign, a value and a semicolon behind it, what is in sight is assigned to. -/
theorem Target.reads_assignment (h : Target w cs) (hsight : IsInSight cs) (he : e.kind = .equal)
    (value : Derives .expression x es) (hs : s.kind = .semicolon) :
    (statement block).Reads (w ++ e :: (x ++ s :: k)) [assigningTree cs e es s] k := by
  have hread := (h.isRead hsight he value).reads_statement (k := k) hs
  rwa [List.append_assoc, List.cons_append] at hread

/-- With a semicolon behind it, it is called. -/
theorem Target.reads_call (h : Target w cs) (hs : s.kind = .semicolon) :
    (statement block).Reads (w ++ s :: k) [callingTree cs s] k :=
  h.action.isRead.reads_statement hs

end Grammar

/-! ### Modules -/

namespace Document

open Grammar

/-- The tree of a module that is one statement. -/
def moduleOf (t : Tree) : Tree := .node .file [.node .fileCodeBlock [.node .codeBlock [t]]]

variable {text : String} {v w x : List Token} {cs es : List Tree} {e s : Token} {t : Tree}

/-- A text that is one statement has no errors if the statement is read. -/
theorem module_of_reads_statement (hscan : Scan.ofText (Text.withoutMark text) = ⟨w ++ v, []⟩)
    (target : Target w cs) (h : (statement block).Reads (w ++ v) [t] []) :
    (ofText text).errors = [] ∧ (ofText text).trees = [moduleOf t] := by
  obtain ⟨a, vs, rfl, ha⟩ := target.begins
  obtain ⟨htrees, hfaults, -⟩ := reads_file_statement ha h
  have hfile : (ofText text).trees =
      (file (Scan.ofText (Text.withoutMark text)).tokens).trees := rfl
  rw [errors_eq_nil_iff, hfile, hscan]
  exact ⟨⟨rfl, hfaults⟩, htrees⟩

/-- **A target is assigned to exactly if all its accesses are in sight of the search for the equals
sign**, wherever the statement stands, and otherwise a semicolon is missing in front of the sign.
Without an equals sign every target is called. In particular this settles which modules of one such
statement have errors. -/
theorem targets_are_assigned_to (target : Target w cs) (he : e.kind = .equal)
    (value : Derives .expression x es) (hs : s.kind = .semicolon) :
    (Tree.tokensAll cs = w ∧ Tree.tokensAll es = x) ∧
    (∀ k, (IsInSight cs →
        (statement block).Reads (w ++ e :: (x ++ s :: k)) [assigningTree cs e es s] k) ∧
      (¬IsInSight cs → (statement block (w ++ e :: (x ++ s :: k))).trees =
          [.node .statement [.node .callStatement cs]] ∧
        (statement block (w ++ e :: (x ++ s :: k))).faults = [⟨.token .semicolon, some e⟩]) ∧
      (statement block).Reads (w ++ s :: k) [callingTree cs s] k) ∧
    ∀ text,
      (Scan.ofText (Text.withoutMark text) = ⟨w ++ e :: (x ++ [s]), []⟩ →
        ((ofText text).errors = [] ↔ IsInSight cs) ∧
        (IsInSight cs → (ofText text).trees = [moduleOf (assigningTree cs e es s)])) ∧
      (Scan.ofText (Text.withoutMark text) = ⟨w ++ [s], []⟩ →
        (ofText text).errors = [] ∧ (ofText text).trees = [moduleOf (callingTree cs s)]) := by
  refine ⟨⟨?_, value.tokensAll_eq⟩, fun k ↦ ⟨fun hsight ↦ ?_, fun hsight ↦ ?_, ?_⟩,
    fun text ↦ ⟨fun hscan ↦ ?_, fun hscan ↦ ?_⟩⟩
  · exact target.tokensAll_eq
  · exact target.reads_assignment hsight he value hs
  · obtain ⟨htrees, hfaults, -⟩ := target.cut_off hsight he
    exact ⟨htrees, hfaults⟩
  · exact target.reads_call hs
  · have hmodule := fun hsight ↦ module_of_reads_statement hscan target
      (target.reads_assignment hsight he value hs)
    refine ⟨⟨fun herrors ↦ ?_, fun hsight ↦ (hmodule hsight).1⟩, fun hsight ↦ (hmodule hsight).2⟩
    by_contra hsight
    obtain ⟨-, hfaults, -⟩ := target.cut_off (k := x ++ [s]) hsight he
    rw [errors_eq_nil_iff, hscan] at herrors
    obtain ⟨a, vs, rfl, ha⟩ := target.begins
    exact nomatch hfaults.symm.trans (faults_statement_of_file ha herrors.2)
  · exact module_of_reads_statement hscan target (target.reads_call hs)

/-- The parts of an assignment to a property whose name is a reserved word. -/
theorem exists_target {scan : Scan} {word : Keyword} (h : scan.tokens.map (·.kind) =
      [.identifier, .dot, .keyword word, .equal, .numberLiteral, .semicolon] ∧ scan.unknown = []) :
    ∃ w x cs es e s, scan = ⟨w ++ e :: (x ++ [s]), []⟩ ∧ Target w cs ∧
      (isExpressionKeyword word = true → IsInSight cs) ∧ e.kind = .equal ∧
      Derives .expression x es ∧ s.kind = .semicolon := by
  obtain ⟨ts, unknown⟩ := scan
  obtain ⟨hkinds, rfl⟩ := h
  simp only [List.map_eq_cons_iff, List.map_eq_nil_iff] at hkinds
  obtain ⟨a, _, rfl, ha, d, _, rfl, hd, n, _, rfl, hn, e, _, rfl, he, o, _, rfl, ho, s, _, rfl, hs,
    rfl⟩ := hkinds
  have hmods : Derives .modifiers ([d, n] ++ []) _ :=
    .modifiers_cons (.property hd (.inr ⟨word, hn⟩)) .modifiers_nil
  have hmember : Derives .member ([] ++ [o]) _ := .member nofun (.constant (by rw [ho]; decide))
  refine ⟨[a, d, n], [o], _, _, e, s, rfl, .mk ha (.name ha) hmods, fun hword ↦ ?_, he,
    .expression hmember .row_nil, hs⟩
  simp [IsInSight, accessName?, endsSearch, hn, hword]

/-- A property with the name of a word that occurs in expressions is assigned to. -/
theorem property_new_is_assigned_to : ∃ w x cs es e s, Target w cs ∧ IsInSight cs ∧
    e.kind = .equal ∧ Derives .expression x es ∧ s.kind = .semicolon ∧
    Scan.ofText (Text.withoutMark "А.Новый=1;") = ⟨w ++ e :: (x ++ [s]), []⟩ ∧
    (ofText "А.Новый=1;").errors = [] ∧
    (ofText "А.Новый=1;").trees = [moduleOf (assigningTree cs e es s)] := by
  have hscan : (Scan.ofText (Text.withoutMark "А.Новый=1;")).tokens.map (·.kind) =
        [.identifier, .dot, .keyword .new, .equal, .numberLiteral, .semicolon] ∧
      (Scan.ofText (Text.withoutMark "А.Новый=1;")).unknown = [] := by
    rw [Scan.ofText_eq_evaluated]
    decide +kernel
  obtain ⟨w, x, cs, es, e, s, htext, target, hword, he, value, hs⟩ := exists_target hscan
  have hsight := hword rfl
  obtain ⟨herrors, htrees⟩ := ((targets_are_assigned_to target he value hs).2.2 _).1 htext
  exact ⟨w, x, cs, es, e, s, target, hsight, he, value, hs, htext, herrors.2 hsight, htrees hsight⟩

/-- **A property with the name of another word is not**, though it is a name behind a dot. -/
theorem property_if_is_not_assigned_to : ∃ w x cs es e s, Target w cs ∧ e.kind = .equal ∧
    Derives .expression x es ∧ s.kind = .semicolon ∧
    Scan.ofText (Text.withoutMark "А.Если = 1;") = ⟨w ++ e :: (x ++ [s]), []⟩ ∧
    (ofText "А.Если = 1;").errors ≠ [] := by
  have hscan : ((Scan.ofText (Text.withoutMark "А.Если = 1;")).tokens.map (·.kind) =
        [.identifier, .dot, .keyword .if_, .equal, .numberLiteral, .semicolon] ∧
      (Scan.ofText (Text.withoutMark "А.Если = 1;")).unknown = []) ∧
      (file (Scan.ofText (Text.withoutMark "А.Если = 1;")).tokens).faults.isEmpty = false := by
    rw [Scan.ofText_eq_evaluated]
    decide +kernel
  obtain ⟨w, x, cs, es, e, s, htext, target, -, he, value, hs⟩ := exists_target hscan.1
  refine ⟨w, x, cs, es, e, s, target, he, value, hs, htext, fun herrors ↦ ?_⟩
  exact Bool.eq_false_iff.1 hscan.2 (List.isEmpty_iff.2 (errors_eq_nil_iff.1 herrors).2)

end Document

end BslLint
