import BslLint.Proofs.Expression.Echo
import BslLint.Proofs.Expression.LiteralAccess
import BslLint.Proofs.Grammar.Assignment

/-!
# Writing an expression and reading it again

The written form of an expression is put behind a name and an equals sign and read as a module of
its own (`assignmentText`). What comes of it is decided by the accesses of the expression alone:
**the module is free of errors exactly if no literal is accessed** (`Document.errors_assignmentOf`),
and then its one expression is an echo of the first.

The parentheses of `(1).А` are what is lost where a literal is accessed. The other difference is
smaller: the word for a new object is always written in one way, so where it stands for the type the
texts of the terminals agree only if it was spelt in this way (`Normal.shape_eq_iff`).
-/

namespace BslLint

namespace Expr

open Grammar Lexeme

variable {d : Document} {x : Expr} {args : List Expr}

/-! ### Nothing unknown is written -/

/-- Every lexeme is a token or trivia. -/
def Known (ls : List Lexeme) : Prop := ∀ l ∈ ls, l.kind ≠ .unknown

section

variable {l : Lexeme} {ls ms : List Lexeme}

@[simp] theorem known_nil : Known [] := nofun

@[simp] theorem known_cons : Known (l :: ls) ↔ l.kind ≠ .unknown ∧ Known ls := List.forall_mem_cons

@[simp] theorem known_append : Known (ls ++ ms) ↔ Known ls ∧ Known ms := List.forall_mem_append

@[simp] theorem kind_ofSign (c : Char) (k : Token.Kind) : (ofSign c k).kind = .token k := rfl

@[simp] theorem kind_ofOperator (op : Operator) : (ofOperator op).kind = .token op.tokenKind := rfl

@[simp] theorem kind_space : space.kind = .trivia := rfl

@[simp] theorem kind_newWord : newWord.kind = .token (.keyword .new) := rfl

@[simp] theorem known_behindUnary (op : Operator) : Known (behindUnary op) := by
  unfold behindUnary
  split <;> simp

end

/-- A word is a token, -/
theorem known_word {r : TokenRange} {k : Token.Kind} (h : d.IsWord r k) :
    Known (lexemes (d.rangeText r).toList) := by
  rw [h.cuts.lexemes_eq]
  simp

/-- and between arguments there are signs and spaces. -/
theorem known_rest (h : ∀ a ∈ args, Known (a.written d)) : Known (writtenRest d args) := by
  induction args with
  | nil => exact known_nil
  | cons a as ih =>
    obtain ⟨ha, has⟩ := List.forall_mem_cons.1 h
    simp [writtenRest, ha, ih has]

/-- So there is nothing unknown in a list of arguments, -/
theorem known_list (hlist : AreListed d args)
    (h : ∀ a ∈ args, a.isEmpty = false → Known (a.written d)) : Known (writtenList d args) := by
  have hall : ∀ a ∈ args, Known (a.written d) := by
    intro a ha
    cases hempty : a.isEmpty with
    | false => exact h a ha hempty
    | true =>
      rw [((hlist.isBlank a ha hempty).written_eq hempty).1]
      exact known_nil
  cases args with
  | nil => exact known_nil
  | cons a as =>
    obtain ⟨ha, has⟩ := List.forall_mem_cons.1 hall
    simp [writtenList, ha, known_rest has]

/-- nor in an expression. -/
theorem Normal.known (h : Normal d x) : Known (x.written d) := by
  induction h with
  | literal ho => exact ho.known
  | name hs => exact known_word hs
  | unary _ _ ih => simp [written, ih]
  | operation hop _ _ ihx ihy => simp [written_operation hop, ihx, ihy]
  | property _ _ hs ih => simp [written, ih, known_word hs]
  | method _ _ hs hlist _ ih ihargs =>
    simp [written, ih, known_word hs, known_list hlist ihargs]
  | index _ _ ihx ihy => simp [written, ihx, ihy]
  | ternary _ _ _ ihx ihy ihz => simp [written, ihx, ihy, ihz]
  | call hs hlist _ ihargs => simp [written, known_word hs, known_list hlist ihargs]
  | new htoken hs hlist _ ihargs =>
    simp [written, origin, htoken, known_word hs, known_list hlist ihargs]
  | newUntyped htoken _ hlist _ ihargs =>
    simp [written, origin, htoken, known_list hlist ihargs]

end Expr

/-! ### The module of an assignment -/

/-- A module that assigns an expression to a name. -/
def assignmentText (source : String) : String := "Х = " ++ source ++ ";"

section

open Lexeme

/-- The text of the module, character by character. -/
theorem toList_assignmentText (source : String) : (assignmentText source).toList =
    "Х".toList ++ ' ' :: (Operator.equal.symbol.toList ++ ' ' :: (source.toList ++ [';'])) := by
  simp [assignmentText, Operator.symbol]

/-- It does not begin with a mark. -/
theorem withoutMark_assignmentText (source : String) :
    Text.withoutMark (assignmentText source) = assignmentText source := by
  rw [Text.withoutMark, toList_assignmentText]
  rfl

/-- The lexemes of a module that assigns an expression. -/
theorem lexemes_assignmentText {source : String} {ls : List Lexeme} (h : Cuts source.toList ls)
    (hls : Framed ls) : lexemes (assignmentText source).toList =
      ⟨.token .identifier, "Х".toList⟩ :: space :: ofOperator .equal :: space ::
        (ls ++ [ofSign ';' .semicolon]) := by
  have hlexemes : lexemes "Х".toList = [⟨.token .identifier, "Х".toList⟩] := by
    rw [lexemes_eq_lexemesUpTo_length]
    decide +kernel
  have hname : Cuts "Х".toList [⟨.token .identifier, "Х".toList⟩] :=
    @cuts_of_token "Х".toList [] [] .identifier "Х".toList hlexemes
  rw [toList_assignmentText, hname _ (delimits_space _),
    lexemes_space (Expr.unblank_operator _ _), lexemes_operator (k := .equal) rfl,
    lexemes_space (unblank_of_framed h hls _), h.sign ';' .semicolon (by decide), lexemes]
  rfl

end

namespace Document

open BslLint.Expr Grammar Lexeme

/-- The tokens of a text stretch over all of its lexemes. -/
theorem stretch_ofText (text : String) :
    (ofText text).Stretch (Scan.ofText (Text.withoutMark text)).tokens
      (lexemes (Text.withoutMark text).toList) := by
  refine ⟨.start, ⟨[], [], ?_, rfl⟩, rfl⟩
  rw [textOf_lexemes, List.append_nil, List.nil_append, String.ofList_toList]
  rfl

theorem trees_ofText (text : String) :
    (ofText text).trees = (file (Scan.ofText (Text.withoutMark text)).tokens).trees := rfl

/-- The module that assigns the written form of an expression. -/
def assignmentOf (d : Document) (x : Expr) : Document := ofText (assignmentText (d.sourceOf x))

/-- The document assigns an expression with the property. -/
def Assigns (d : Document) (P : Expr → Prop) : Prop :=
  ∃ n ∈ d.nodes, n.kind = .assignment ∧
    ∃ m y, n.childOfKind? .expression = some m ∧ m.expr? = some y ∧ P y

variable {d : Document} {x : Expr}

/-- The tokens of the assignment: a name, the equals sign, those of the expression, a semicolon. -/
theorem exists_tokens_assignmentText {source : String} {ls : List Lexeme}
    (hcuts : Cuts source.toList ls) (hframed : Framed ls) (hknown : Known ls) : ∃ a e w s,
    Scan.ofText (assignmentText source) = ⟨a :: e :: (w ++ [s]), []⟩ ∧
      a.kind = .identifier ∧ e.kind = .equal ∧ s.kind = .semicolon ∧
      (ofText (assignmentText source)).Stretch w ls := by
  have hlexemes := lexemes_assignmentText hcuts hframed
  have hall : Known (lexemes (assignmentText source).toList) := by
    rw [hlexemes]
    simp [hknown]
  have hstretch := stretch_ofText (assignmentText source)
  rw [withoutMark_assignmentText, hlexemes] at hstretch
  obtain ⟨a, v, htokens, ha, -, hstretch⟩ := hstretch.token
  obtain ⟨e, v, rfl, he, -, hstretch⟩ := hstretch.trivia.token
  obtain ⟨w, s, rfl, hs, hw⟩ := exists_of_concat hstretch.trivia
  refine ⟨a, e, w, s, ?_, ha, he, hs, hw⟩
  rw [← htokens, ← Scan.unknown_place_eq_nil_iff.2 hall]
  rfl

/-- The module of an assignment is free of errors if the grammar finds none. -/
theorem errors_assignmentText_iff {source : String} {ts : List Token}
    (h : Scan.ofText (assignmentText source) = ⟨ts, []⟩) :
    (ofText (assignmentText source)).errors = [] ↔ (file ts).faults = [] := by
  rw [errors_eq_nil_iff, withoutMark_assignmentText, h]
  exact and_iff_right rfl

/-- A document with the tree of an assignment assigns what the tree on the right comes to. -/
theorem assigns_of_trees {a e s : Token} {t : Tree} {P : Expr → Prop}
    (htrees : d.trees = [assignmentTree a e t s]) (ht : t.kind = .expression)
    (hyields : Yields d id t P) : d.Assigns P := by
  have hchild : ∀ {n c : Node}, n ∈ d.nodes → c ∈ n.children → c ∈ d.nodes := fun hn hc ↦
    (Node.perm_preorderAll _).subset (List.mem_append_right _ (List.mem_flatMap.2 ⟨_, hn, hc⟩))
  have hfile : ⟨0, 0, assignmentTree a e t s⟩ ∈ d.nodes := by
    rw [nodes, htrees, Node.place, Node.preorderAll_cons]
    exact List.mem_cons_self
  have hrun := hchild hfile List.mem_cons_self
  have hblock := hchild hrun List.mem_cons_self
  have hstatement := hchild hblock List.mem_cons_self
  have hassignment := hchild hstatement List.mem_cons_self
  have hright : ⟨8, 2, t⟩ ∈ d.nodes := hchild hassignment
    (List.mem_cons_of_mem _ (List.mem_cons_of_mem _ List.mem_cons_self))
  have hfits : Node.Fits ⟨8, 2, t⟩ d (Node.size ⟨8, 2, t⟩) :=
    ⟨Node.standsIn_of_mem_nodes hright, Nat.le_refl _⟩
  obtain ⟨y, hy, hP⟩ := hyields _ _ hfits rfl
  refine ⟨_, hassignment, rfl, ⟨8, 2, t⟩, y, ?_, hy, hP⟩
  -- The name and the equals sign are passed over.
  show List.find? (·.kind = .expression) [Node.mk 8 2 t] = _
  exact List.find?_cons_of_pos (decide_eq_true ht)

/-- Tokens that are an expression are read as one where they are assigned. -/
theorem assigns_of_isExpression {source : String} {a e s : Token} {w : List Token} {P : Expr → Prop}
    (hscan : Scan.ofText (assignmentText source) = ⟨a :: e :: (w ++ [s]), []⟩)
    (ha : a.kind = .identifier) (he : e.kind = .equal) (hs : s.kind = .semicolon)
    (h : IsExpression (ofText (assignmentText source)) w P) :
    (ofText (assignmentText source)).errors = [] ∧ (ofText (assignmentText source)).Assigns P := by
  obtain ⟨t, ht, hkind, hyields⟩ := h
  have hreads := reads_file_assignment ha he ht hs
  have htrees : (ofText (assignmentText source)).trees = (file (a :: e :: (w ++ [s]))).trees := by
    rw [trees_ofText, withoutMark_assignmentText, hscan]
  exact ⟨(errors_assignmentText_iff hscan).2 hreads.2.1,
    assigns_of_trees (htrees.trans hreads.1) hkind hyields⟩

/-- **The module is free of errors exactly if no literal is accessed**, and then it holds an echo.
-/
theorem errors_assignmentOf (h : Normal d x) :
    ((d.assignmentOf x).errors = [] ↔ ∀ y ∈ x.parts, y.isLiteralAccess = false) ∧
      ((∀ y ∈ x.parts, y.isLiteralAccess = false) →
        (d.assignmentOf x).Assigns fun y ↦ Echoes (d.assignmentOf x) d y x) := by
  obtain ⟨a, e, w, s, hscan, ha, he, hs, hw⟩ :=
    exists_tokens_assignmentText h.isWritten.cuts h.isWritten.framed h.known
  have hread : (∀ y ∈ x.parts, y.isLiteralAccess = false) → (d.assignmentOf x).errors = [] ∧
      (d.assignmentOf x).Assigns fun y ↦ Echoes (d.assignmentOf x) d y x := fun haccess ↦
    assigns_of_isExpression hscan ha he hs ((h.rereads haccess).isExpression hw)
  refine ⟨⟨fun hnone y hy ↦ ?_, fun haccess ↦ (hread haccess).1⟩, fun haccess ↦ (hread haccess).2⟩
  -- An access to a literal would be found among the tokens behind the equals sign.
  by_contra hliteral
  have hkinds : w.map (·.kind) = kindsOf (x.written d) := by
    rw [kindsOf, ← hw.map_sign, List.map_map]
    rfl
  have hfound := h.scanned.finds ⟨y, hy, Bool.eq_true_of_not_eq_false hliteral⟩ [s.kind]
  rw [← hkinds, ← List.map_singleton, ← List.map_append,
    accessesConstant_of_file ha he ((errors_assignmentText_iff hscan).1 hnone)] at hfound
  cases hfound

/-- **Every expression of a text without errors can be written, and what is written is read again
exactly if no literal is accessed.** Then it is written as before, and has its shape but for the
spelling of the word for new objects. -/
theorem written_expressions_read_again {text : String} (h : (ofText text).errors = []) {n : Node}
    (hn : n ∈ (ofText text).nodes) (hkind : n.kind = .expression) :
    ∃ x, n.expr? = some x ∧
      (((ofText text).assignmentOf x).errors = [] ↔ ∀ y ∈ x.parts, y.isLiteralAccess = false) ∧
      ((∀ y ∈ x.parts, y.isLiteralAccess = false) →
        ((ofText text).assignmentOf x).Assigns fun y ↦
          ((ofText text).assignmentOf x).sourceOf y = (ofText text).sourceOf x ∧
          ((ofText text).assignmentOf x).shapeOf y =
            x.shape (ofText text).texts (ofText text).typeTexts ∧
          (((ofText text).assignmentOf x).shapeOf y = (ofText text).shapeOf x ↔
            ∀ p ∈ x.parts, (ofText text).isRespelled p = false)) := by
  obtain ⟨t, ht, hnt⟩ := Node.within_of_mem_nodes hn
  have hderived := everywhere_file (errors_eq_nil_iff.1 h).2 t ht n.tree hnt hkind
  have hstands := Node.standsIn_of_mem_nodes hn
  have hinfix : n.tree.tokens <:+: (ofText text).tokens.toList := by
    obtain ⟨us, vs, htokens, -⟩ := hstands
    exact ⟨us, vs, by rw [htokens, List.append_assoc]⟩
  obtain ⟨_, htree, -, hyields⟩ := hderived.normalizes (isCut_ofText h) hinfix
  obtain ⟨x, hx, hnormal⟩ := hyields n _ ⟨hstands, Nat.le_refl _⟩ (List.cons.inj htree).1
  obtain ⟨herrors, hassigns⟩ := errors_assignmentOf hnormal
  refine ⟨x, hx, herrors, fun haccess ↦ ?_⟩
  obtain ⟨a, ha, hassignment, m, y, hm, hy, hechoes⟩ := hassigns haccess
  refine ⟨a, ha, hassignment, m, y, hm, hy, hechoes.source_eq, hechoes.shape_eq, ?_⟩
  rw [← hnormal.shape_eq_iff]
  exact ⟨hechoes.shape_eq.symm.trans, hechoes.shape_eq.trans⟩

/-- A member of an element is read again. -/
theorem written_member_reads_again : (ofText "Х=-А[1].Б;").errors = [] ∧
    ∃ n ∈ (ofText "Х=-А[1].Б;").nodes, n.kind = .expression ∧
      ∃ x, n.expr? = some x ∧ ((ofText "Х=-А[1].Б;").assignmentOf x).errors = [] := by
  have hnode : (ofText "Х=-А[1].Б;").errors = [] ∧
      (ofText "Х=-А[1].Б;").nodes[8]?.any (fun n ↦ n.kind = .expression ∧
        n.expr?.any (fun x ↦ x.parts.all (!·.isLiteralAccess))) = true := by
    rw [Document.ofText_eq_evaluated]
    decide +kernel
  obtain ⟨hnone, n, hn, hkind, x, hx, haccess⟩ := by
    simpa only [Option.any_eq_true, decide_eq_true_eq] using hnode
  obtain ⟨y, hy, herrors, -⟩ :=
    written_expressions_read_again hnone (List.mem_of_getElem? hn) hkind
  obtain rfl : x = y := Option.some.inj (hx.symm.trans hy)
  exact ⟨hnone, n, List.mem_of_getElem? hn, hkind, x, hx, herrors.2 (by simpa using haccess)⟩

/-- **An access to a literal is not read again**: the parentheses that it needs are not written. -/
theorem written_literal_access_has_errors : (ofText "Х=(1).А;").errors = [] ∧
    ∃ n ∈ (ofText "Х=(1).А;").nodes, n.kind = .expression ∧ ∃ x, n.expr? = some x ∧
      (ofText "Х=(1).А;").sourceOf x = "1.А" ∧
      ((ofText "Х=(1).А;").assignmentOf x).errors ≠ [] := by
  have hnode : (ofText "Х=(1).А;").errors = [] ∧
      (ofText "Х=(1).А;").nodes[8]?.any (fun n ↦ n.kind = .expression ∧
        n.expr?.any (fun x ↦ (ofText "Х=(1).А;").sourceOf x = "1.А")) = true := by
    rw [Document.ofText_eq_evaluated]
    decide +kernel
  obtain ⟨hnone, n, hn, hkind, x, hx, hsource⟩ := by
    simpa only [Option.any_eq_true, decide_eq_true_eq] using hnode
  refine ⟨hnone, n, List.mem_of_getElem? hn, hkind, x, hx, hsource, fun herrors ↦ ?_⟩
  rw [assignmentOf, hsource, errors_eq_nil_iff] at herrors
  have hfaults :
      (file (Scan.ofText (Text.withoutMark (assignmentText "1.А"))).tokens).faults.isEmpty =
        false := by
    rw [Scan.ofText_eq_evaluated]
    decide +kernel
  exact Bool.eq_false_iff.1 hfaults (List.isEmpty_iff.2 herrors.2)

end Document

end BslLint
