import BslLint.Proofs.Grammar.CodeCompleteness
import BslLint.Proofs.Grammar.Files

/-!
# The grammar of modules

What a module is, said without a parser:

```
module     = moduleVar* sub* block
moduleVar  = annotation* VAR variable (',' variable)* ';'
variable   = IDENT EXPORT?
sub        = annotation* PROCEDURE IDENT params EXPORT? subVar* block ENDPROCEDURE
           | annotation* FUNCTION IDENT params EXPORT? subVar* block ENDFUNCTION
annotation = DIRECTIVE call?
params     = '(' ')' | '(' param (',' param)* ')'
param      = VAL? IDENT ('=' ('+' | '-')? constant)?
constant   = STRING+ | CONSTANT
subVar     = VAR IDENT (',' IDENT)* ';'
```

**The parser for files reads what is a module**, with the tree that stands for it
(`SourceModule.reads_file`). The parts are accepted one after the other; what stands behind
annotations is known before they are read since their arguments are passed over.
-/

namespace BslLint.Grammar

open BslLint.Parser Form

/-! ### Declarations -/

/-- An annotation, with arguments or without. -/
inductive Annotation : Form
  | mk {d w cs} (hd : d.kind = .directive) (args : Derives .callOrNone w cs) :
    Annotation (d :: w) [.node .compilerDirective (.leaf d :: cs)]

/-- A variable of a module, exported or not. -/
inductive ModuleVariable : Form
  | mk {n w cs} (hn : n.kind = .identifier) (exported : Maybe [.keyword .export_] w cs) :
    ModuleVariable (n :: w) [.node .moduleVarDeclaration (.leaf n :: cs)]

/-- A declaration of variables of a module. -/
inductive ModuleVar : Form
  | mk {u v w s cs ds} (annotations : Repeated Annotation u cs) (hv : v.kind = .keyword .var)
      (names : Separated ModuleVariable w ds) (hs : s.kind = .semicolon) :
    ModuleVar (u ++ v :: (w ++ [s]))
      [.node .moduleVar (cs ++ [.leaf v, .node .moduleVarsList ds, .leaf s])]

/-- A constant with a sign in front of it, if there is one. -/
inductive SignedConstant : Form
  | strings {u v cs} (sign : Maybe [.minus, .plus] u cs) (hne : v ≠ [])
      (hstrings : ∀ t ∈ v, t.kind = .stringLiteral) :
    SignedConstant (u ++ v) [.node .constValue (cs ++ v.map .leaf)]
  | constant {u t cs} (sign : Maybe [.minus, .plus] u cs) (ht : t.kind ∈ constantKinds) :
    SignedConstant (u ++ [t]) [.node .constValue (cs ++ [.leaf t])]

/-- The default of a parameter, if there is one. -/
inductive Default : Form
  | none : Default [] []
  | some {e w cs} (he : e.kind = .equal) (value : SignedConstant w cs) :
    Default (e :: w) [.node .defaultValue (.leaf e :: cs)]

/-- A parameter. -/
inductive Param : Form
  | mk {u n w cs ds} (byValue : Maybe [.keyword .val] u cs) (hn : n.kind = .identifier)
      (default : Default w ds) : Param (u ++ n :: w) [.node .param (cs ++ .leaf n :: ds)]

/-- The parameters in their parentheses. -/
inductive ParamList : Form
  | empty {l r} (hl : l.kind = .leftParen) (hr : r.kind = .rightParen) :
    ParamList [l, r] [.node .paramList [.leaf l, .leaf r]]
  | mk {l r w cs} (hl : l.kind = .leftParen) (params : Separated Param w cs)
      (hr : r.kind = .rightParen) :
    ParamList (l :: (w ++ [r])) [.node .paramList (.leaf l :: (cs ++ [.leaf r]))]

/-- A variable of a procedure. -/
inductive SubVariable : Form
  | mk {n} (hn : n.kind = .identifier) : SubVariable [n] [.node .subVarDeclaration [.leaf n]]

/-- A declaration of variables of a procedure. -/
inductive SubVar : Form
  | mk {v w s cs} (hv : v.kind = .keyword .var) (names : Separated SubVariable w cs)
      (hs : s.kind = .semicolon) :
    SubVar (v :: (w ++ [s])) [.node .subVar [.leaf v, .node .subVarsList cs, .leaf s]]

/-- A declaration and a body between two reserved words. -/
inductive SubParts (first last : Keyword) (declaration : NodeKind) : Form
  | mk {a f n p e v b x as ps es vs bs} (annotations : Repeated Annotation a as)
      (hf : f.kind = .keyword first) (hn : n.kind = .identifier) (params : ParamList p ps)
      (exported : Maybe [.keyword .export_] e es) (vars : Grouped .subVars SubVar v vs)
      (code : DerivesCode .block b bs) (hx : x.kind = .keyword last) :
    SubParts first last declaration (a ++ f :: n :: (p ++ (e ++ (v ++ (b ++ [x])))))
      [.node declaration (as ++ .leaf f :: .node .subName [.leaf n] :: (ps ++ es)),
        .node .subCodeBlock (vs ++ bs), .leaf x]

/-- A procedure or a function. -/
inductive Sub : Form
  | procedure {w cs} (parts : SubParts .procedure .endProcedure .procDeclaration w cs) :
    Sub w [.node .sub [.node .procedure cs]]
  | function {w cs} (parts : SubParts .function .endFunction .funcDeclaration w cs) :
    Sub w [.node .sub [.node .function cs]]

/-- A module. -/
inductive SourceModule : Form
  | mk {u v w cs ds es} (vars : Grouped .moduleVars ModuleVar u cs) (subs : Grouped .subs Sub v ds)
      (code : DerivesCode .block w es) :
    SourceModule (u ++ (v ++ w)) [.node .file (cs ++ (ds ++ [.node .fileCodeBlock es]))]

variable {k w : List Token} {cs : List Tree}

/-! ### Annotations -/

/-- What stands behind annotations: no further annotation, and no arguments. -/
abbrev EndsAnnotations (k : List Token) : Prop := Avoids [.directive, .leftParen] k

/-- A further annotation is one at which the loop goes on. -/
theorem continues_annotations : Continues (isAt .directive) Annotation (Avoids [.leftParen]) where
  ne_nil := by
    rintro _ _ ⟨hd, args⟩
    exact List.cons_ne_nil _ _
  ahead := by
    rintro _ _ ⟨hd, args⟩ k
    exact isAt_iff.2 ⟨_, _, rfl, hd⟩
  ends := by
    rintro _ _ ⟨hd, args⟩ k
    exact avoids_token hd (by decide)

/-- All annotations in front are read. -/
theorem accepts_compilerDirectives :
    compilerDirectives.Accepts (Repeated Annotation) EndsAnnotations := by
  have hitem : (node .compilerDirective (one ++ when (isAt .leftParen) (doCall expression))).Accepts
      Annotation (Avoids [.leftParen]) := by
    rintro _ _ ⟨hd, args⟩ k hk
    exact ((Reads.token _ _).seq (args.reads k hk)).node _
  intro w cs h k hk
  exact hitem.many continues_annotations h ⟨hk.mono (by decide), hk.isAt (by decide)⟩

/-- What is annotated is found behind the annotations. -/
theorem afterDirectives_annotations (h : Repeated Annotation w cs) (hk : EndsAnnotations k) :
    afterDirectives (w ++ k) = k := by
  induction h with
  | nil => exact afterDirectives_of_not (hk.isAt (by decide))
  | @cons u v cs ds first others ih =>
    have hbehind : isAt .leftParen (v ++ k) = false := by
      cases others with
      | nil => exact hk.isAt (by decide)
      | cons next others =>
        rw [List.append_assoc]
        exact (continues_annotations.ends next _).isAt (by decide)
    obtain ⟨hd, args⟩ := first
    rw [List.append_assoc, List.cons_append, args.afterDirectives_cons hd fun _ ↦ hbehind, ih]

/-! ### Variables of the module -/

/-- A variable is read with the word that exports it. -/
theorem accepts_moduleVariable :
    (node .moduleVarDeclaration (expectName .variableName ++ eat (.keyword .export_))).Accepts
      ModuleVariable (Avoids [.keyword .export_]) := by
  rintro _ _ ⟨hn, exported⟩ k hk
  exact ((Reads.name hn _ _).seq (accepts_eat _ exported hk)).node _

/-- A declaration of variables is read to its semicolon. -/
theorem accepts_moduleVar : moduleVar.Accepts ModuleVar fun _ ↦ True := by
  rintro _ _ (@⟨u, v, w, s, cs, ds, annotations, hv, names, hs⟩) k -
  have hannotations := accepts_compilerDirectives annotations (k := v :: (w ++ s :: k))
    (avoids_token hv (by decide))
  have hbehind : Avoids [.keyword .export_, .comma] (s :: k) := avoids_token hs (by decide)
  have hnames := accepts_moduleVariable.commaSeparated (fun c ts hc ↦ avoids_token hc (by decide))
    names ⟨hbehind.mono (by decide), hbehind.isAt (by decide)⟩
  have hall := (((hannotations.seq (.token _ _)).seq (hnames.node .moduleVarsList)).seq
    (.expect hs k)).node .moduleVar
  simp only [List.append_assoc, List.cons_append, List.nil_append] at hall ⊢
  exact hall

/-- Its word tells that another one follows, behind annotations as well. -/
theorem continues_moduleVar : Continues atModuleVar ModuleVar fun _ ↦ True where
  ne_nil := by
    rintro _ _ ⟨annotations, hv, names, hs⟩
    exact List.append_ne_nil_of_right_ne_nil _ (List.cons_ne_nil _ _)
  ahead := by
    rintro _ _ ⟨annotations, hv, names, hs⟩ k
    rw [atModuleVar, List.append_assoc, List.cons_append, afterDirectives_annotations annotations]
    · exact isAt_iff.2 ⟨_, _, rfl, hv⟩
    · exact avoids_token hv (by decide)
  ends := fun _ _ _ _ ↦ trivial

/-! ### Parameters -/

/-- A default is a constant with a sign or without. -/
theorem accepts_constValue :
    (constValue true).Accepts SignedConstant (Avoids [.stringLiteral]) := by
  have hsign {u v : List Token} {cs : List Tree} (sign : Maybe [.minus, .plus] u cs)
      (hv : Avoids [.minus, .plus] v) :
      (when (fun ts ↦ true && isAtAny [.minus, .plus] ts) one).Reads (u ++ v) cs v :=
    accepts_when_one (fun _ ↦ Bool.true_and _) sign hv
  intro w cs h k hk
  cases h with
  | @strings u v cs sign hne hstrings =>
    -- Behind the sign stands a string, so the sign is the only one.
    have hv : Avoids [.minus, .plus] (v ++ k) := by
      cases v with
      | nil => exact absurd rfl hne
      | cons t v => exact avoids_token (hstrings t List.mem_cons_self) (by decide)
    rw [List.append_assoc]
    exact reads_constValue_strings (hsign sign hv) hne hstrings (hk.isAt (by decide))
  | @constant u t cs sign ht =>
    have hkinds : ∀ kind ∈ constantKinds, kind ∉ [Token.Kind.minus, .plus] := by decide
    rw [List.append_assoc]
    exact reads_constValue_constant (hsign sign (avoids_cons.2 (hkinds _ ht))) ht

/-- Behind an equals sign there is a default. -/
theorem accepts_default :
    (when (isAt .equal) (node .defaultValue (one ++ constValue true))).Accepts Default
      (Avoids [.equal, .stringLiteral]) := by
  intro w cs h k hk
  cases h with
  | none => exact (reads_when_neg (hk.isAt (by decide))).2 ⟨rfl, rfl⟩
  | some he value =>
    refine (reads_when_pos (isAt_iff.2 ⟨_, _, rfl, he⟩)).2 ?_
    exact ((Reads.token _ _).seq (accepts_constValue value (hk.mono (by decide)))).node _

theorem accepts_param : param.Accepts Param (Avoids [.equal, .stringLiteral]) := by
  rintro _ _ (@⟨u, n, w, cs, ds, byValue, hn, default⟩) k hk
  have hval := accepts_eat _ byValue (k := n :: (w ++ k)) (avoids_token hn (by decide))
  have hall := ((hval.seq (.name hn .parameterName _)).seq (accepts_default default hk)).node .param
  simp only [List.append_assoc, List.cons_append, List.nil_append] at hall ⊢
  exact hall

/-- No parameter begins with the parenthesis that ends them. -/
theorem isAt_rightParen_params (h : Separated Param w cs) (k : List Token) :
    isAt .rightParen (w ++ k) = false := by
  have hparam : ∀ {w cs}, Param w cs → ∀ k, isAt .rightParen (w ++ k) = false := by
    rintro _ _ ⟨byValue, hn, default⟩ k
    cases byValue with
    | none => rw [List.nil_append, List.cons_append, isAt_cons, hn]; rfl
    | some ht =>
      rw [List.cons_append, List.cons_append, isAt_cons, List.mem_singleton.1 ht]
      rfl
  cases h with
  | single only => exact hparam only k
  | cons first hc others =>
    rw [List.append_assoc]
    exact hparam first _

/-- The parameters are read with their parentheses, of which there may be none between. -/
theorem accepts_paramList : paramList.Accepts ParamList fun _ ↦ True := by
  rintro _ _ (@⟨l, r, hl, hr⟩ | @⟨l, r, w, cs, hl, params, hr⟩) k -
  · have hinside := (reads_ifAhead_pos (p := nothing) (q := commaSeparated param)
      (isAt_iff.2 ⟨r, k, rfl, hr⟩)).2 (reads_nothing.2 ⟨rfl, rfl⟩)
    refine Reads.node ((reads_ifAhead_pos (isAt_iff.2 ⟨_, _, rfl, hl⟩)).2 ?_) _
    exact ((Reads.token _ _).seq hinside).seq (.expect hr k)
  · have hbehind : Avoids [.equal, .stringLiteral, .comma] (r :: k) := avoids_token hr (by decide)
    have hparams := accepts_param.commaSeparated (fun c ts hc ↦ avoids_token hc (by decide)) params
      ⟨hbehind.mono (by decide), hbehind.isAt (by decide)⟩
    have hinside := (reads_ifAhead_neg (p := nothing) (isAt_rightParen_params params _)).2 hparams
    have hall := ((Reads.token l _).seq hinside).seq (.expect hr k)
    simp only [List.append_assoc, List.cons_append, List.nil_append] at hall ⊢
    exact Reads.node ((reads_ifAhead_pos (isAt_iff.2 ⟨_, _, rfl, hl⟩)).2 hall) _

/-! ### Variables of a procedure -/

/-- Variables of a procedure are read like those of a module, but without annotations. -/
theorem accepts_subVar : subVar.Accepts SubVar fun _ ↦ True := by
  have hitem : (node .subVarDeclaration (expectName .variableName)).Accepts SubVariable
      fun _ ↦ True := by
    rintro _ _ ⟨hn⟩ k -
    exact (Reads.name hn _ _).node _
  rintro _ _ (@⟨v, w, s, cs, hv, names, hs⟩) k -
  have hbehind : Avoids [.comma] (s :: k) := avoids_token hs (by decide)
  have hnames := hitem.commaSeparated (fun _ _ _ ↦ trivial) names
    ⟨trivial, hbehind.isAt (by decide)⟩
  have hall := (((Reads.token v _).seq (hnames.node .subVarsList)).seq (.expect hs k)).node .subVar
  simp only [List.append_assoc, List.cons_append, List.nil_append] at hall ⊢
  exact hall

theorem continues_subVar : Continues (isAt (.keyword .var)) SubVar fun _ ↦ True where
  ne_nil := by
    rintro _ _ ⟨hv, names, hs⟩
    exact List.cons_ne_nil _ _
  ahead := by
    rintro _ _ ⟨hv, names, hs⟩ k
    exact isAt_iff.2 ⟨_, _, rfl, hv⟩
  ends := fun _ _ _ _ ↦ trivial

/-! ### Procedures and functions -/

/-- The body of a procedure is its variables and its code. -/
theorem reads_subCodeBlock {v b k : List Token} {vs bs : List Tree}
    (vars : Grouped .subVars SubVar v vs) (code : DerivesCode .block b bs) (hk : ClosesBlock k) :
    subCodeBlock.Reads (v ++ (b ++ k)) [.node .subCodeBlock (vs ++ bs)] k := by
  have hbehind : Avoids [.keyword .var] (b ++ k) :=
    code.avoids_append (by decide) (hk.avoids (by decide))
  have hvars := accepts_subVar.group continues_subVar .subVars vars
    ⟨trivial, hbehind.isAt List.mem_cons_self⟩
  exact (hvars.seq (code.isRead k hk)).node _

/-- A procedure and a function differ in their words alone. -/
theorem accepts_subParts {first last : Keyword} {declaration : NodeKind}
    (hlast : .keyword last ∈ blockEnds) :
    (subDeclaration declaration ++ subCodeBlock ++ expect (.keyword last)).Accepts
      (SubParts first last declaration) fun _ ↦ True := by
  rintro _ _ (@⟨a, f, n, p, e, v, b, x, as, ps, es, vs, bs, annotations, hf, hn, params, exported,
    vars, code, hx⟩) k -
  have hend : ClosesBlock (x :: k) := meets_cons.2 (hx ▸ hlast)
  -- The word for export is only looked for, so nothing behind may begin with it.
  have hbehind : Avoids [.keyword .export_] (v ++ (b ++ x :: k)) := by
    cases vars with
    | none => exact code.avoids_append (by decide) (hend.avoids (by decide))
    | some first others =>
      obtain ⟨hv, -, -⟩ := first
      exact avoids_token hv (by decide)
  have hannotations := accepts_compilerDirectives annotations
    (k := f :: n :: (p ++ (e ++ (v ++ (b ++ x :: k))))) (avoids_token hf (by simp))
  have hname : (ifAhead (isAt .identifier) (node .subName one) (missing .subName)).Reads
      (n :: (p ++ (e ++ (v ++ (b ++ x :: k))))) [.node .subName [.leaf n]] _ :=
    (reads_ifAhead_pos (isAt_iff.2 ⟨n, _, rfl, hn⟩)).2 ((Reads.token n _).node _)
  have hdeclaration := ((((hannotations.seq (.token f _)).seq hname).seq
    (accepts_paramList params trivial)).seq (accepts_eat _ exported hbehind)).node declaration
  have hall := (hdeclaration.seq (reads_subCodeBlock vars code hend)).seq (.expect hx k)
  simp only [List.append_assoc, List.cons_append, List.nil_append] at hall ⊢
  exact hall

/-- Behind the annotations comes the first word. -/
theorem SubParts.afterDirectives {first last : Keyword} {declaration : NodeKind}
    (h : SubParts first last declaration w cs) (k : List Token) :
    ∃ t ts, afterDirectives (w ++ k) = t :: ts ∧ t.kind = .keyword first := by
  obtain @⟨a, f, n, p, e, v, b, x, as, ps, es, vs, bs, annotations, hf, -⟩ := h
  refine ⟨f, n :: (p ++ (e ++ (v ++ (b ++ [x])))) ++ k, ?_, hf⟩
  rw [List.append_assoc]
  exact afterDirectives_annotations annotations (avoids_token hf (by simp))

/-- **The parser for procedures and functions accepts them.** -/
theorem accepts_sub : sub.Accepts Sub fun _ ↦ True := by
  rintro _ _ (⟨parts⟩ | ⟨parts⟩) k -
  · obtain ⟨t, ts, hafter, ht⟩ := parts.afterDirectives k
    have hread := accepts_subParts (by decide) parts (k := k) trivial
    refine Reads.node ((reads_ifAhead_neg ?_).2 (hread.node .procedure)) _
    rw [hafter, isAt_cons, ht]
    rfl
  · obtain ⟨t, ts, hafter, ht⟩ := parts.afterDirectives k
    have hread := accepts_subParts (by decide) parts (k := k) trivial
    refine Reads.node ((reads_ifAhead_pos ?_).2 (hread.node .function)) _
    rw [hafter, isAt_cons, ht]
    rfl

theorem Sub.afterDirectives (h : Sub w cs) (k : List Token) : ∃ t ts,
    afterDirectives (w ++ k) = t :: ts ∧ t.kind ∈ [.keyword .procedure, .keyword .function] := by
  obtain ⟨parts⟩ | ⟨parts⟩ := h
  all_goals
    obtain ⟨t, ts, hafter, ht⟩ := parts.afterDirectives k
    exact ⟨t, ts, hafter, by rw [ht]; decide⟩

/-- Either word tells that another one follows. -/
theorem continues_sub : Continues atSub Sub fun _ ↦ True where
  ne_nil := by
    rintro _ _ (⟨⟨annotations, hf, hn, params, exported, vars, code, hx⟩⟩ |
      ⟨⟨annotations, hf, hn, params, exported, vars, code, hx⟩⟩)
    all_goals exact List.append_ne_nil_of_right_ne_nil _ (List.cons_ne_nil _ _)
  ahead := by
    intro w cs h k
    obtain ⟨t, ts, hafter, ht⟩ := h.afterDirectives k
    rw [atSub, hafter, isAtAny_cons, List.contains_eq_mem, decide_eq_true_iff]
    exact ht
  ends := fun _ _ _ _ ↦ trivial

/-! ### Modules -/

/-- Code begins neither like a procedure nor like a variable. -/
theorem DerivesCode.not_declaration (h : DerivesCode .block w cs) :
    atSub w = false ∧ atModuleVar w = false := by
  have havoids := h.avoids_append (k := [])
    (show ∀ kind ∈ Code.block.firsts, kind ∉ [.directive, .keyword .var, .keyword .procedure,
      .keyword .function] by decide) nofun
  rw [List.append_nil] at havoids
  rw [atSub, atModuleVar, afterDirectives_of_not (havoids.isAt (by decide))]
  exact ⟨(havoids.mono (by decide)).isAtAny, havoids.isAt (by decide)⟩

/-- The code of a module ends with the text. -/
theorem reads_fileCodeBlock (h : DerivesCode .block w cs) :
    fileCodeBlock.Reads w [.node .fileCodeBlock cs] [] := by
  obtain ⟨inside⟩ := h
  have hread := inside.isRead (fun ts ↦ !ts.isEmpty && !atSub ts) (fun t ts ht ↦ ?_) [] meets_nil
    rfl
  · rw [List.append_nil] at hread
    exact (hread.node .codeBlock).node .fileCodeBlock
  · have hkinds : ∀ kind ∈ statementKinds,
        kind ∉ [.directive, .keyword .procedure, .keyword .function] := by decide
    have havoids : Avoids _ (t :: ts) := avoids_cons.2 (hkinds _ ht)
    rw [atSub, afterDirectives_of_not (havoids.isAt (by decide)),
      (havoids.mono (by decide)).isAtAny]
    rfl

/-- The code of a module, or an empty block for it, is read to the end. -/
theorem reads_runsFrom_of_code (h : DerivesCode .block w cs) :
    Reads (runsFrom false) w [.node .fileCodeBlock cs] [] := by
  have hcode := reads_fileCodeBlock h
  by_cases hw : w = []
  · subst hw
    exact (reads_congr runsFrom_nil).2 hcode
  · exact reads_runsFrom_code h.not_declaration.1 hw hcode

/-- **The parser for files reads what is a module**, with the tree that stands for it. -/
theorem SourceModule.reads_file (h : SourceModule w cs) : file.Reads w cs [] := by
  obtain @⟨u, v, w, cs, ds, es, vars, subs, code⟩ := h
  obtain ⟨hsub, hvar⟩ := code.not_declaration
  -- What comes behind the variables is known before they are read: it does not begin like one.
  have hruns : atModuleVar (v ++ w) = false ∧
      runs.Reads (v ++ w) (ds ++ [.node .fileCodeBlock es]) [] := by
    cases subs with
    | none => exact ⟨hvar, reads_runsFrom_of_code code⟩
    | @some u' v' cs' ds' first others =>
      obtain ⟨t, ts, hafter, ht⟩ := first.afterDirectives (v' ++ w)
      have hsubs := accepts_sub.many continues_sub (.cons first others) ⟨trivial, hsub⟩
      have hne := List.length_pos_iff.2 (continues_sub.ne_nil first)
      rw [List.append_assoc] at hsubs ⊢
      refine ⟨?_, ?_⟩
      · rw [atModuleVar, hafter, isAt_cons, beq_eq_false_iff_ne]
        rintro heq
        rw [heq] at ht
        exact absurd ht (by decide)
      · refine reads_runsFrom_subs (continues_sub.ahead first _) hsubs ?_
          (reads_runsFrom_of_code code)
        simp only [List.length_append]
        omega
  have hvars := accepts_moduleVar.group continues_moduleVar .moduleVars vars ⟨trivial, hruns.1⟩
  exact (hvars.seq hruns.2).node .file

end BslLint.Grammar
