import BslLint.Proofs.Expression.Printing
import BslLint.Proofs.Expression.Rereading
import BslLint.Proofs.Expression.Shape

/-!
# A written expression is read again

Where a document holds the text of a normal expression of another document, its tokens are read as
an expression that echoes the other one: it has the same shape and is written with the same text
(`Echoes`). The exception are accesses to literals, because nothing may stand behind a literal.

The induction is on normal expressions. Each is written as a value, and as a base unless it is a
literal (`Rereads`), so accesses are put behind it as they come.
-/

namespace BslLint

namespace Expr

open Grammar Lexeme

/-- An expression `y` of the document `d'` has the shape of the expression `x` of the document `d`
and is written with the same text. -/
structure Echoes (d' d : Document) (y x : Expr) : Prop where
  /-- The shapes are the same, up to the spelling of the word for new objects. -/
  shape_eq : y.shape d'.texts d'.texts = x.shape d.texts d.typeTexts
  /-- The texts are the same. -/
  source_eq : y.source d'.rangeText = x.source d.rangeText

variable {d' d : Document}

/-! ### Shape by shape -/

namespace Echoes

variable {x x₁ x₂ x₃ y y₁ y₂ y₃ : Expr}

/-- An operator in front of what echoes echoes, -/
theorem unary (h : Echoes d' d y x) (op : Operator) (o o' : Origin) :
    Echoes d' d (.unary op y o) (.unary op x o') :=
  ⟨by rw [shape, shape, h.shape_eq], by rw [source, source, h.source_eq]⟩

/-- so does one between two, -/
theorem binary (h₁ : Echoes d' d y₁ x₁) (h₂ : Echoes d' d y₂ x₂) (op : Operator) (o o' : Origin) :
    Echoes d' d (.binary op y₁ y₂ o) (.binary op x₁ x₂ o') := by
  refine ⟨by rw [shape, shape, h₁.shape_eq, h₂.shape_eq], ?_⟩
  cases op <;> simp only [source, h₁.source_eq, h₂.source_eq]

/-- and so does a choice. -/
theorem ternary (h₁ : Echoes d' d y₁ x₁) (h₂ : Echoes d' d y₂ x₂) (h₃ : Echoes d' d y₃ x₃)
    (o o' : Origin) : Echoes d' d (.ternary y₁ y₂ y₃ o) (.ternary x₁ x₂ x₃ o') := by
  refine ⟨by rw [shape, shape, h₁.shape_eq, h₂.shape_eq, h₃.shape_eq], ?_⟩
  rw [source, source, h₁.source_eq, h₂.source_eq, h₃.source_eq]

theorem isEmpty_eq (h : Echoes d' d y x) : y.isEmpty = x.isEmpty := by
  rw [← isEmpty_shape d'.texts d'.texts y, ← isEmpty_shape d.texts d.typeTexts x, h.shape_eq]

end Echoes

/-- Some expressions echo others one by one. -/
abbrev EchoesAll (d' d : Document) : List Expr → List Expr → Prop := List.Forall₂ (Echoes d' d)

theorem EchoesAll.shapeList_eq {ys xs : List Expr} (h : EchoesAll d' d ys xs) :
    shapeList d'.texts d'.texts ys = shapeList d.texts d.typeTexts xs := by
  induction h with
  | nil => rfl
  | cons hyx _ ih => rw [shapeList, shapeList, hyx.shape_eq, ih]

/-- Arguments that echo others are written with the same text. -/
theorem EchoesAll.sourceList_eq {ys xs : List Expr} (h : EchoesAll d' d ys xs) :
    sourceList d'.rangeText ys = sourceList d.rangeText xs := by
  induction h with
  | nil => rfl
  | cons hyx hrest ih =>
    cases hrest with
    | nil => rw [sourceList, sourceList, hyx.source_eq]
    | cons => rw [sourceList_cons_cons, sourceList_cons_cons, hyx.source_eq, ih]

/-! ### Terminals -/

/-- A word that is written as it stands in the other document echoes it. -/
theorem echoes_word {r : TokenRange} {k : Token.Kind} (hs : d.IsWord r k) {t : Token}
    (ht : d'.Stretch [t] [⟨.token k, (d.rangeText r).toList⟩]) {u : Tree} (hu : u.tokens = [t])
    {o : Origin} (ho : o.Tells d' u) :
    d'.rangeText o.range = d.rangeText r ∧ d'.texts o = d.tokenTexts r := by
  have hframed : Framed [⟨.token k, (d.rangeText r).toList⟩] := framed_cons ⟨[], k, _, rfl⟩
  have hspan : d'.spanText [t] = d.rangeText r := by
    rw [ht.spanText_eq hframed, textOf_cons, show textOf [] = [] from rfl, List.append_nil,
      String.ofList_toList]
  have hsign : [t.sign] = [(k, String.ofList (d.rangeText r).toList)] := ht.map_sign
  have htext : t.text = d.rangeText r := by
    have h := congrArg Prod.snd (List.cons.inj hsign).1
    rwa [String.ofList_toList] at h
  constructor
  · rw [ho.rangeText_eq, hu, hspan]
  · rw [Document.texts, ho.tokenTexts_eq, hu, hs.tokenTexts_eq]
    exact congrArg (fun text ↦ [text]) htext

theorem echoes_name {s o : Origin} (h : d'.rangeText o.range = d.rangeText s.range ∧
    d'.texts o = d.texts s) : Echoes d' d (.terminal .identifier o) (.terminal .identifier s) :=
  ⟨by rw [shape, shape, h.2], by rw [source, source, h.1]⟩

/-- A word is written as one token. -/
theorem stretch_word {w : List Token} {r : TokenRange} {k : Token.Kind} (hs : d.IsWord r k)
    {ls : List Lexeme} (h : d'.Stretch w (lexemes (d.rangeText r).toList ++ ls)) :
    ∃ t v, w = t :: v ∧ t.kind = k ∧ d'.Stretch [t] [⟨.token k, (d.rangeText r).toList⟩] ∧
      d'.Stretch v ls := by
  rw [hs.cuts.lexemes_eq] at h
  exact h.token

/-- A literal is one token or several strings, and is read again as it stands. -/
theorem isValue_literal {w : List Token} {s : Origin} (hs : d.IsLiteral s.range)
    (h : d'.Stretch w (lexemes (d.rangeText s.range).toList)) :
    IsValue d' w fun y ↦ Echoes d' d y (.terminal .literal s) := by
  have hsigns : w.map Token.sign = Document.signs (d.rangeText s.range).toList := h.map_sign
  have hspan : d'.spanText w = d.rangeText s.range := by
    rw [h.spanText_eq hs.framed, textOf_lexemes, String.ofList_toList]
  have htexts : w.map (·.text) = d.texts s := by
    rw [Document.texts, hs.tokenTexts_eq, ← hsigns, List.map_map]
    rfl
  have hechoes : ∀ {cs : List Tree} {o : Origin}, Derives .value w [.node .constValue cs] →
      o.Tells d' (.node .constValue cs) →
      Echoes d' d (.terminal .literal o) (.terminal .literal s) := by
    intro cs o hcs ho
    have htokens := hcs.tokens_eq
    refine ⟨?_, ?_⟩
    · rw [shape, shape, Document.texts, ho.tokenTexts_eq, htokens, htexts]
    · rw [source, source, ho.rangeText_eq, htokens, hspan]
  have hderives : ∃ cs, Derives .value w [.node .constValue cs] := by
    obtain ⟨k, hk, hkinds⟩ | hstrings := hs.kinds
    · rw [← hsigns, List.map_map, List.map_eq_singleton_iff] at hkinds
      obtain ⟨t, rfl, rfl⟩ := hkinds
      exact ⟨_, .constant hk⟩
    · refine ⟨_, .strings ?_ fun t ht ↦ ?_⟩
      · rintro rfl
        -- The first lexeme is a token, so there is one.
        rcases hlexemes : lexemes (d.rangeText s.range).toList with - | ⟨⟨kind, text⟩, ls⟩
        · exact hs.framed.ne_nil hlexemes
        · obtain ⟨k, rfl⟩ := hs.framed.first _ (by rw [hlexemes, List.head?_cons])
          rw [Document.signs, hlexemes] at hsigns
          cases hsigns
      · refine hstrings t.sign ?_
        rw [← hsigns]
        exact List.mem_map_of_mem ht
  obtain ⟨cs, hcs⟩ := hderives
  exact ⟨_, hcs, by simp, fun us ↦ yields_operand_constant us fun o ho ↦ hechoes hcs ho⟩

/-! ### Expressions -/

/-- Where the expression is written it is read again: as a value, and as a base if it is no literal.
-/
def Rereads (d' d : Document) (x : Expr) : Prop :=
  ∀ w, d'.Stretch w (x.written d) → IsValue d' w (Echoes d' d · x) ∧
    (x.isLiteral = false → IsBase d' w (Echoes d' d · x))

section

variable {x y z : Expr}

theorem rereads_of_isBase (h : ∀ w, d'.Stretch w (x.written d) → IsBase d' w (Echoes d' d · x)) :
    Rereads d' d x := fun w hw ↦ ⟨(h w hw).isValue, fun _ ↦ h w hw⟩

theorem Rereads.isExpression (h : Rereads d' d x) {w : List Token}
    (hw : d'.Stretch w (x.written d)) : IsExpression d' w (Echoes d' d · x) :=
  (h w hw).1.isExpression

/-- The space behind an operator is no token. -/
theorem stretch_behindUnary {w : List Token} {op : Operator} {ls : List Lexeme}
    (h : d'.Stretch w (behindUnary op ++ ls)) : d'.Stretch w ls := by
  unfold behindUnary at h
  split at h
  · exact h.trivia
  · exact h

/-- A sign at the end of some lexemes. -/
theorem exists_of_concat {w : List Token} {ls : List Lexeme} {c : Char} {k : Token.Kind}
    (h : d'.Stretch w (ls ++ [ofSign c k])) :
    ∃ u r, w = u ++ [r] ∧ r.kind = k ∧ d'.Stretch u ls := by
  obtain ⟨u, v, rfl, hu, hv⟩ := h.append
  obtain ⟨r, v, rfl, hr, -, hnil⟩ := hv.token
  obtain rfl := hnil.eq_nil
  exact ⟨u, r, rfl, hr, hu⟩

/-- Operations are written in parentheses, and what is in them is read again. -/
theorem rereads_unary {op : Operator} (hop : op.isUnary = true) (hx : Rereads d' d x) (o : Origin) :
    Rereads d' d (.unary op x o) := by
  refine rereads_of_isBase fun w hw ↦ ?_
  rw [written] at hw
  obtain ⟨l, w, rfl, hl, -, hw⟩ := hw.token
  obtain ⟨t, w, rfl, ht, -, hw⟩ := hw.token
  obtain ⟨u, r, rfl, hr, hu⟩ := exists_of_concat (stretch_behindUnary hw)
  have hunary : Operator.unary? t.kind = some op := by rw [ht, Operator.unary?_tokenKind hop]
  refine (((hx u hu).1.unary hunary).parens hl hr).mono ?_
  rintro _ ⟨y, o', rfl, hy⟩
  exact hy.unary op o' o

/-- The same goes for those between two operands. -/
theorem rereads_operation {k : Token.Kind} {op : Operator} (hop : Operator.binary? k = some op)
    (hx : Rereads d' d x) (hy : Rereads d' d y) (o : Origin) : Rereads d' d (.binary op x y o) := by
  refine rereads_of_isBase fun w hw ↦ ?_
  rw [written_operation hop] at hw
  obtain ⟨l, w, rfl, hl, -, hw⟩ := hw.token
  obtain ⟨u, w, rfl, hu, hw⟩ := hw.append
  obtain ⟨t, w, rfl, ht, -, hw⟩ := hw.trivia.token
  obtain ⟨v, r, rfl, hr, hv⟩ := exists_of_concat hw.trivia
  have hbinary : Operator.binary? t.kind = some op := by
    rw [ht, Operator.tokenKind_of_binary? hop, hop]
  have hbase := ((hx u hu).1.operation (hy v hv).1 hbinary).parens hl hr
  rw [List.append_assoc, List.cons_append] at hbase
  refine hbase.mono ?_
  rintro _ ⟨y₁, y₂, o', rfl, h₁, h₂⟩
  exact h₁.binary h₂ op o' o

/-- What has an index is a base, since it is no literal. -/
theorem rereads_index (hliteral : x.isLiteral = false) (hx : Rereads d' d x) (hy : Rereads d' d y)
    (o : Origin) : Rereads d' d (.binary .indexAccess x y o) := by
  refine rereads_of_isBase fun w hw ↦ ?_
  rw [written] at hw
  obtain ⟨u, w, rfl, hu, hw⟩ := hw.append
  obtain ⟨l, w, rfl, hl, -, hw⟩ := hw.token
  obtain ⟨v, r, rfl, hr, hv⟩ := exists_of_concat hw
  refine (((hx u hu).2 hliteral).access ((hy.isExpression hv).index hl hr)).mono ?_
  rintro _ ⟨y₁, _, y₂, o', rfl, h₁, rfl, h₂⟩
  exact h₁.binary h₂ .indexAccess o' o

/-- A choice is read again from its three parts. -/
theorem rereads_ternary (hx : Rereads d' d x) (hy : Rereads d' d y) (hz : Rereads d' d z)
    (o : Origin) : Rereads d' d (.ternary x y z o) := by
  refine rereads_of_isBase fun w hw ↦ ?_
  rw [written] at hw
  obtain ⟨q, w, rfl, hq, -, hw⟩ := hw.token
  obtain ⟨l, w, rfl, hl, -, hw⟩ := hw.token
  obtain ⟨u₁, w, rfl, hu₁, hw⟩ := hw.append
  obtain ⟨c, w, rfl, hc, -, hw⟩ := hw.token
  obtain ⟨u₂, w, rfl, hu₂, hw⟩ := hw.trivia.append
  obtain ⟨c', w, rfl, hc', -, hw⟩ := hw.token
  obtain ⟨u₃, r, rfl, hr, hu₃⟩ := exists_of_concat hw.trivia
  refine (isHead_ternary (hx.isExpression hu₁) (hy.isExpression hu₂) (hz.isExpression hu₃)
    hq hl hc hc' hr).isBase.mono ?_
  rintro _ ⟨y₁, y₂, y₃, o', rfl, h₁, h₂, h₃⟩
  exact h₁.ternary h₂ h₃ o' o

/-- Behind a dot a word is a name, even a reserved one. -/
theorem rereads_property {k : Token.Kind} {s : Origin} (hliteral : x.isLiteral = false)
    (hx : Rereads d' d x) (hk : IsName k) (hs : d.IsWord s.range k) (o : Origin) :
    Rereads d' d (.binary .dereference x (.terminal .identifier s) o) := by
  refine rereads_of_isBase fun w hw ↦ ?_
  rw [written, written, ← List.append_nil (lexemes (d.rangeText s.range).toList)] at hw
  obtain ⟨u, w, rfl, hu, hw⟩ := hw.append
  obtain ⟨dot, w, rfl, hdot, -, hw⟩ := hw.token
  obtain ⟨t, w, rfl, ht, hstretch, hnil⟩ := stretch_word hs hw
  obtain rfl := hnil.eq_nil
  refine (((hx u hu).2 hliteral).access (.property hdot (ht ▸ hk))).mono ?_
  rintro _ ⟨y, _, _, o', rfl, hy, rfl, o'', rfl, htells⟩
  exact hy.binary (echoes_name (echoes_word hs hstretch rfl htells)) .dereference o' o

/-! ### Calls -/

variable {args : List Expr}

/-- Where an argument is written it is read again. -/
theorem isParam_written (hlist : AreListed d args)
    (h : ∀ a ∈ args, a.isEmpty = false → Rereads d' d a) {a : Expr} (ha : a ∈ args)
    {w : List Token} (hw : d'.Stretch w (a.written d)) : IsParam d' w (Echoes d' d · a) := by
  cases hempty : a.isEmpty with
  | false => exact ((h a ha hempty).isExpression hw).isParam
  -- An argument left out is written as nothing, and nothing is read as an argument left out.
  | true =>
    have hblank := hlist.isBlank a ha hempty
    obtain ⟨hwritten, hsource⟩ := hblank.written_eq hempty
    rw [hwritten] at hw
    obtain rfl := hw.eq_nil
    obtain ⟨t, ht, hkind, hyields⟩ := @isParam_nil d'
    refine ⟨t, ht, hkind, hyields.mono ?_⟩
    rintro _ ⟨o, rfl, htext, htexts⟩
    refine ⟨?_, by rw [source, htext, hsource]⟩
    unfold isEmpty at hempty
    split at hempty
    next s =>
      rw [shape, shape, Document.texts, htexts, Document.texts,
        show d.tokenTexts s.range = [] from hblank.tokenTexts_eq]
    next => cases hempty

/-- Where arguments behind another one are written they are read again. -/
theorem isParams_written (h : ∀ a ∈ args, ∀ w, d'.Stretch w (a.written d) →
      IsParam d' w (Echoes d' d · a)) {w : List Token} (hw : d'.Stretch w (writtenRest d args)) :
    IsParams d' w (EchoesAll d' d · args) := by
  induction args generalizing w with
  | nil =>
    obtain rfl := hw.eq_nil
    exact isParams_nil .nil
  | cons a as ih =>
    obtain ⟨ha, has⟩ := List.forall_mem_cons.1 h
    rw [writtenRest] at hw
    obtain ⟨c, w, rfl, hc, -, hw⟩ := hw.token
    obtain ⟨u, v, rfl, hu, hv⟩ := hw.trivia.append
    exact (ha u hu).cons (ih has hv) hc fun y ys hy hys ↦ .cons hy hys

/-- Where the arguments of a call are written they are read again. -/
theorem isCall_written (hlist : AreListed d args)
    (h : ∀ a ∈ args, a.isEmpty = false → Rereads d' d a) {w : List Token}
    (hw : d'.Stretch w
      (ofSign '(' .leftParen :: (writtenList d args ++ [ofSign ')' .rightParen]))) :
    IsCall d' w (EchoesAll d' d · args) := by
  have hparam : ∀ a ∈ args, ∀ w, d'.Stretch w (a.written d) → IsParam d' w (Echoes d' d · a) :=
    fun a ha w hw ↦ isParam_written hlist h ha hw
  obtain ⟨l, w, rfl, hl, -, hw⟩ := hw.token
  obtain ⟨w, r, rfl, hr, hw⟩ := exists_of_concat hw
  cases args with
  | nil =>
    -- No arguments are read as one that was left out, and that is none again.
    obtain rfl := hw.eq_nil
    refine isParam_nil.isCall (isParams_nil (A := (· = [])) rfl) hl hr ?_
    rintro _ _ ⟨o, rfl, -⟩ rfl
    exact .nil
  | cons a as =>
    obtain ⟨ha, has⟩ := List.forall_mem_cons.1 hparam
    rw [writtenList] at hw
    obtain ⟨u, v, rfl, hu, hv⟩ := hw.append
    have hcall := (ha u hu).isCall (isParams_written has hv) hl hr
      (B := (EchoesAll d' d · (a :: as))) ?_
    · rwa [← List.append_assoc] at hcall
    · intro y ys hy hys
      have hall : EchoesAll d' d (y :: ys) (a :: as) := .cons hy hys
      unfold trimmed
      split
      next z heq =>
        obtain ⟨rfl, rfl⟩ := List.cons.inj heq
        cases hys
        rw [hy.isEmpty_eq, hlist.alone a rfl]
        exact hall
      next => exact hall

/-- A call echoes one by the same name with arguments that echo. -/
theorem Echoes.method {callee callee' : Expr} {ys : List Expr} (h : Echoes d' d callee' callee)
    (hys : EchoesAll d' d ys args) (o o' : Origin) :
    Echoes d' d (.call .method callee' ys o) (.call .method callee args o') :=
  ⟨by rw [shape, shape, h.shape_eq, hys.shapeList_eq],
    by rw [source, source, h.source_eq, hys.sourceList_eq]⟩

/-- A call is read again from its name and its arguments, -/
theorem rereads_call {s : Origin} (hs : d.IsWord s.range .identifier) (hlist : AreListed d args)
    (h : ∀ a ∈ args, a.isEmpty = false → Rereads d' d a) (o : Origin) :
    Rereads d' d (.call .method (.terminal .identifier s) args o) := by
  refine rereads_of_isBase fun w hw ↦ ?_
  rw [written, written] at hw
  obtain ⟨t, w, rfl, ht, hstretch, hw⟩ := stretch_word hs hw
  refine ((isCall_written hlist h hw).isHead ht).isBase.mono ?_
  rintro _ ⟨o', ys, o'', rfl, htells, hys⟩
  exact (echoes_name (echoes_word hs hstretch rfl htells)).method hys o'' o

/-- also behind a dot. -/
theorem rereads_method {k : Token.Kind} {s : Origin} (hliteral : x.isLiteral = false)
    (hx : Rereads d' d x) (hk : IsName k) (hs : d.IsWord s.range k) (hlist : AreListed d args)
    (h : ∀ a ∈ args, a.isEmpty = false → Rereads d' d a) (o o' : Origin) :
    Rereads d' d (.binary .dereference x (.call .method (.terminal .identifier s) args o) o') := by
  refine rereads_of_isBase fun w hw ↦ ?_
  rw [written, written, written] at hw
  obtain ⟨u, w, rfl, hu, hw⟩ := hw.append
  obtain ⟨dot, w, rfl, hdot, -, hw⟩ := hw.token
  obtain ⟨t, w, rfl, ht, hstretch, hw⟩ := stretch_word hs hw
  refine (((hx u hu).2 hliteral).access ((isCall_written hlist h hw).method hdot (ht ▸ hk))).mono ?_
  rintro _ ⟨y, _, _, o₁, rfl, hy, rfl, o₂, ys, o₃, rfl, htells, hys⟩
  have hcall := (echoes_name (echoes_word hs hstretch rfl htells)).method hys o₃ o
  exact hy.binary hcall .dereference o₁ o'

/-- The making of an object is read again with the name of its type, -/
theorem rereads_new {s : Origin} (htoken : s.token? = none) (hs : d.IsWord s.range .identifier)
    (hlist : AreListed d args) (h : ∀ a ∈ args, a.isEmpty = false → Rereads d' d a) (o : Origin) :
    Rereads d' d (.call .constructor (.terminal .identifier s) args o) := by
  have hne : ¬s.token? = some (.keyword .new) := by simp [htoken]
  refine rereads_of_isBase fun w hw ↦ ?_
  rw [written, origin, if_neg hne, List.cons_append, written] at hw
  obtain ⟨n, w, rfl, hn, -, hw⟩ := hw.token
  obtain ⟨t, w, rfl, ht, hstretch, hw⟩ := stretch_word hs hw.trivia
  refine ((isCall_written hlist h hw).new hn ht).isBase.mono ?_
  rintro _ ⟨o', ys, o'', rfl, htells, hys⟩
  obtain ⟨htext, htexts⟩ := echoes_word hs hstretch rfl htells
  have htoken' : ¬o'.token? = some (.keyword .new) := by
    -- The origin is a name, so the type is taken from it and not left open.
    rw [htells.token?_eq]
    simp [Tree.token?]
  refine ⟨?_, ?_⟩
  · rw [shape, shape, shape, shape, htexts, Document.typeTexts, if_neg hne, hys.shapeList_eq]
    rfl
  · have hcallee := (echoes_name ⟨htext, htexts⟩).source_eq
    rw [@source_new (.terminal .identifier o') htoken', @source_new (.terminal .identifier s) hne,
      hcallee, hys.sourceList_eq]

/-- or without, where the word itself stands for it. -/
theorem rereads_newUntyped {s : Origin} (htoken : s.token? = some (.keyword .new))
    (hlist : AreListed d args) (h : ∀ a ∈ args, a.isEmpty = false → Rereads d' d a) (o : Origin) :
    Rereads d' d (.call .constructor (.terminal .identifier s) args o) := by
  refine rereads_of_isBase fun w hw ↦ ?_
  rw [written, origin, if_pos htoken, List.nil_append] at hw
  obtain ⟨n, w, rfl, hn, hstretch, hw⟩ := hw.token
  refine ((isCall_written hlist h hw).newUntyped hn).isBase.mono ?_
  rintro _ ⟨o', ys, o'', rfl, htells, hys⟩
  have htoken' : o'.token? = some (.keyword .new) := by
    rw [htells.token?_eq, ← hn]
    rfl
  -- The word is read as it is written, not as it was spelt.
  have htexts : d'.texts o' = ["Новый"] := by
    have hsign : [n.sign] = [(.keyword .new, "Новый")] := hstretch.map_sign
    rw [Document.texts, htells.tokenTexts_eq]
    exact congrArg (List.map Prod.snd) hsign
  refine ⟨?_, ?_⟩
  · rw [shape, shape, shape, shape, htexts, Document.typeTexts, if_pos htoken, hys.shapeList_eq]
  · rw [@source_newUntyped (.terminal .identifier o') htoken',
      @source_newUntyped (.terminal .identifier s) htoken, hys.sourceList_eq]

end

/-- **A written expression is read again**, if it holds no access to a literal. -/
theorem Normal.rereads {x : Expr} (h : Normal d x)
    (haccess : ∀ y ∈ x.parts, y.isLiteralAccess = false) : Rereads d' d x := by
  -- What holds for the parts of a list holds for the parts of each of its members.
  have hlist : ∀ {args : List Expr}, (∀ y ∈ partsList args, y.isLiteralAccess = false) →
      ∀ a ∈ args, ∀ y ∈ a.parts, y.isLiteralAccess = false :=
    fun hall a ha y hy ↦ hall y (mem_partsList.2 ⟨a, ha, hy⟩)
  induction h with
  | literal ho =>
    intro w hw
    rw [written] at hw
    exact ⟨isValue_literal ho hw, nofun⟩
  | @name s hs =>
    refine rereads_of_isBase fun w hw ↦ ?_
    rw [written, ← List.append_nil (lexemes (d.rangeText s.range).toList)] at hw
    obtain ⟨t, w, rfl, ht, hstretch, hnil⟩ := stretch_word hs hw
    obtain rfl := hnil.eq_nil
    refine (isHead_name ht).isBase.mono ?_
    rintro _ ⟨o, rfl, htells⟩
    exact echoes_name (echoes_word hs hstretch rfl htells)
  | unary hop _ ih =>
    simp only [parts, List.forall_mem_cons] at haccess
    exact rereads_unary hop (ih haccess.2) _
  | operation hop _ _ ihx ihy =>
    simp only [parts, List.forall_mem_cons, List.forall_mem_append] at haccess
    exact rereads_operation hop (ihx haccess.2.1) (ihy haccess.2.2) _
  | property _ hk hs ih =>
    simp only [parts, List.forall_mem_cons, List.forall_mem_append] at haccess
    exact rereads_property haccess.1 (ih haccess.2.1) hk hs _
  | method _ hk hs hlisted _ ih ihargs =>
    simp only [parts, List.forall_mem_cons, List.forall_mem_append] at haccess
    obtain ⟨hliteral, hleft, -, -, hargs⟩ := haccess
    exact rereads_method hliteral (ih hleft) hk hs hlisted
      (fun a ha hempty ↦ ihargs a ha hempty (hlist hargs a ha)) _ _
  | index _ _ ihx ihy =>
    simp only [parts, List.forall_mem_cons, List.forall_mem_append] at haccess
    exact rereads_index haccess.1 (ihx haccess.2.1) (ihy haccess.2.2) _
  | ternary _ _ _ ihx ihy ihz =>
    simp only [parts, List.forall_mem_cons, List.forall_mem_append] at haccess
    exact rereads_ternary (ihx haccess.2.1) (ihy haccess.2.2.1) (ihz haccess.2.2.2) _
  | call hs hlisted _ ihargs =>
    simp only [parts, List.forall_mem_cons, List.forall_mem_append] at haccess
    exact rereads_call hs hlisted
      (fun a ha hempty ↦ ihargs a ha hempty (hlist haccess.2.2 a ha)) _
  | new htoken hs hlisted _ ihargs =>
    simp only [parts, List.forall_mem_cons, List.forall_mem_append] at haccess
    exact rereads_new htoken hs hlisted
      (fun a ha hempty ↦ ihargs a ha hempty (hlist haccess.2.2 a ha)) _
  | newUntyped htoken _ hlisted _ ihargs =>
    simp only [parts, List.forall_mem_cons, List.forall_mem_append] at haccess
    exact rereads_newUntyped htoken hlisted
      (fun a ha hempty ↦ ihargs a ha hempty (hlist haccess.2.2 a ha)) _

end Expr

end BslLint
