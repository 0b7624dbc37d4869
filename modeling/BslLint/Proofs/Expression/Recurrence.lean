import BslLint.Proofs.Expression.Normal
import BslLint.Proofs.Expression.Resemblance

/-!
# Parts that recur

A part of an expression recurs (`Expr.Recurs`) if the same words are such a part in every document,
and stand there for something of the same shape. Every rule of the grammar for values, accesses and
calls makes parts that recur out of parts that do. Rows are left out here, because they have to be
resolved.
-/

namespace BslLint

namespace Expr

open Grammar

/-! ### The same words -/

/-- The tokens have the same kinds and texts, wherever they stand. -/
def SameWords (v w : List Token) : Prop := v.map Token.sign = w.map Token.sign

namespace SameWords

variable {u v w : List Token} {t : Token}

theorem eq_nil (h : SameWords v []) : v = [] := List.map_eq_nil_iff.1 h

/-- The same words begin with the same word. -/
theorem exists_cons (h : SameWords v (t :: w)) :
    ∃ s v', v = s :: v' ∧ s.kind = t.kind ∧ s.text = t.text ∧ SameWords v' w := by
  obtain ⟨s, v', rfl, hs, hv⟩ := List.map_eq_cons_iff.1 h
  exact ⟨s, v', rfl, congrArg Prod.fst hs, congrArg Prod.snd hs, hv⟩

/-- They can be cut where the others can. -/
theorem exists_append (h : SameWords v (u ++ w)) :
    ∃ u' w', v = u' ++ w' ∧ SameWords u' u ∧ SameWords w' w := by
  rw [SameWords, List.map_append] at h
  exact List.map_eq_append_iff.1 h

theorem exists_single (h : SameWords v [t]) :
    ∃ s, v = [s] ∧ s.kind = t.kind ∧ s.text = t.text := by
  obtain ⟨s, v, rfl, hkind, htext, hv⟩ := h.exists_cons
  obtain rfl := hv.eq_nil
  exact ⟨s, rfl, hkind, htext⟩

/-- What is enclosed by one token on each side is enclosed again. -/
theorem exists_enclosed {l r : Token} (h : SameWords v (l :: (w ++ [r]))) :
    ∃ l' w' r', v = l' :: (w' ++ [r']) ∧ l'.kind = l.kind ∧ SameWords w' w ∧ r'.kind = r.kind := by
  obtain ⟨l', v, rfl, hl, -, hv⟩ := h.exists_cons
  obtain ⟨w', v, rfl, hw, hv⟩ := hv.exists_append
  obtain ⟨r', rfl, hr, -⟩ := hv.exists_single
  exact ⟨l', w', r', rfl, hl, hw, hr⟩

theorem kinds_eq (h : SameWords v w) : v.map (·.kind) = w.map (·.kind) := by
  have hfirst := congrArg (List.map Prod.fst) h
  rwa [List.map_map, List.map_map] at hfirst

theorem texts_eq (h : SameWords v w) : v.map (·.text) = w.map (·.text) := by
  have hsecond := congrArg (List.map Prod.snd) h
  rwa [List.map_map, List.map_map] at hsecond

end SameWords

/-- Wherever the same words stand they are such a part, and it has the shape of the expression. -/
def Recurs (F : Document → List Token → (Expr → Prop) → Prop) (d : Document) (w : List Token)
    (x : Expr) : Prop :=
  ∀ d' v, SameWords v w → F d' v (Resembles d' d · x)

/-- Wherever the same words stand they are such a part, and it has the shapes of the expressions. -/
def RecursAll (F : Document → List Token → (List Expr → Prop) → Prop) (d : Document)
    (w : List Token) (xs : List Expr) : Prop :=
  ∀ d' v, SameWords v w → F d' v (ResembleAll d' d · xs)

/-- Wherever the same words stand they are an access of the same kind and shape. -/
def RecursAccess (d : Document) (w : List Token) (a : Operator × Expr) : Prop :=
  ∀ d' v, SameWords v w → IsAccess d' v fun b ↦ b.1 = a.1 ∧ Resembles d' d b.2 a.2

variable {d : Document} {u v w : List Token} {x y z : Expr} {xs : List Expr} {o : Origin}
  {s t l r : Token} {cs : List Tree}

/-! ### Names and constants -/

/-- Terminals with the same text have the same shape. -/
theorem Resembles.of_tells {d' : Document} {o' : Origin} {t' t : Tree} (ho' : o'.Tells d' t')
    (ho : o.Tells d t) (htexts : t'.tokens.map (·.text) = t.tokens.map (·.text)) (symbol : Symbol) :
    Resembles d' d (.terminal symbol o') (.terminal symbol o) := by
  refine .terminal ?_ symbol
  rw [ho'.tokenTexts_eq, ho.tokenTexts_eq, htexts]

/-- The same word has the same text. -/
theorem Resembles.of_word {d' : Document} {o' : Origin} {t' : Token} (ho' : o'.Tells d' (.leaf t'))
    (ho : o.Tells d (.leaf t)) (htext : t'.text = t.text) :
    Resembles d' d (.terminal .identifier o') (.terminal .identifier o) :=
  .of_tells ho' ho (congrArg (fun text ↦ [text]) htext) .identifier

/-- A constant is told by its tokens. -/
theorem isValue_constant (h : Derives .value w [.node .constValue cs]) :
    IsValue d w fun y ↦ ∃ o : Origin, y = .terminal .literal o ∧ o.Tells d (.node .constValue cs) :=
  ⟨_, h, by simp, fun us ↦ yields_operand_constant us fun o ho ↦ ⟨o, rfl, ho⟩⟩

/-- The same words are a constant again. -/
theorem SameWords.exists_constValue (h : SameWords v w)
    (hw : Derives .value w [.node .constValue cs]) :
    ∃ ds, Derives .value v [.node .constValue ds] := by
  cases hw with
  | strings hts hstrings =>
    refine ⟨_, .strings ?_ fun s hs ↦ ?_⟩
    · rintro rfl
      exact hts (List.map_eq_nil_iff.1 h.symm)
    · obtain ⟨t, ht, hst⟩ := List.mem_map.1 (h ▸ List.mem_map_of_mem hs)
      exact (congrArg Prod.fst hst).symm.trans (hstrings t ht)
  | constant ht =>
    obtain ⟨s, rfl, hkind, -⟩ := h.exists_single
    exact ⟨_, .constant (hkind ▸ ht)⟩

/-- A constant recurs, -/
theorem recurs_constant (h : Derives .value w [.node .constValue cs])
    (ho : o.Tells d (.node .constValue cs)) : Recurs IsValue d w (.terminal .literal o) := by
  intro d' v hv
  obtain ⟨ds, hds⟩ := hv.exists_constValue h
  refine (isValue_constant hds).mono ?_
  rintro _ ⟨o', rfl, ho'⟩
  refine .of_tells ho' ho ?_ .literal
  rw [hds.tokens_eq, h.tokens_eq, hv.texts_eq]

/-- and so does a name. -/
theorem recurs_name (ht : t.kind = .identifier) (ho : o.Tells d (.leaf t)) :
    Recurs IsHead d [t] (.terminal .identifier o) := by
  intro d' v hv
  obtain ⟨t', rfl, hkind, htext⟩ := hv.exists_single
  refine (isHead_name (hkind.trans ht)).mono ?_
  rintro _ ⟨o', rfl, ho'⟩
  exact .of_word ho' ho htext

/-! ### Accesses -/

/-- An access to a property recurs with its name. -/
theorem recurs_property (hs : s.kind = .dot) (ht : IsName t.kind) (ho : o.Tells d (.leaf t)) :
    RecursAccess d [s, t] (.dereference, .terminal .identifier o) := by
  intro d' v hv
  obtain ⟨s', v, rfl, hs', -, hv⟩ := hv.exists_cons
  obtain ⟨t', rfl, ht', htext⟩ := hv.exists_single
  refine (IsAccess.property (hs'.trans hs) (ht' ▸ ht)).mono ?_
  rintro ⟨_, _⟩ ⟨rfl, o', rfl, ho'⟩
  exact ⟨rfl, .of_word ho' ho htext⟩

/-- An access by index recurs with its index. -/
theorem Recurs.index (h : Recurs IsExpression d w x) (hl : l.kind = .leftBracket)
    (hr : r.kind = .rightBracket) : RecursAccess d (l :: (w ++ [r])) (.indexAccess, x) := by
  intro d' v hv
  obtain ⟨l', w', r', rfl, hl', hw', hr'⟩ := hv.exists_enclosed
  exact (h d' w' hw').index (hl'.trans hl) (hr'.trans hr)

/-- With an access behind it a base is a base, and recurs. -/
theorem Recurs.access {op : Operator} (hu : Recurs IsBase d u x) (hv : RecursAccess d v (op, y))
    (o : Origin) : Recurs IsBase d (u ++ v) (.binary op x y o) := by
  intro d' w hw
  obtain ⟨u', v', rfl, hu', hv'⟩ := hw.exists_append
  refine ((hu d' u' hu').access (hv d' v' hv')).mono ?_
  rintro _ ⟨x', _, y', o', rfl, hx, rfl, hy⟩
  exact hx.binary hy _ o' o

/-! ### Arguments and calls -/

theorem Recurs.argument (h : Recurs IsExpression d w x) : Recurs IsParam d w x :=
  fun d' v hv ↦ (h d' v hv).isParam

/-- Where an argument was left out, there were no words, so it is left out again. -/
theorem recurs_argument_none (ho : d.tokenTexts o.range = []) :
    Recurs IsParam d [] (.terminal .empty o) := by
  intro d' v hv
  obtain rfl := hv.eq_nil
  refine isParam_nil.mono ?_
  rintro _ ⟨o', rfl, -, ho'⟩
  exact .terminal (ho'.trans ho.symm) .empty

theorem recursAll_nil : RecursAll IsParams d [] [] := by
  intro d' v hv
  obtain rfl := hv.eq_nil
  exact isParams_nil .nil

/-- An argument more recurs with its comma. -/
theorem Recurs.cons (hu : Recurs IsParam d u x) (hv : RecursAll IsParams d v xs)
    (hs : s.kind = .comma) : RecursAll IsParams d (s :: (u ++ v)) (x :: xs) := by
  intro d' w hw
  obtain ⟨s', w, rfl, hs', -, hw⟩ := hw.exists_cons
  obtain ⟨u', v', rfl, hu', hv'⟩ := hw.exists_append
  exact (hu d' u' hu').cons (hv d' v' hv') (hs'.trans hs) fun y ys hy hys ↦ .cons hy hys

/-- The arguments of a call recur with their parentheses. -/
theorem Recurs.call (hu : Recurs IsParam d u x) (hv : RecursAll IsParams d v xs)
    (hl : l.kind = .leftParen) (hr : r.kind = .rightParen) :
    RecursAll IsCall d (l :: (u ++ (v ++ [r]))) (trimmed (x :: xs)) := by
  intro d' w hw
  obtain ⟨l', w, rfl, hl', -, hw⟩ := hw.exists_cons
  obtain ⟨u', w, rfl, hu', hw⟩ := hw.exists_append
  obtain ⟨v', w, rfl, hv', hw⟩ := hw.exists_append
  obtain ⟨r', rfl, hr', -⟩ := hw.exists_single
  exact (hu d' u' hu').isCall (hv d' v' hv') (hl'.trans hl) (hr'.trans hr)
    fun y ys hy hys ↦ ResembleAll.trimmed (.cons hy hys)

theorem RecursAll.optional (h : RecursAll IsCall d w xs) : RecursAll IsOptionalCall d w xs :=
  fun d' v hv ↦ (h d' v hv).isOptionalCall

theorem recursAll_optional_none : RecursAll IsOptionalCall d [] [] := by
  intro d' v hv
  obtain rfl := hv.eq_nil
  exact isOptionalCall_nil .nil

/-- A call by the same name, with arguments of the same shapes, has the same shape. -/
theorem IsMethodCall.resembles {d' : Document} {t' : Token}
    (hy : IsMethodCall d' t' (ResembleAll d' d · xs) y) (ho : o.Tells d (.leaf t))
    (htext : t'.text = t.text) (o' : Origin) :
    Resembles d' d y (.call .method (.terminal .identifier o) xs o') := by
  obtain ⟨o'', ys, o''', rfl, ho'', hys⟩ := hy
  exact (Resembles.of_word ho'' ho htext).call hys .method _ o'

/-- A call of a method by its name alone recurs. -/
theorem recurs_methodCall (ht : t.kind = .identifier)
    (h : IsMethodCall d t (RecursAll IsCall d w) x) : Recurs IsHead d (t :: w) x := by
  obtain ⟨o, xs, o', rfl, ho, hxs⟩ := h
  intro d' v hv
  obtain ⟨t', v, rfl, ht', htext, hv⟩ := hv.exists_cons
  exact ((hxs d' v hv).isHead (ht'.trans ht)).mono fun y hy ↦ hy.resembles ho htext o'

/-- The call of a method behind a dot recurs. -/
theorem recurs_method (hs : s.kind = .dot) (ht : IsName t.kind)
    (h : IsMethodCall d t (RecursAll IsCall d w) x) :
    RecursAccess d (s :: t :: w) (.dereference, x) := by
  obtain ⟨o, xs, o', rfl, ho, hxs⟩ := h
  intro d' v hv
  obtain ⟨s', v, rfl, hs', -, hv⟩ := hv.exists_cons
  obtain ⟨t', v, rfl, ht', htext, hv⟩ := hv.exists_cons
  refine ((hxs d' v hv).method (hs'.trans hs) (ht' ▸ ht)).mono ?_
  rintro ⟨_, y⟩ ⟨rfl, hy⟩
  exact ⟨rfl, hy.resembles ho htext o'⟩

/-- The making of an object recurs, whether the type is named or not. -/
theorem recurs_new (hs : s.kind = .keyword .new) (htype : Derives .typeName u cs)
    (h : IsConstruction d (calleeTree s cs) (RecursAll IsOptionalCall d w) x) :
    Recurs IsHead d (s :: (u ++ w)) x := by
  obtain ⟨o, xs, o', rfl, ho, hxs⟩ := h
  intro d' v hv
  obtain ⟨s', v, rfl, hs', hstext, hv⟩ := hv.exists_cons
  obtain ⟨u', w', rfl, hu', hw'⟩ := hv.exists_append
  have hcall := hxs d' w' hw'
  -- Without a name the call follows the keyword at once, and with one the name lies between.
  cases htype with
  | typeName_none =>
    obtain rfl := hu'.eq_nil
    refine (hcall.isHead (hs'.trans hs) .typeName_none).mono ?_
    rintro _ ⟨o'', ys, o''', rfl, ho'', hys⟩
    exact (Resembles.of_word ho'' ho hstext).call hys .constructor _ o'
  | typeName_some ht =>
    obtain ⟨t', rfl, ht', htext⟩ := hu'.exists_single
    refine (hcall.isHead (hs'.trans hs) (.typeName_some (ht'.trans ht))).mono ?_
    rintro _ ⟨o'', ys, o''', rfl, ho'', hys⟩
    have hcallee := Resembles.of_tells ho'' ho (congrArg (fun text ↦ [text]) htext) .identifier
    exact hcallee.call hys .constructor _ o'

/-- A choice recurs with its three parts. -/
theorem recurs_ternary {q c c' : Token} (hx : Recurs IsExpression d u x)
    (hy : Recurs IsExpression d v y) (hz : Recurs IsExpression d w z) (hq : q.kind = .question)
    (hl : l.kind = .leftParen) (hc : c.kind = .comma) (hc' : c'.kind = .comma)
    (hr : r.kind = .rightParen) (o : Origin) :
    Recurs IsHead d (q :: l :: (u ++ c :: (v ++ c' :: (w ++ [r])))) (.ternary x y z o) := by
  intro d' k hk
  obtain ⟨q', k, rfl, hq', -, hk⟩ := hk.exists_cons
  obtain ⟨l', k, rfl, hl', -, hk⟩ := hk.exists_cons
  obtain ⟨u', k, rfl, hu', hk⟩ := hk.exists_append
  obtain ⟨c₁, k, rfl, hc₁, -, hk⟩ := hk.exists_cons
  obtain ⟨v', k, rfl, hv', hk⟩ := hk.exists_append
  obtain ⟨c₂, k, rfl, hc₂, -, hk⟩ := hk.exists_cons
  obtain ⟨w', k, rfl, hw', hk⟩ := hk.exists_append
  obtain ⟨r', rfl, hr', -⟩ := hk.exists_single
  refine (isHead_ternary (hx d' u' hu') (hy d' v' hv') (hz d' w' hw') (hq'.trans hq) (hl'.trans hl)
    (hc₁.trans hc) (hc₂.trans hc') (hr'.trans hr)).mono ?_
  rintro _ ⟨x', y', z', o', rfl, hx', hy', hz'⟩
  exact hx'.ternary hy' hz' o' o

/-! ### Values -/

theorem Recurs.isBase (h : Recurs IsHead d w x) : Recurs IsBase d w x :=
  fun d' v hv ↦ (h d' v hv).isBase

/-- Parentheses leave no trace in an expression, and recur with it. -/
theorem Recurs.parens (h : Recurs IsExpression d w x) (hl : l.kind = .leftParen)
    (hr : r.kind = .rightParen) : Recurs IsBase d (l :: (w ++ [r])) x := by
  intro d' v hv
  obtain ⟨l', w', r', rfl, hl', hw', hr'⟩ := hv.exists_enclosed
  exact (h d' w' hw').parens (hl'.trans hl) (hr'.trans hr)

theorem Recurs.isValue (h : Recurs IsBase d w x) : Recurs IsValue d w x :=
  fun d' v hv ↦ (h d' v hv).isValue

end Expr

end BslLint
