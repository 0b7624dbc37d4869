import BslLint.Expression.Source
import BslLint.Proofs.Grammar.Parts
import BslLint.Proofs.Expression.Normal
import BslLint.Proofs.Token.Spacing

/-!
# The tokens of a written expression

`Expr.written` lists the lexemes that an expression is written with, `Expr.source` gives its text.
For normal expressions **the text is cut into just these lexemes**, in front of every delimiter
(`Normal.cuts`). It matters that a space is never put in front of a blank, nor a dot in front of a
digit, and that a delimiter comes behind every terminal.
-/

namespace BslLint

open Text (isDigit)

/-! ### Signs and words -/

/-- The kind of token that an operator is written with. -/
def Operator.tokenKind : Operator → Token.Kind
  | add | unaryPlus => .plus
  | subtract | unaryMinus => .minus
  | multiply => .multiply
  | divide => .divide
  | modulo => .modulo
  | equal => .equal
  | notEqual => .notEqual
  | less => .less
  | lessOrEqual => .lessEqual
  | greater => .greater
  | greaterOrEqual => .greaterEqual
  | and => .keyword .and_
  | or => .keyword .or_
  | not => .keyword .not_
  | dereference => .dot
  | indexAccess => .leftBracket

/-- An operator that was read from a kind of token is written with this kind. -/
theorem Operator.tokenKind_of_binary? {k : Token.Kind} {op : Operator} (h : binary? k = some op) :
    op.tokenKind = k := by
  unfold binary? at h
  split at h <;> cases h <;> rfl

/-- A unary operator is read again from what it is written with. -/
theorem Operator.unary?_tokenKind {op : Operator} (h : op.isUnary = true) :
    unary? op.tokenKind = some op := by
  cases op <;> first | rfl | exact nomatch h

namespace Lexeme

/-- The token that an operator is written with. -/
def ofOperator (op : Operator) : Lexeme := ⟨.token op.tokenKind, op.symbol.toList⟩

/-- The signs of written expressions but for the operators. -/
def signs : List (Char × Token.Kind) :=
  [('(', .leftParen), (')', .rightParen), ('[', .leftBracket), (']', .rightBracket), ('.', .dot),
    (',', .comma), ('?', .question), (';', .semicolon)]

/-- A sign. -/
def ofSign (c : Char) (k : Token.Kind) : Lexeme := ⟨.token k, [c]⟩

/-- The word for a new object. -/
def newWord : Lexeme := ⟨.token (.keyword .new), "Новый".toList⟩

/-- A sign is a lexeme of its own, whatever comes behind it. -/
theorem lexemes_sign (c : Char) (k : Token.Kind) (h : (c, k) ∈ signs) (v : List Char) :
    lexemes (c :: v) = ofSign c k :: lexemes v := by
  have hsign : ∀ p ∈ signs, IsSign p.1 := by
    intro p hp
    revert p
    unfold IsSign
    decide
  have hother : otherHead c v = (.token k, 0) := by
    simp only [signs, List.mem_cons, Prod.mk.injEq, List.not_mem_nil, or_false] at h
    rcases h with ⟨rfl, rfl⟩ | ⟨rfl, rfl⟩ | ⟨rfl, rfl⟩ | ⟨rfl, rfl⟩ | ⟨rfl, rfl⟩ | ⟨rfl, rfl⟩ |
      ⟨rfl, rfl⟩ | ⟨rfl, rfl⟩ <;> rfl
  rw [lexemes_cons, head_of_isSign (hsign _ h), hother]
  rfl

/-- The reserved words that expressions are written with. -/
def writtenWords : List (String × Token.Kind) :=
  [("Новый", .keyword .new), ("И", .keyword .and_), ("Или", .keyword .or_), ("Не", .keyword .not_)]

/-- A written word is read as this word in front of whatever does not prolong it. -/
theorem cuts_writtenWord {text : String} {k : Token.Kind} (h : (text, k) ∈ writtenWords) :
    Cuts text.toList [⟨.token k, text.toList⟩] := by
  have hall :
      writtenWords.all (fun p ↦ lexemes p.1.toList = [⟨.token p.2, p.1.toList⟩]) = true := by
    simp only [lexemes_eq_lexemesUpTo_length]
    decide +kernel
  have hword := of_decide_eq_true (List.all_eq_true.1 hall _ h)
  exact @cuts_of_token text.toList [] [] k text.toList hword

theorem cuts_newWord : Cuts "Новый".toList [newWord] := cuts_writtenWord (by decide)

/-- An operator between operands stands in front of a space. -/
theorem lexemes_operator {k : Token.Kind} {op : Operator} (h : Operator.binary? k = some op)
    (v : List Char) :
    lexemes (op.symbol.toList ++ ' ' :: v) = ofOperator op :: lexemes (' ' :: v) := by
  have hsign : ∀ {c : Char} {r : List Char} {k : Token.Kind}, c.toNat < 65 →
      otherHead c (r ++ ' ' :: v) = (.token k, r.length) →
      lexemes (c :: (r ++ ' ' :: v)) = ⟨.token k, c :: r⟩ :: lexemes (' ' :: v) := by
    intro c r k hc hother
    exact lexemes_of_head ((head_of_isSign (isSign_of_lt hc) _).trans hother)
  have hand : Cuts "И".toList [ofOperator .and] := cuts_writtenWord (by decide)
  have hor : Cuts "Или".toList [ofOperator .or] := cuts_writtenWord (by decide)
  unfold Operator.binary? at h
  split at h <;> cases h
  -- Signs of one character and of two, then the words.
  · exact hsign (r := []) (by decide) rfl
  · exact hsign (r := []) (by decide) rfl
  · exact hsign (r := []) (by decide) rfl
  · exact hsign (r := []) (by decide) rfl
  · exact hsign (r := []) (by decide) rfl
  · exact hsign (r := []) (by decide) rfl
  · exact hsign (r := ['>']) (by decide) rfl
  · exact hsign (r := []) (by decide) rfl
  · exact hsign (r := ['=']) (by decide) rfl
  · exact hsign (r := []) (by decide) rfl
  · exact hsign (r := ['=']) (by decide) rfl
  · exact hand _ (delimits_space v)
  · exact hor _ (delimits_space v)

/-- The space that is put behind an operator in front of an operand. -/
def behindUnary (op : Operator) : List Lexeme := if op = .not then [space] else []

/-- The word for negation needs a space behind it, and the signs must not have one that would be
lost. -/
theorem lexemes_unaryOperator {op : Operator} (h : op.isUnary = true) {v : List Char}
    (hv : Unblank v) :
    lexemes (op.symbol.toList ++ ((if op = .not then " " else "").toList ++ v)) =
      ofOperator op :: (behindUnary op ++ lexemes v) := by
  have hsign : ∀ {c : Char} {k : Token.Kind}, c.toNat < 65 → otherHead c v = (.token k, 0) →
      lexemes (c :: v) = ⟨.token k, [c]⟩ :: lexemes v := by
    intro c k hc hother
    exact @lexemes_of_head c [] v _ ((head_of_isSign (isSign_of_lt hc) _).trans hother)
  have hnot : Cuts "Не".toList [ofOperator .not] := cuts_writtenWord (by decide)
  cases op with
  | not =>
    show lexemes ("Не".toList ++ ' ' :: v) = _
    rw [hnot _ (delimits_space v), lexemes_space hv]
    rfl
  | unaryPlus => exact hsign (by decide) rfl
  | unaryMinus => exact hsign (by decide) rfl
  | _ => exact nomatch h

end Lexeme

open Lexeme in
/-- A sign that may come behind a word or a constant is cut off from the text before it. -/
theorem Cuts.sign {text : List Char} {ls : List Lexeme} (h : Cuts text ls) (c : Char)
    (k : Token.Kind) (hsign : (c, k) ∈ signs ∧ c ∈ delimiters ∧ c ≠ '.') (v : List Char) :
    lexemes (text ++ c :: v) = ls ++ ofSign c k :: lexemes v := by
  rw [h _ (delimits_cons hsign.2.1 hsign.2.2 v), lexemes_sign c k hsign.1]

namespace Expr

open Grammar Lexeme

/-! ### Lexemes -/

section

variable (d : Document)

mutual

/-- The lexemes that an expression is written with. -/
def written : Expr → List Lexeme
  | terminal _ o => lexemes (d.rangeText o.range).toList
  | unary op x _ =>
    ofSign '(' .leftParen :: ofOperator op ::
      (behindUnary op ++ (written x ++ [ofSign ')' .rightParen]))
  | binary .dereference left right _ => written left ++ ofSign '.' .dot :: written right
  | binary .indexAccess left right _ =>
    written left ++ ofSign '[' .leftBracket :: (written right ++ [ofSign ']' .rightBracket])
  | binary op left right _ =>
    ofSign '(' .leftParen :: (written left ++ space :: ofOperator op :: space ::
      (written right ++ [ofSign ')' .rightParen]))
  | ternary condition yes no _ =>
    ofSign '?' .question :: ofSign '(' .leftParen :: (written condition ++
      ofSign ',' .comma :: space :: (written yes ++
        ofSign ',' .comma :: space :: (written no ++ [ofSign ')' .rightParen])))
  | call .method callee args _ =>
    written callee ++ ofSign '(' .leftParen :: (writtenList args ++ [ofSign ')' .rightParen])
  | call .constructor callee args _ =>
    newWord :: ((if callee.origin.token? = some (.keyword .new) then []
      else space :: written callee) ++
        ofSign '(' .leftParen :: (writtenList args ++ [ofSign ')' .rightParen]))

/-- The lexemes that arguments are written with. -/
def writtenList : List Expr → List Lexeme
  | [] => []
  | x :: xs => written x ++ writtenRest xs

/-- The lexemes that arguments behind another one are written with. -/
def writtenRest : List Expr → List Lexeme
  | [] => []
  | x :: xs => ofSign ',' .comma :: space :: (written x ++ writtenRest xs)

end

end

attribute [local simp] source sourceList written writtenList writtenRest

/-! ### Lexemes that begin and end with a token -/

/-- The last lexeme is a token. -/
def EndsInToken (ls : List Lexeme) : Prop := ∃ init k text, ls = init ++ [⟨.token k, text⟩]

theorem EndsInToken.append {ls : List Lexeme} (h : EndsInToken ls) (ms : List Lexeme) :
    EndsInToken (ms ++ ls) := by
  obtain ⟨init, k, text, rfl⟩ := h
  exact ⟨ms ++ init, k, text, (List.append_assoc ..).symm⟩

theorem EndsInToken.cons {ls : List Lexeme} (h : EndsInToken ls) (l : Lexeme) :
    EndsInToken (l :: ls) := h.append [l]

theorem endsInToken_sign (c : Char) (k : Token.Kind) : EndsInToken [ofSign c k] := ⟨[], k, [c], rfl⟩

theorem endsInToken_of_framed {ls : List Lexeme} (h : Framed ls) : EndsInToken ls := by
  obtain ⟨hne, -, hlast⟩ := h
  obtain hnil | ⟨init, ⟨kind, text⟩, rfl⟩ := List.eq_nil_or_concat' ls
  · exact absurd hnil hne
  · obtain ⟨k, rfl⟩ := hlast _ List.getLast?_concat
    exact ⟨init, k, text, rfl⟩

/-- What begins with a token and ends in one is framed. -/
theorem framed_cons {k : Token.Kind} {text : List Char} {ls : List Lexeme}
    (h : EndsInToken (⟨.token k, text⟩ :: ls)) : Framed (⟨.token k, text⟩ :: ls) := by
  refine ⟨List.cons_ne_nil _ _, fun l hl ↦ ⟨k, Option.some.inj hl ▸ rfl⟩, fun l hl ↦ ?_⟩
  obtain ⟨init, k', text', hls⟩ := h
  rw [hls, List.getLast?_concat] at hl
  exact ⟨k', Option.some.inj hl ▸ rfl⟩

theorem framed_append {ls ms : List Lexeme} (hls : Framed ls) (hms : EndsInToken ms) :
    Framed (ls ++ ms) := by
  rcases ls with - | ⟨⟨kind, text⟩, ls⟩
  · exact absurd rfl hls.ne_nil
  · obtain ⟨k, rfl⟩ := hls.first _ rfl
    exact framed_cons ((hms.append ls).cons _)

/-! ### Texts -/

variable {d : Document}

/-- The text of an expression is cut into the lexemes that it is written with. -/
structure IsWritten (d : Document) (x : Expr) : Prop where
  /-- The text is cut into the lexemes. -/
  cuts : Cuts (x.source d.rangeText).toList (x.written d)
  /-- The first lexeme and the last are tokens. -/
  framed : Framed (x.written d)

theorem IsWritten.unblank {x : Expr} (h : IsWritten d x) (v : List Char) :
    Unblank ((x.source d.rangeText).toList ++ v) := unblank_of_framed h.cuts h.framed v

/-- A dot in front of a name delimits what stands before it. -/
theorem delimits_name {r : TokenRange} {k : Token.Kind} (h : d.IsWord r k) (hk : IsName k)
    (v : List Char) : Delimits ('.' :: ((d.rangeText r).toList ++ v)) := by
  refine ⟨fun c hc ↦ Option.some.inj hc ▸ by decide, ?_⟩
  have hlexemes := h.cuts.lexemes_eq
  rcases htext : (d.rangeText r).toList with - | ⟨c, rest⟩
  · rw [htext, lexemes] at hlexemes
    cases hlexemes
  · rw [htext, lexemes_cons] at hlexemes
    have hkind : (head c rest).1 = .token k := congrArg Lexeme.kind (List.cons.inj hlexemes).1
    have hdigit : isDigit c = false := by
      rw [Bool.eq_false_iff]
      intro hc
      rw [head_of_isSign (isSign_of_isDigit hc)] at hkind
      exact Bool.eq_false_iff.1 (otherHead_not_word c rest k hkind) (isNameLike_iff.2 hk)
    show (if ((c :: (rest ++ v)).takeWhile isDigit).length = 0 then 0 else _) = 0
    rw [List.takeWhile_cons_of_neg (by rw [hdigit]; decide), if_pos List.length_nil]

/-- A name or a constant is written as it stood in the text, in one lexeme or in several. -/
theorem isWritten_word {r : TokenRange} {k : Token.Kind} (h : d.IsWord r k) (symbol : Symbol)
    (o : Origin) (ho : o.range = r) : IsWritten d (.terminal symbol o) := by
  subst ho
  have hlexemes := h.cuts.lexemes_eq
  refine ⟨?_, ?_⟩
  · show Cuts _ (lexemes _)
    rw [hlexemes]
    exact h.cuts
  · show Framed (lexemes _)
    rw [hlexemes]
    exact framed_cons ⟨[], k, _, rfl⟩

/-- An argument that was left out is written with nothing. -/
theorem IsBlank.written_eq {a : Expr} (h : a.IsBlank d) (hempty : a.isEmpty = true) :
    a.written d = [] ∧ a.source d.rangeText = "" := by
  have htext := h.rangeText_eq
  unfold isEmpty at hempty
  split at hempty
  next o =>
    rw [written, source, show d.rangeText o.range = "" from htext, show "".toList = [] from rfl,
      lexemes]
    exact ⟨rfl, rfl⟩
  next => cases hempty

theorem sourceList_cons_cons (text : TokenRange → String) (x y : Expr) (ys : List Expr) :
    sourceList text (x :: y :: ys) = source text x ++ ", " ++ sourceList text (y :: ys) := by
  rw [sourceList]
  exact nofun

/-- Arguments up to the parenthesis that closes them. -/
theorem lexemes_arguments {args : List Expr} (hlist : AreListed d args)
    (h : ∀ a ∈ args, a.isEmpty = false → IsWritten d a) (v : List Char) :
    lexemes ((sourceList d.rangeText args).toList ++ ')' :: v) =
        writtenList d args ++ ofSign ')' .rightParen :: lexemes v := by
  -- An argument left out has no text, and the same can be said of all others.
  have hcuts : ∀ a ∈ args, Cuts (a.source d.rangeText).toList (a.written d) ∧
      ∀ w, Unblank w → Unblank ((a.source d.rangeText).toList ++ w) := by
    intro a ha
    cases hempty : a.isEmpty with
    | false => exact ⟨(h a ha hempty).cuts, fun w _ ↦ (h a ha hempty).unblank w⟩
    | true =>
      obtain ⟨hwritten, hsource⟩ := (hlist.isBlank a ha hempty).written_eq hempty
      rw [hsource, hwritten]
      exact ⟨fun _ _ ↦ rfl, fun _ hw ↦ hw⟩
  clear hlist h
  rcases args with - | ⟨x, xs⟩
  · exact lexemes_sign ')' .rightParen (by decide) v
  · suffices hgoal : Unblank ((sourceList d.rangeText (x :: xs)).toList ++ ')' :: v) ∧
        lexemes ((sourceList d.rangeText (x :: xs)).toList ++ ')' :: v) =
          x.written d ++ (writtenRest d xs ++ ofSign ')' .rightParen :: lexemes v) by
      rw [hgoal.2, writtenList, List.append_assoc]
    induction xs generalizing x with
    | nil =>
      obtain ⟨hx, hblank⟩ := hcuts x List.mem_cons_self
      refine ⟨hblank _ (unblank_cons (by decide) v), ?_⟩
      rw [sourceList, hx.sign ')' .rightParen (by decide)]
      rfl
    | cons y ys ih =>
      obtain ⟨hx, hblank⟩ := hcuts x List.mem_cons_self
      obtain ⟨hunblank, hrest⟩ := ih y fun a ha ↦ hcuts a (List.mem_cons_of_mem _ ha)
      have htext : (sourceList d.rangeText (x :: y :: ys)).toList ++ ')' :: v =
          (x.source d.rangeText).toList ++
            ',' :: ' ' :: ((sourceList d.rangeText (y :: ys)).toList ++ ')' :: v) := by
        rw [sourceList_cons_cons]
        simp
      rw [htext]
      refine ⟨hblank _ (unblank_cons (by decide) _), ?_⟩
      rw [hx.sign ',' .comma (by decide), lexemes_space hunblank, hrest,
        writtenRest]
      simp

/-! ### One shape at a time -/

/-- Operators between operands are written with a space on both sides. -/
theorem source_operation {k : Token.Kind} {op : Operator} (h : Operator.binary? k = some op)
    (text : TokenRange → String) (x y : Expr) (o : Origin) :
    source text (.binary op x y o) =
      "(" ++ source text x ++ " " ++ op.symbol ++ " " ++ source text y ++ ")" := by
  unfold Operator.binary? at h
  split at h <;> cases h <;> simp only [source]

theorem written_operation {k : Token.Kind} {op : Operator} (h : Operator.binary? k = some op)
    (x y : Expr) (o : Origin) :
    written d (.binary op x y o) = ofSign '(' .leftParen :: (written d x ++
      space :: ofOperator op :: space :: (written d y ++ [ofSign ')' .rightParen])) := by
  unfold Operator.binary? at h
  split at h <;> cases h <;> simp only [written]

theorem source_new {callee : Expr} (h : callee.origin.token? ≠ some (.keyword .new))
    (text : TokenRange → String) (args : List Expr) (o : Origin) :
    source text (.call .constructor callee args o) =
      "Новый" ++ (" " ++ source text callee) ++ "(" ++ sourceList text args ++ ")" := by
  rw [source, if_neg h]

theorem source_newUntyped {callee : Expr} (h : callee.origin.token? = some (.keyword .new))
    (text : TokenRange → String) (args : List Expr) (o : Origin) :
    source text (.call .constructor callee args o) =
      "Новый" ++ "" ++ "(" ++ sourceList text args ++ ")" := by
  rw [source, if_pos h]

theorem unblank_operator (op : Operator) (v : List Char) : Unblank (op.symbol.toList ++ v) := by
  cases op <;> exact unblank_cons (by decide) _

/-- What has one operand, -/
theorem isWritten_unary {op : Operator} {x : Expr} (hop : op.isUnary = true) (hx : IsWritten d x)
    (o : Origin) : IsWritten d (.unary op x o) := by
  constructor
  · intro v _
    have htext : ((unary op x o).source d.rangeText).toList ++ v =
        '(' :: (op.symbol.toList ++ ((if op = .not then " " else "").toList ++
          ((x.source d.rangeText).toList ++ ')' :: v))) := by
      simp
    rw [htext, lexemes_sign '(' .leftParen (by decide), lexemes_unaryOperator hop (hx.unblank _),
      hx.cuts.sign ')' .rightParen (by decide), written]
    simp only [List.cons_append, List.append_assoc, List.nil_append]
  · rw [written]
    exact framed_cons (((((endsInToken_sign _ _).append _).append _).cons _).cons _)

/-- or an operator between two, -/
theorem isWritten_operation {k : Token.Kind} {op : Operator} {x y : Expr}
    (hop : Operator.binary? k = some op) (hx : IsWritten d x) (hy : IsWritten d y) (o : Origin) :
    IsWritten d (.binary op x y o) := by
  constructor
  · intro v _
    have htext : ((binary op x y o).source d.rangeText).toList ++ v =
        '(' :: ((x.source d.rangeText).toList ++ ' ' :: (op.symbol.toList ++
          ' ' :: ((y.source d.rangeText).toList ++ ')' :: v))) := by
      rw [source_operation hop]
      simp
    rw [htext, lexemes_sign '(' .leftParen (by decide), hx.cuts _ (delimits_space _),
      lexemes_space (unblank_operator op _), lexemes_operator hop, lexemes_space (hy.unblank _),
      hy.cuts.sign ')' .rightParen (by decide), written_operation hop]
    simp only [List.cons_append, List.append_assoc, List.nil_append]
  · rw [written_operation hop]
    exact framed_cons
      ((((((endsInToken_sign _ _).append _).cons _).cons _).cons _).append _ |>.cons _)

/-- or a dot behind its base, in front of a name, -/
theorem isWritten_dereference {x y : Expr} (hx : IsWritten d x) (hy : IsWritten d y)
    (hdot : ∀ v, Delimits ('.' :: ((y.source d.rangeText).toList ++ v))) (o : Origin) :
    IsWritten d (.binary .dereference x y o) := by
  constructor
  · intro v hv
    have htext : ((binary .dereference x y o).source d.rangeText).toList ++ v =
        (x.source d.rangeText).toList ++ '.' :: ((y.source d.rangeText).toList ++ v) := by
      simp
    rw [htext, hx.cuts _ (hdot v), lexemes_sign '.' .dot (by decide), hy.cuts v hv, written]
    simp only [List.cons_append, List.append_assoc]
  · rw [written]
    exact framed_append hx.framed ((endsInToken_of_framed hy.framed).cons _)

/-- or an index behind it, -/
theorem isWritten_index {x y : Expr} (hx : IsWritten d x) (hy : IsWritten d y) (o : Origin) :
    IsWritten d (.binary .indexAccess x y o) := by
  constructor
  · intro v _
    have htext : ((binary .indexAccess x y o).source d.rangeText).toList ++ v =
        (x.source d.rangeText).toList ++ '[' :: ((y.source d.rangeText).toList ++ ']' :: v) := by
      simp
    rw [htext, hx.cuts.sign '[' .leftBracket (by decide),
      hy.cuts.sign ']' .rightBracket (by decide), written]
    simp only [List.cons_append, List.append_assoc, List.nil_append]
  · rw [written]
    exact framed_append hx.framed (((endsInToken_sign _ _).append _).cons _)

/-- or is a choice, -/
theorem isWritten_ternary {x y z : Expr} (hx : IsWritten d x) (hy : IsWritten d y)
    (hz : IsWritten d z) (o : Origin) : IsWritten d (.ternary x y z o) := by
  constructor
  · intro v _
    have htext : ((ternary x y z o).source d.rangeText).toList ++ v =
        '?' :: '(' :: ((x.source d.rangeText).toList ++ ',' :: ' ' ::
          ((y.source d.rangeText).toList ++ ',' :: ' ' ::
            ((z.source d.rangeText).toList ++ ')' :: v))) := by
      simp
    rw [htext, lexemes_sign '?' .question (by decide), lexemes_sign '(' .leftParen (by decide),
      hx.cuts.sign ',' .comma (by decide), lexemes_space (hy.unblank _),
      hy.cuts.sign ',' .comma (by decide), lexemes_space (hz.unblank _),
      hz.cuts.sign ')' .rightParen (by decide), written]
    simp only [List.cons_append, List.append_assoc, List.nil_append]
  · rw [written]
    refine framed_cons (.cons ?_ _)
    simp only [← List.append_assoc, ← List.cons_append]
    exact (endsInToken_sign _ _).append _

/-- or a call of a method, -/
theorem isWritten_call {callee : Expr} {args : List Expr} (hcallee : IsWritten d callee)
    (hlist : AreListed d args) (hargs : ∀ a ∈ args, a.isEmpty = false → IsWritten d a)
    (o : Origin) : IsWritten d (.call .method callee args o) := by
  constructor
  · intro v _
    have htext : ((call .method callee args o).source d.rangeText).toList ++ v =
        (callee.source d.rangeText).toList ++
          '(' :: ((sourceList d.rangeText args).toList ++ ')' :: v) := by
      simp
    rw [htext, hcallee.cuts.sign '(' .leftParen (by decide),
      lexemes_arguments hlist hargs, written]
    simp only [List.cons_append, List.append_assoc, List.nil_append]
  · rw [written]
    exact framed_append hcallee.framed (((endsInToken_sign _ _).append _).cons _)

/-- or the making of an object of a type, -/
theorem isWritten_new {callee : Expr} {args : List Expr}
    (htoken : callee.origin.token? ≠ some (.keyword .new)) (hcallee : IsWritten d callee)
    (hlist : AreListed d args) (hargs : ∀ a ∈ args, a.isEmpty = false → IsWritten d a)
    (o : Origin) : IsWritten d (.call .constructor callee args o) := by
  constructor
  · intro v _
    have htext : ((call .constructor callee args o).source d.rangeText).toList ++ v =
        "Новый".toList ++ ' ' :: ((callee.source d.rangeText).toList ++
          '(' :: ((sourceList d.rangeText args).toList ++ ')' :: v)) := by
      rw [source_new htoken]
      simp
    rw [htext, cuts_newWord _ (delimits_space _), lexemes_space (hcallee.unblank _),
      hcallee.cuts.sign '(' .leftParen (by decide),
      lexemes_arguments hlist hargs, written, if_neg htoken]
    simp only [List.cons_append, List.append_assoc, List.nil_append]
  · rw [written]
    exact framed_cons ((((endsInToken_sign _ _).append _).cons _).append _ |>.cons _)

/-- or of one without a type, is written if its parts are. -/
theorem isWritten_newUntyped {callee : Expr} {args : List Expr}
    (htoken : callee.origin.token? = some (.keyword .new)) (hlist : AreListed d args)
    (hargs : ∀ a ∈ args, a.isEmpty = false → IsWritten d a) (o : Origin) :
    IsWritten d (.call .constructor callee args o) := by
  constructor
  · intro v _
    have htext : ((call .constructor callee args o).source d.rangeText).toList ++ v =
        "Новый".toList ++ '(' :: ((sourceList d.rangeText args).toList ++ ')' :: v) := by
      rw [source_newUntyped htoken]
      simp
    rw [htext, cuts_newWord.sign '(' .leftParen (by decide),
      lexemes_arguments hlist hargs, written, if_pos htoken]
    simp only [List.cons_append, List.append_assoc, List.nil_append]
  · rw [written]
    exact framed_cons ((((endsInToken_sign _ _).append _).cons _).append _ |>.cons _)

/-- **A normal expression is cut into the lexemes that it is written with.** -/
theorem Normal.isWritten {x : Expr} (h : Normal d x) : IsWritten d x := by
  induction h with
  | literal ho => exact ⟨ho.cuts, ho.framed⟩
  | name ho => exact isWritten_word ho _ _ rfl
  | unary hop _ ih => exact isWritten_unary hop ih _
  | operation hop _ _ ihx ihy => exact isWritten_operation hop ihx ihy _
  | property _ hk hs ih =>
    exact isWritten_dereference ih (isWritten_word hs _ _ rfl) (delimits_name hs hk) _
  | @method x k args o o' s _ hk hs hlist _ ih ihargs =>
    have hcall := isWritten_call (isWritten_word hs .identifier s rfl) hlist ihargs o
    refine isWritten_dereference ih hcall (fun v ↦ ?_) _
    -- A point and a name are one access; the name ends at the parenthesis that follows.
    have htext :
        ((Expr.call .method (.terminal .identifier s) args o).source d.rangeText).toList ++ v
        = (d.rangeText s.range).toList ++
          '(' :: ((sourceList d.rangeText args).toList ++ ')' :: v) := by
      simp
    rw [htext]
    exact delimits_name hs hk _
  | index _ _ ihx ihy => exact isWritten_index ihx ihy _
  | ternary _ _ _ ihx ihy ihz => exact isWritten_ternary ihx ihy ihz _
  | call hs hlist _ ihargs => exact isWritten_call (isWritten_word hs _ _ rfl) hlist ihargs _
  | new htoken hs hlist _ ihargs =>
    refine isWritten_new ?_ (isWritten_word hs _ _ rfl) hlist ihargs _
    rw [origin, htoken]
    exact nofun
  | @newUntyped args o s htoken _ hlist _ ihargs =>
    exact @isWritten_newUntyped d (.terminal .identifier s) args htoken hlist ihargs o

end Expr

end BslLint
