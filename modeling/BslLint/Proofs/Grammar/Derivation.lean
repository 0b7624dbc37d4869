import BslLint.Syntax.Tree
import Mathlib.Data.List.Basic

/-!
# The grammar of expressions as derivations

What an expression is, said without a parser:

```
expression = member (op member)*
member     = (NOT | + | -)* value
value      = STRING+ | constant | head modifier* | '(' expression ')' modifier*
head       = IDENT | IDENT call | NEW IDENT? call?
           | '?' '(' expression ',' expression ',' expression ')'
modifier   = '.' name | '.' name call | '[' expression ']'
call       = '(' expression? (',' expression?)* ')'
```

`Derives p w cs` says that the part `p` of this grammar derives the tokens `w`, and that `cs` are
the trees of the derivation, next to each other. The relation is one inductive family over the
parts, options and repetitions included, so a proof about derivations is one induction.
-/

namespace BslLint.Grammar

/-! ### Tokens by what they are for -/

/-- The signs and words that join members. -/
def binaryKinds : List Token.Kind :=
  [.equal, .notEqual, .less, .greater, .lessEqual, .greaterEqual, .plus, .minus, .multiply, .divide,
    .modulo, .keyword .and_, .keyword .or_]

/-- The signs and words in front of a value. -/
def unaryKinds : List Token.Kind := [.keyword .not_, .minus, .plus]

/-- The constants that are a token each. -/
def constantKinds : List Token.Kind :=
  [.numberLiteral, .dateLiteral, .keyword .true_, .keyword .false_, .keyword .undefined,
    .keyword .null]

/-- The kinds of names after a dot: identifiers and all reserved words. -/
def IsName (k : Token.Kind) : Prop := k = .identifier ∨ ∃ word, k = .keyword word

/-- A joining sign or word as it stands in a tree. -/
def operationTree (t : Token) : Tree :=
  .node .operation
    [if t.kind ∈ [.equal, .notEqual, .less, .greater, .lessEqual, .greaterEqual] then
        .node .compareOperation [.leaf t]
      else if t.kind ∈ [.keyword .and_, .keyword .or_] then .node .boolOperation [.leaf t]
      else .leaf t]

/-- A sign or word in front of a value as it stands in a tree. -/
def unaryTree (t : Token) : Tree := .node .unaryModifier [.leaf t]

/-! ### Derivations -/

/-- The parts of an expression. -/
inductive Part where
  | expression
  /-- `(op member)*` -/
  | row
  | member
  | value
  | head
  /-- `IDENT?`, the type behind `NEW` -/
  | typeName
  /-- `call?` -/
  | callOrNone
  /-- `modifier*` -/
  | modifiers
  | modifier
  | call
  /-- `expression?` -/
  | argument
  /-- `(',' expression?)*` -/
  | arguments
  deriving DecidableEq

/-- The part derives the tokens, with these trees. -/
inductive Derives : Part → List Token → List Tree → Prop where
  | expression {u v cs ds} (first : Derives .member u cs) (others : Derives .row v ds) :
    Derives .expression (u ++ v) [.node .expression (cs ++ ds)]
  | row_nil : Derives .row [] []
  | row_cons {op u v cs ds} (hop : op.kind ∈ binaryKinds) (first : Derives .member u cs)
      (others : Derives .row v ds) :
    Derives .row (op :: (u ++ v)) (operationTree op :: (cs ++ ds))
  | member {us v ds} (hus : ∀ t ∈ us, t.kind ∈ unaryKinds) (value : Derives .value v ds) :
    Derives .member (us ++ v) [.node .member (us.map unaryTree ++ ds)]
  | strings {ts} (hts : ts ≠ []) (hstrings : ∀ t ∈ ts, t.kind = .stringLiteral) :
    Derives .value ts [.node .constValue (ts.map .leaf)]
  | constant {t} (ht : t.kind ∈ constantKinds) : Derives .value [t] [.node .constValue [.leaf t]]
  | complex {u v cs ds} (head : Derives .head u cs) (mods : Derives .modifiers v ds) :
    Derives .value (u ++ v) [.node .complexIdentifier (cs ++ ds)]
  | parens {l r u v cs ds} (hl : l.kind = .leftParen) (hr : r.kind = .rightParen)
      (inside : Derives .expression u cs) (mods : Derives .modifiers v ds) :
    Derives .value (l :: (u ++ r :: v)) (.leaf l :: (cs ++ .leaf r :: ds))
  | name {t} (ht : t.kind = .identifier) : Derives .head [t] [.leaf t]
  | globalCall {t u cs} (ht : t.kind = .identifier) (call : Derives .call u cs) :
    Derives .head (t :: u) [.node .globalMethodCall (.node .methodName [.leaf t] :: cs)]
  | new {t u v cs ds} (ht : t.kind = .keyword .new) (type : Derives .typeName u cs)
      (call : Derives .callOrNone v ds) :
    Derives .head (t :: (u ++ v)) [.node .newExpression (.leaf t :: (cs ++ ds))]
  | ternary {q l c c' r u v w cs ds es} (hq : q.kind = .question) (hl : l.kind = .leftParen)
      (condition : Derives .expression u cs) (hc : c.kind = .comma)
      (yes : Derives .expression v ds) (hc' : c'.kind = .comma) (no : Derives .expression w es)
      (hr : r.kind = .rightParen) :
    Derives .head (q :: l :: (u ++ c :: (v ++ c' :: (w ++ [r]))))
      [.node .ternaryOperator (.leaf q :: .leaf l ::
        (cs ++ .leaf c :: (ds ++ .leaf c' :: (es ++ [.leaf r]))))]
  | typeName_none : Derives .typeName [] []
  | typeName_some {t} (ht : t.kind = .identifier) :
    Derives .typeName [t] [.node .typeName [.leaf t]]
  | call_none : Derives .callOrNone [] []
  | call_some {u cs} (call : Derives .call u cs) : Derives .callOrNone u cs
  | modifiers_nil : Derives .modifiers [] []
  | modifiers_cons {u v cs ds} (first : Derives .modifier u cs) (others : Derives .modifiers v ds) :
    Derives .modifiers (u ++ v) (cs ++ ds)
  | property {d t} (hd : d.kind = .dot) (ht : IsName t.kind) :
    Derives .modifier [d, t] [.node .modifier [.node .accessProperty [.leaf d, .leaf t]]]
  | methodCall {d t u cs} (hd : d.kind = .dot) (ht : IsName t.kind) (call : Derives .call u cs) :
    Derives .modifier (d :: t :: u)
      [.node .modifier [.node .accessCall
        [.leaf d, .node .methodCall (.node .methodName [.leaf t] :: cs)]]]
  | index {l r u cs} (hl : l.kind = .leftBracket) (inside : Derives .expression u cs)
      (hr : r.kind = .rightBracket) :
    Derives .modifier (l :: (u ++ [r]))
      [.node .modifier [.node .accessIndex (.leaf l :: (cs ++ [.leaf r]))]]
  | call {l r u v cs ds} (hl : l.kind = .leftParen) (first : Derives .argument u cs)
      (others : Derives .arguments v ds) (hr : r.kind = .rightParen) :
    Derives .call (l :: (u ++ (v ++ [r])))
      [.node .doCall [.leaf l, .node .callParamList (cs ++ ds), .leaf r]]
  | argument_none : Derives .argument [] [.node .callParam []]
  | argument_some {u cs} (value : Derives .expression u cs) :
    Derives .argument u [.node .callParam cs]
  | arguments_nil : Derives .arguments [] []
  | arguments_cons {c u v cs ds} (hc : c.kind = .comma) (first : Derives .argument u cs)
      (others : Derives .arguments v ds) :
    Derives .arguments (c :: (u ++ v)) (.leaf c :: (cs ++ ds))

/-! ### How parts begin -/

namespace Part

/-- The kinds of token that a value begins with. -/
def valueKinds : List Token.Kind :=
  .stringLiteral :: .leftParen :: .identifier :: .keyword .new :: .question :: constantKinds

/-- The kinds of token that a part begins with, if it has tokens. -/
def firsts : Part → List Token.Kind
  | expression | member | argument => unaryKinds ++ valueKinds
  | row => binaryKinds
  | value => valueKinds
  | head => [.identifier, .keyword .new, .question]
  | typeName => [.identifier]
  | callOrNone | call => [.leftParen]
  | modifiers | modifier => [.dot, .leftBracket]
  | arguments => [.comma]

/-- Whether a part may have no tokens. -/
def isOptional : Part → Bool
  | row | typeName | callOrNone | modifiers | argument | arguments => true
  | _ => false

end Part

variable {p : Part} {w : List Token} {cs : List Tree}

/-- A part has no tokens, or begins with one of its kinds. -/
theorem Derives.begins (h : Derives p w cs) :
    (w = [] ∧ p.isOptional = true) ∨ ∃ t ts, w = t :: ts ∧ t.kind ∈ p.firsts := by
  induction h with
  | row_nil | typeName_none | call_none | modifiers_nil | argument_none | arguments_nil =>
    exact .inl ⟨rfl, rfl⟩
  | expression _ _ ih _ =>
    obtain ⟨_, h⟩ | ⟨t, ts, rfl, ht⟩ := ih
    · exact nomatch h
    · exact .inr ⟨t, _, rfl, ht⟩
  | row_cons hop _ _ _ _ => exact .inr ⟨_, _, rfl, hop⟩
  | @member us _ _ hus _ ih =>
    obtain ⟨_, h⟩ | ⟨t, ts, rfl, ht⟩ := ih
    · exact nomatch h
    · -- With signs in front the first of them begins the member.
      cases us with
      | nil => exact .inr ⟨t, ts, rfl, List.mem_append_right _ ht⟩
      | cons s us =>
        exact .inr ⟨s, _, rfl, List.mem_append_left _ (hus s List.mem_cons_self)⟩
  | @strings ts hts hstrings =>
    cases ts with
    | nil => exact absurd rfl hts
    | cons t ts =>
      exact .inr ⟨t, ts, rfl, by rw [hstrings t List.mem_cons_self]; decide⟩
  | constant ht =>
    refine .inr ⟨_, _, rfl, ?_⟩
    simp only [Part.firsts, Part.valueKinds, List.mem_cons]
    simp only [ht, or_true]
  | complex _ _ ih _ =>
    obtain ⟨_, h⟩ | ⟨t, ts, rfl, ht⟩ := ih
    · exact nomatch h
    · refine .inr ⟨t, _, rfl, ?_⟩
      simp only [Part.firsts, Part.valueKinds, List.mem_cons] at ht ⊢
      tauto
  | parens hl => exact .inr ⟨_, _, rfl, by rw [hl]; decide⟩
  | name ht | typeName_some ht => exact .inr ⟨_, _, rfl, by rw [ht]; decide⟩
  | globalCall ht | new ht => exact .inr ⟨_, _, rfl, by rw [ht]; decide⟩
  | ternary hq => exact .inr ⟨_, _, rfl, by rw [hq]; decide⟩
  | call_some _ ih =>
    obtain ⟨_, h⟩ | h := ih
    · exact nomatch h
    · exact .inr h
  | modifiers_cons _ _ ih _ =>
    obtain ⟨_, h⟩ | ⟨t, ts, rfl, ht⟩ := ih
    · exact nomatch h
    · exact .inr ⟨t, _, rfl, ht⟩
  | property hd => exact .inr ⟨_, _, rfl, by rw [hd]; decide⟩
  | methodCall hd => exact .inr ⟨_, _, rfl, by rw [hd]; decide⟩
  | index hl => exact .inr ⟨_, _, rfl, by rw [hl]; decide⟩
  | call hl => exact .inr ⟨_, _, rfl, by rw [hl]; decide⟩
  | argument_some _ ih =>
    obtain ⟨_, h⟩ | h := ih
    · exact nomatch h
    · exact .inr h
  | arguments_cons hc => exact .inr ⟨_, _, rfl, by rw [hc]; decide⟩

theorem Derives.begins_of_ne (h : Derives p w cs) (hp : p.isOptional = false) :
    ∃ t ts, w = t :: ts ∧ t.kind ∈ p.firsts := by
  obtain ⟨_, h⟩ | h := h.begins
  · exact absurd h (by rw [hp]; exact nofun)
  · exact h

/-- Trees of one token each. -/
theorem tokensAll_map {tree : Token → Tree} (htree : ∀ t, (tree t).tokens = [t]) (ts : List Token) :
    Tree.tokensAll (ts.map tree) = ts := by
  induction ts with
  | nil => rfl
  | cons t ts ih =>
    rw [List.map_cons, Tree.tokensAll, htree, ih]
    rfl

/-- The tokens of a derivation are those of its trees. -/
theorem Derives.tokensAll_eq (h : Derives p w cs) : Tree.tokensAll cs = w := by
  have hleaves : ∀ ts : List Token, Tree.tokensAll (ts.map .leaf) = ts := tokensAll_map fun _ ↦ rfl
  have hunary : ∀ ts : List Token, Tree.tokensAll (ts.map unaryTree) = ts :=
    tokensAll_map fun _ ↦ rfl
  have hoperation : ∀ t : Token, (operationTree t).tokens = [t] := by
    intro t
    unfold operationTree
    split
    · rfl
    · split <;> rfl
  induction h with
  | _ => simp_all [Tree.tokensAll, Tree.tokens]

end BslLint.Grammar
