import BslLint.Grammar.Statement
import BslLint.Proofs.Grammar.Forms

/-!
# The grammar of statements as derivations

What a block of code is, said without a parser:

```
block     = statement* last?
statement = label? action? ';'
last      = label? action?
label     = '~' IDENT ':'
action    = simple
          | IF expression THEN block (ELSIF expression THEN block)* (ELSE block)? ENDIF
          | WHILE expression body
          | FOR IDENT '=' expression TO expression body
          | FOR EACH IDENT IN expression body
          | TRY block EXCEPT block ENDTRY
body      = DO block ENDDO
simple    = IDENT '=' expression | head modifier* | RETURN expression?
          | RAISE (expression | '(' argument (',' argument)+ ')')?
          | GOTO '~' IDENT | BREAK | CONTINUE
```

The last statement of a block may go without its semicolon if there is anything of it. A head that
begins a call is a name or the call of one, and what is assigned to is a name alone. Arguments and
heads are those of expressions (`Derives`).
-/

namespace BslLint.Grammar

/-! ### Statements without statements inside -/

/-- A label in front of a statement, if there is one. -/
inductive Label : Form
  | none : Label [] []
  | some {t n c} (ht : t.kind = .tilde) (hn : n.kind = .identifier) (hc : c.kind = .colon) :
    Label [t, n, c] [.node .label [.leaf t, .leaf n, .leaf c]]

/-- An action that no block is part of. -/
inductive SimpleAction : Form
  | assignment {a e w cs} (ha : a.kind = .identifier) (he : e.kind = .equal)
      (value : Derives .expression w cs) :
    SimpleAction (a :: e :: w) [.node .assignment (.node .lValue [.leaf a] :: .leaf e :: cs)]
  | call {t u v cs ds} (ht : t.kind = .identifier) (head : Derives .head (t :: u) cs)
      (mods : Derives .modifiers v ds) :
    SimpleAction (t :: (u ++ v)) [.node .callStatement (cs ++ ds)]
  | returnNothing {r} (hr : r.kind = .keyword .return_) :
    SimpleAction [r] [.node .returnStatement [.leaf r]]
  | returnValue {r w cs} (hr : r.kind = .keyword .return_) (value : Derives .expression w cs) :
    SimpleAction (r :: w) [.node .returnStatement (.leaf r :: cs)]
  | reraise {r} (hr : r.kind = .keyword .raise) : SimpleAction [r] [.node .raiseStatement [.leaf r]]
  | raise {r w cs} (hr : r.kind = .keyword .raise) (value : Derives .expression w cs) :
    SimpleAction (r :: w) [.node .raiseStatement (.leaf r :: cs)]
  | raiseList {r l u c v w e cs ds es} (hr : r.kind = .keyword .raise) (hl : l.kind = .leftParen)
      (first : Derives .argument u cs) (hc : c.kind = .comma) (second : Derives .argument v ds)
      (others : Derives .arguments w es) (he : e.kind = .rightParen) :
    SimpleAction (r :: l :: (u ++ c :: (v ++ (w ++ [e]))))
      [.node .raiseStatement [.leaf r, .node .doCall
        [.leaf l, .node .callParamList (cs ++ .leaf c :: (ds ++ es)), .leaf e]]]
  | goto {g t n} (hg : g.kind = .keyword .goto) (ht : t.kind = .tilde) (hn : n.kind = .identifier) :
    SimpleAction [g, t, n] [.node .gotoStatement [.leaf g, .node .label [.leaf t, .leaf n]]]
  | breakLoop {b} (hb : b.kind = .keyword .break_) :
    SimpleAction [b] [.node .breakStatement [.leaf b]]
  | continueLoop {c} (hc : c.kind = .keyword .continue_) :
    SimpleAction [c] [.node .continueStatement [.leaf c]]

/-! ### Blocks -/

/-- The parts of a block of code. -/
inductive Code where
  | block
  | statements
  | statement
  | last
  | action
  /-- `action?` -/
  | actionOrNone
  /-- `(ELSIF expression THEN block)*` -/
  | elsifs
  /-- `(ELSE block)?` -/
  | otherwise
  | body
  deriving DecidableEq

/-- The part of code derives the tokens, with these trees. -/
inductive DerivesCode : Code → Form
  | block {w cs} (inside : DerivesCode .statements w cs) :
    DerivesCode .block w [.node .codeBlock cs]
  | nil : DerivesCode .statements [] []
  | cons {u v cs ds} (first : DerivesCode .statement u cs) (others : DerivesCode .statements v ds) :
    DerivesCode .statements (u ++ v) (cs ++ ds)
  | singleton {w cs} (only : DerivesCode .last w cs) : DerivesCode .statements w cs
  | statement {l w s ls cs} (label : Label l ls) (action : DerivesCode .actionOrNone w cs)
      (hs : s.kind = .semicolon) :
    DerivesCode .statement (l ++ (w ++ [s])) [.node .statement (ls ++ (cs ++ [.leaf s]))]
  | last {l w ls cs} (label : Label l ls) (action : DerivesCode .actionOrNone w cs)
      (hne : l ++ w ≠ []) : DerivesCode .last (l ++ w) [.node .statement (ls ++ cs)]
  | action_none : DerivesCode .actionOrNone [] []
  | action_some {w cs} (action : DerivesCode .action w cs) : DerivesCode .actionOrNone w cs
  | simple {w cs} (action : SimpleAction w cs) : DerivesCode .action w cs
  | conditional {i t e u v w x cs ds es fs} (hi : i.kind = .keyword .if_)
      (condition : Derives .expression u cs) (ht : t.kind = .keyword .then_)
      (inside : DerivesCode .block v ds) (elsifs : DerivesCode .elsifs w es)
      (otherwise : DerivesCode .otherwise x fs) (he : e.kind = .keyword .endIf) :
    DerivesCode .action (i :: (u ++ t :: (v ++ (w ++ (x ++ [e])))))
      [.node .ifStatement
        (.node .ifBranch (.leaf i :: (cs ++ .leaf t :: ds)) :: (es ++ (fs ++ [.leaf e])))]
  | elsifs_nil : DerivesCode .elsifs [] []
  | elsifs_cons {i t u v w cs ds es} (hi : i.kind = .keyword .elsIf)
      (condition : Derives .expression u cs) (ht : t.kind = .keyword .then_)
      (inside : DerivesCode .block v ds) (others : DerivesCode .elsifs w es) :
    DerivesCode .elsifs (i :: (u ++ t :: (v ++ w)))
      (.node .elsifBranch (.leaf i :: (cs ++ .leaf t :: ds)) :: es)
  | otherwise_none : DerivesCode .otherwise [] []
  | otherwise_some {e w cs} (he : e.kind = .keyword .else_) (inside : DerivesCode .block w cs) :
    DerivesCode .otherwise (e :: w) [.node .elseBranch (.leaf e :: cs)]
  | body {d e w cs} (hd : d.kind = .keyword .do_) (inside : DerivesCode .block w cs)
      (he : e.kind = .keyword .endDo) :
    DerivesCode .body (d :: (w ++ [e])) (.leaf d :: (cs ++ [.leaf e]))
  | whileLoop {h u w cs ds} (hh : h.kind = .keyword .while_) (condition : Derives .expression u cs)
      (body : DerivesCode .body w ds) :
    DerivesCode .action (h :: (u ++ w)) [.node .whileStatement (.leaf h :: (cs ++ ds))]
  | forLoop {f n e t u v w cs ds es} (hf : f.kind = .keyword .for_) (hn : n.kind = .identifier)
      (he : e.kind = .equal) (first : Derives .expression u cs) (ht : t.kind = .keyword .to_)
      (last : Derives .expression v ds) (body : DerivesCode .body w es) :
    DerivesCode .action (f :: n :: e :: (u ++ t :: (v ++ w)))
      [.node .forStatement (.leaf f :: .leaf n :: .leaf e :: (cs ++ .leaf t :: (ds ++ es)))]
  | forEachLoop {f e n i u w cs ds} (hf : f.kind = .keyword .for_) (he : e.kind = .keyword .each)
      (hn : n.kind = .identifier) (hi : i.kind = .keyword .in_) (items : Derives .expression u cs)
      (body : DerivesCode .body w ds) :
    DerivesCode .action (f :: e :: n :: i :: (u ++ w))
      [.node .forEachStatement (.leaf f :: .leaf e :: .leaf n :: .leaf i :: (cs ++ ds))]
  | attempt {t x e u v cs ds} (ht : t.kind = .keyword .try_) (inside : DerivesCode .block u cs)
      (hx : x.kind = .keyword .except) (rescue : DerivesCode .block v ds)
      (he : e.kind = .keyword .endTry) :
    DerivesCode .action (t :: (u ++ x :: (v ++ [e])))
      [.node .tryStatement [.leaf t, .node .tryCodeBlock cs, .leaf x, .node .exceptCodeBlock ds,
        .leaf e]]

/-! ### How parts begin -/

/-- The kinds of token that an action begins with. -/
def actionKinds : List Token.Kind :=
  [.identifier, .keyword .return_, .keyword .raise, .keyword .goto, .keyword .break_,
    .keyword .continue_, .keyword .if_, .keyword .while_, .keyword .for_, .keyword .try_]

/-- The kinds of token that a statement begins with. -/
def statementKinds : List Token.Kind := .tilde :: .semicolon :: actionKinds

/-- The kinds of token that a part of code begins with, if it has tokens. -/
def Code.firsts : Code → List Token.Kind
  | block | statements | statement | last => statementKinds
  | action | actionOrNone => actionKinds
  | elsifs => [.keyword .elsIf]
  | otherwise => [.keyword .else_]
  | body => [.keyword .do_]

/-- Whether a part of code may have no tokens. -/
def Code.isOptional : Code → Bool
  | block | statements | actionOrNone | elsifs | otherwise => true
  | statement | last | action | body => false

variable {p : Code} {l w : List Token} {cs ls : List Tree}

theorem SimpleAction.begins (h : SimpleAction w cs) :
    ∃ t ts, w = t :: ts ∧ t.kind ∈ actionKinds := by
  have hmem {k : Token.Kind} {t : Token} (ht : t.kind = k) (hk : k ∈ actionKinds) :
      t.kind ∈ actionKinds := ht ▸ hk
  cases h with
  | assignment h | call h | returnNothing h | returnValue h | reraise h | raise h | raiseList h
  | goto h | breakLoop h | continueLoop h => exact ⟨_, _, rfl, hmem h (by decide)⟩

/-- In front of what a statement may go on with, a label is how a statement begins. -/
theorem Label.begins (h : Label l ls) (hw : w ≠ [] → ∃ t ts, w = t :: ts ∧ t.kind ∈ statementKinds)
    (hne : l ++ w ≠ []) : ∃ t ts, l ++ w = t :: ts ∧ t.kind ∈ statementKinds := by
  cases h with
  | none => exact hw hne
  | some ht => exact ⟨_, _, rfl, ht ▸ List.mem_cons_self⟩

/-- A part of code has no tokens, or begins with one of its kinds. -/
theorem DerivesCode.begins (h : DerivesCode p w cs) :
    (w = [] ∧ p.isOptional = true) ∨ ∃ t ts, w = t :: ts ∧ t.kind ∈ p.firsts := by
  have hmem {k : Token.Kind} {t : Token} {kinds : List Token.Kind} (ht : t.kind = k)
      (hk : k ∈ kinds) : t.kind ∈ kinds := ht ▸ hk
  have hsub : actionKinds ⊆ statementKinds := by decide
  induction h with
  | nil | action_none | elsifs_nil | otherwise_none => exact .inl ⟨rfl, rfl⟩
  | block _ ih => exact ih
  | cons _ _ ih _ =>
    obtain ⟨_, h⟩ | ⟨t, ts, rfl, ht⟩ := ih
    · exact nomatch h
    · exact .inr ⟨t, _, rfl, ht⟩
  | singleton _ ih => exact ih.imp_left fun h ↦ ⟨h.1, rfl⟩
  | @statement l w s ls cs label _ hs ih =>
    refine .inr (label.begins (fun _ ↦ ?_) (by simp))
    -- Without an action the statement begins with its semicolon.
    obtain ⟨rfl, -⟩ | ⟨t, ts, rfl, ht⟩ := ih
    · exact ⟨s, [], rfl, hmem hs (by decide)⟩
    · exact ⟨t, _, rfl, hsub ht⟩
  | last label _ hne ih =>
    refine .inr (label.begins (fun hw ↦ ?_) hne)
    obtain ⟨rfl, -⟩ | ⟨t, ts, rfl, ht⟩ := ih
    · exact absurd rfl hw
    · exact ⟨t, _, rfl, hsub ht⟩
  | action_some _ ih =>
    obtain ⟨_, h⟩ | h := ih
    · exact nomatch h
    · exact .inr h
  | simple action => exact .inr action.begins
  | elsifs_cons h | otherwise_some h | body h | conditional h | whileLoop h | forLoop h
  | forEachLoop h | attempt h => exact .inr ⟨_, _, rfl, hmem h (by decide)⟩

theorem DerivesCode.begins_of_ne (h : DerivesCode p w cs) (hp : p.isOptional = false) :
    ∃ t ts, w = t :: ts ∧ t.kind ∈ p.firsts := by
  obtain ⟨_, h⟩ | h := h.begins
  · exact absurd h (by rw [hp]; exact nofun)
  · exact h

/-- Behind a part that may be missing comes what the part begins with, or what comes behind it. -/
theorem DerivesCode.avoids_append {k : List Token} {kinds : List Token.Kind}
    (h : DerivesCode p w cs) (hfirsts : ∀ kind ∈ p.firsts, kind ∉ kinds) (hk : Avoids kinds k) :
    Avoids kinds (w ++ k) := by
  obtain ⟨rfl, -⟩ | ⟨t, ts, rfl, ht⟩ := h.begins
  · exact hk
  · exact avoids_cons.2 (hfirsts _ ht)

end BslLint.Grammar
