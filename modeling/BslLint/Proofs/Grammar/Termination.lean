import BslLint.Proofs.Grammar.Coverage
import BslLint.Proofs.Grammar.Unfolding

/-!
# Parsing comes to an end

Two things could go on forever. A loop could begin one round after another without reading anything,
and a parser could use itself again and again at the same place. The combinators guard against
either: `many` gives up after a round that reads nothing, and `fix` counts levels.

Neither guard is ever felt. Wherever a loop of the grammar begins a further round, the round reads a
token (`Grammar.IsLoop.progress`), so the loop is the same without the guard. And a parser for
expressions or for blocks uses itself behind a token of its own only, so it descends no deeper than
there are tokens, and the equation without levels holds of it (`Parser.Descends`).
-/

namespace BslLint

namespace Parser

variable {ahead : List Token → Bool} {round : Parser}

/-- Where every round that is begun reads a token, a loop needs no guard. -/
theorem many_eq (h : ∀ ts, ahead ts = true → Progress round ts) (ts : List Token) :
    many ahead round ts =
      if ahead ts then (round ts).andThen (many ahead round (round ts).rest) else .start ts := by
  by_cases hts : ahead ts = true
  · rw [if_pos hts]
    exact many_of_go hts (h ts hts)
  · rw [if_neg hts]
    exact many_of_stop (Bool.not_eq_true _ ▸ hts)

/-- `p` is what comes of a rule that uses itself behind a token only. -/
structure Descends (rule : Parser → Parser) (p : Parser) : Prop where
  /-- What the rule does depends on what its inner parser does behind a token. -/
  later : ∀ (q r : Parser) (ts : List Token), AgreeBelow ts.length q r → rule q ts = rule r ts
  /-- The parser is its own inner parser. -/
  unrolls : ∀ ts, p ts = rule p ts
  /-- There are no more levels than tokens. -/
  depth : ∀ d ts, ts.length ≤ d → nested rule d ts = p ts

theorem descends_fix {rule : Parser → Parser}
    (h : ∀ (q r : Parser) (ts : List Token), AgreeBelow ts.length q r → rule q ts = rule r ts) :
    Descends rule (fix rule) :=
  ⟨h, fix_eq h, fun _ _ hd ↦ nested_eq h hd (Nat.le_refl _)⟩

end Parser

namespace Grammar

open BslLint.Parser

/-- The loops of the grammar: when a further round begins, and what a round is. -/
inductive IsLoop : (List Token → Bool) → Parser → Prop where
  /-- The statements of a block. -/
  | statements : IsLoop (fun ts ↦ !atBoundary ts) (statement block)
  /-- The statements outside of procedures. -/
  | code : IsLoop (fun ts ↦ !ts.isEmpty && !atSub ts) (statement block)
  /-- The procedures and functions of a run. -/
  | subs : IsLoop atSub sub
  /-- The declarations of the module's variables. -/
  | moduleVars : IsLoop atModuleVar moduleVar
  /-- The declarations of a procedure's variables. -/
  | subVars : IsLoop (isAt (.keyword .var)) subVar
  /-- Further branches of a conditional. -/
  | elsIf : IsLoop (isAt (.keyword .elsIf)) (conditionalBranch block .elsifBranch)
  /-- Further items behind a comma, of whatever kind. -/
  | comma (item : Parser) : IsLoop (isAt .comma) (one ++ item)
  /-- Accesses behind a value. -/
  | modifiers : IsLoop (isAtAny [.dot, .leftBracket])
    (ifAhead (isAt .dot) (memberAccess expression) (indexAccess expression))
  /-- Unary operators. -/
  | unary : IsLoop (isAtAny [.keyword .not_, .minus, .plus]) (node .unaryModifier one)
  /-- Binary operators with the members behind them. -/
  | binary : IsLoop atBinaryOperator (operation ++ member expression)
  /-- String literals that are one value. -/
  | strings : IsLoop (isAt .stringLiteral) one
  /-- Annotations with their arguments. -/
  | directives : IsLoop (isAt .directive)
    (node .compilerDirective (one ++ when (isAt .leftParen) (doCall expression)))
  /-- Further tokens of unexpected text. -/
  | unexpected : IsLoop
    (fun ts ↦ !ts.isEmpty && !isAt .semicolon ts && !isAtAny resumptions ts) one

variable {ahead : List Token → Bool} {round : Parser} {ts : List Token}

/-- At the end of the tokens no further round begins. -/
theorem IsLoop.ne_nil (h : IsLoop ahead round) (hts : ahead ts = true) : ts ≠ [] := by
  rintro rfl
  have hsub : atSub [] = false := by
    rw [atSub, afterDirectives]
    rfl
  have hvar : atModuleVar [] = false := by
    rw [atModuleVar, afterDirectives]
    rfl
  rcases h
  case subs => exact Bool.false_ne_true (hsub.symm.trans hts)
  case moduleVars => exact Bool.false_ne_true (hvar.symm.trans hts)
  all_goals exact Bool.false_ne_true hts

/-! ### Rounds read something -/

theorem progress_moduleVar (h : ts ≠ []) : Progress moduleVar ts :=
  (((progress_seq_one compilerDirectives h).seq _).seq _).node _

theorem progress_operation (h : ts ≠ []) : Progress operation ts := by
  have hone : Progress one ts := progress_one h
  refine (progress_select fun k _ ↦ ?_).node _
  split
  · split
    · exact hone.node _
    · split
      · exact hone.node _
      · exact hone
  · exact hone

theorem progress_memberAccess {inner : Parser} (h : ts ≠ []) :
    Progress (memberAccess inner) ts := by
  have hone : Progress one ts := progress_one h
  refine Progress.node ?_ _
  unfold Progress
  dsimp only
  split
  · exact (hone.seq _).node _
  · exact (hone.seq _).node _

/-- **Every round of a loop reads a token.** -/
theorem IsLoop.progress (h : IsLoop ahead round) (hts : ahead ts = true) : Progress round ts := by
  have hne := h.ne_nil hts
  have hone : Progress one ts := progress_one hne
  -- Where a round begins with `one` this is what it reads; in the others a node begins with it.
  rcases h
  case statements => exact progress_statement hne
  case code => exact progress_statement hne
  case subs => exact progress_sub hne
  case moduleVars => exact progress_moduleVar hne
  case subVars => exact ((hone.seq _).seq _).node _
  case elsIf => exact (((hone.seq _).seq _).seq _).node _
  case comma => exact hone.seq _
  case modifiers =>
    exact progress_ifAhead (progress_memberAccess hne) ((((hone.seq _).seq _).node _).node _)
  case unary => exact hone.node _
  case binary => exact (progress_operation hne).seq _
  case strings => exact hone
  case directives => exact (hone.seq _).node _
  case unexpected => exact hone

/-- Parts of a module are read until none is left, and each of them reads a token. -/
theorem runsFrom_eq (coded : Bool) (ts : List Token) :
    runsFrom coded ts =
      if ts.isEmpty then if coded then .start ts else fileCodeBlock ts
      else (run ts).andThen (runsFrom (!atSub ts) (run ts).rest) := by
  by_cases hts : ts.isEmpty = true
  · rw [runsFrom, if_pos hts, if_pos hts]
  · have hrun : Progress run ts := progress_run fun hnil ↦ hts (List.isEmpty_iff.2 hnil)
    rw [runsFrom, if_neg hts, if_neg hts]
    exact if_pos hrun

/-- The parsers come to an end, without help from the guards of the combinators. -/
structure Terminates : Prop where
  /-- Every round of a loop reads a token. -/
  rounds : ∀ {ahead round}, IsLoop ahead round → ∀ ts, ahead ts = true → Progress round ts
  /-- So a loop goes on as long as its condition holds, and for no other reason does it end. -/
  loops : ∀ {ahead round}, IsLoop ahead round → ∀ ts, many ahead round ts =
    if ahead ts then (round ts).andThen (many ahead round (round ts).rest) else .start ts
  /-- Every part of a module reads a token. -/
  runs : ∀ ts, ts ≠ [] → Progress run ts
  /-- Code between procedures reads a token, unless a procedure comes. -/
  code : ∀ ts, ts ≠ [] → atSub ts = false → Progress fileCodeBlock ts
  /-- So the parts of a module are read until no token is left. -/
  parts : ∀ coded ts, runsFrom coded ts =
    if ts.isEmpty then if coded then .start ts else fileCodeBlock ts
    else (run ts).andThen (runsFrom (!atSub ts) (run ts).rest)
  /-- Unexpected text holds a token. -/
  recovery : ∀ ts, ts ≠ [] → Progress unexpected ts
  /-- Behind a label a statement is asked for only where a token is left. -/
  labelled : ∀ ts, atStatementEnd ts = false → ts ≠ []
  /-- Expressions hold expressions behind a token. -/
  expressions : Descends members expression
  /-- Blocks hold blocks behind a token. -/
  blocks : Descends statements block
  /-- What a parser leaves is the end of what it was given. -/
  suffix : ∀ (p : Parser) ts, (p ts).rest <:+ ts
  /-- A file is read to its end. -/
  file : ∀ ts, (file ts).rest = [] ∧ Tree.tokensAll (Grammar.file ts).trees = ts

/-- **Parsing comes to an end** at any tokens. -/
theorem parsing_terminates : Terminates where
  rounds h _ := h.progress
  loops h := many_eq fun _ ↦ h.progress
  runs _ := progress_run
  code _ := progress_fileCodeBlock
  parts := runsFrom_eq
  recovery _ := progress_unexpected
  labelled ts hts := by
    rintro rfl
    exact Bool.false_ne_true hts.symm
  expressions := descends_fix fun _ _ ts h ↦ agreeBelow_members h ts (Nat.lt_succ_self _)
  blocks := descends_fix fun _ _ ts h ↦ agreeBelow_statements h ts (Nat.lt_succ_self _)
  suffix p ts := ⟨_, (p ts).tokens_append_rest⟩
  file ts := ⟨rest_file ts, tokensAll_trees_file ts⟩

end Grammar

end BslLint
