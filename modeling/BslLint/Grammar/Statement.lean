import BslLint.Grammar.Expression

/-!
# The grammar of statements

A statement ends with a semicolon, which may be left out in front of a word that closes a block.
What kind of statement comes is told by its first token, but for two cases that look further ahead:
a statement that begins with an identifier is an assignment if an equals sign follows outside of
parentheses (`assignmentAhead`), and raising an exception takes a list of arguments if there is a
comma between its parentheses (`commaAhead`).

What fits no rule goes into an error node, up to a semicolon or a word from which reading can go on.

Statements hold blocks of statements again, always behind a token of their own. As with
expressions, the rules take the parser for blocks, and `block` is the parser that is its own.
-/

namespace BslLint.Grammar

open BslLint.Parser

/-! ### Where statements end -/

/-- The reserved words that close a block inside a procedure or a statement. -/
def blockEnds : List Token.Kind :=
  [.keyword .endIf, .keyword .elsIf, .keyword .else_, .keyword .endDo, .keyword .endProcedure,
    .keyword .endFunction, .keyword .except, .keyword .endTry]

/-- What may come next where reading goes on after unexpected text. -/
def resumptions : List Token.Kind :=
  [.keyword .if_, .keyword .while_, .keyword .for_, .keyword .try_, .keyword .return_,
    .keyword .procedure, .keyword .function, .keyword .var, .directive] ++ blockEnds

/-- Whether a statement may end here without a semicolon. -/
def atBoundary (ts : List Token) : Bool :=
  ts.isEmpty || isAtAny blockEnds ts ||
    isAtAny [.keyword .procedure, .keyword .function, .directive] ts

/-- Whether nothing more of a statement follows. -/
def atStatementEnd (ts : List Token) : Bool := isAt .semicolon ts || atBoundary ts

/-! ### Looking far ahead -/

/-- The reserved words that occur in expressions. -/
def isExpressionKeyword : Keyword → Bool
  | .and_ | .or_ | .not_ | .true_ | .false_ | .undefined | .null | .new => true
  | _ => false

/-- Whether an equals sign comes before the statement is over, outside of `depth` open
parentheses and brackets. -/
def assignmentAhead (depth : Nat) : List Token → Bool
  | [] => false
  | t :: ts =>
    match t.kind with
    | .leftParen | .leftBracket => assignmentAhead (depth + 1) ts
    | .rightParen | .rightBracket => assignmentAhead (depth - 1) ts
    | .equal => depth == 0 || assignmentAhead depth ts
    | .semicolon => depth != 0 && assignmentAhead depth ts
    | .keyword word => (depth != 0 || isExpressionKeyword word) && assignmentAhead depth ts
    | _ => assignmentAhead depth ts

/-- Whether a comma comes inside the first pair of parentheses but not inside any other. -/
def commaAhead (depth : Nat) : List Token → Bool
  | [] => false
  | t :: ts =>
    match t.kind with
    | .leftParen | .leftBracket => commaAhead (depth + 1) ts
    | .rightParen | .rightBracket => depth - 1 != 0 && commaAhead (depth - 1) ts
    | .comma => depth == 1 || commaAhead depth ts
    | .semicolon => false
    | _ => commaAhead depth ts

/-! ### Statements without statements inside -/

/-- Unexpected text: at least one token, and all up to a semicolon, which is taken too, or up to a
token from which reading can go on. -/
def unexpected : Parser :=
  node .error <|
    missing .statement ++ one ++
      many (fun ts ↦ !ts.isEmpty && !isAt .semicolon ts && !isAtAny resumptions ts) one ++
      eat .semicolon

/-- A label, where it stands or where it is gone to. -/
def label (withColon : Bool) : Parser :=
  node .label <|
    one ++ expectName .labelName ++ if withColon then expect .colon else nothing

/-- An assignment to a variable, a property or an element. -/
def assignment : Parser :=
  node .assignment <|
    node .lValue (identifierHead expression ++ modifiers expression) ++ expect .equal ++ expression

/-- A call. -/
def callStatement : Parser :=
  node .callStatement <| identifierHead expression ++ modifiers expression

/-- A return, with a value or without. -/
def returnStatement : Parser :=
  node .returnStatement <| one ++ ifAhead atStatementEnd nothing expression

/-- The raising of an exception: of the one at hand, of an expression, or of a list of arguments. -/
def raiseStatement : Parser :=
  node .raiseStatement <|
    one ++ ifAhead atStatementEnd nothing
      (ifAhead (fun ts ↦ isAt .leftParen ts && commaAhead 0 ts) (doCall expression) expression)

/-- A jump to a label. -/
def gotoStatement : Parser :=
  node .gotoStatement <| one ++ ifAhead (isAt .tilde) (label false) (missing .label)

/-! ### Statements with statements inside -/

section

variable (inner : Parser)

/-- A branch of a conditional with a condition. -/
def conditionalBranch (kind : NodeKind) : Parser :=
  node kind <| one ++ expression ++ expect (.keyword .then_) ++ inner

/-- A conditional. -/
def ifStatement : Parser :=
  node .ifStatement <|
    conditionalBranch inner .ifBranch ++
      many (isAt (.keyword .elsIf)) (conditionalBranch inner .elsifBranch) ++
      when (isAt (.keyword .else_)) (node .elseBranch (one ++ inner)) ++
      expect (.keyword .endIf)

/-- The body of a loop. -/
def loopBody : Parser := expect (.keyword .do_) ++ inner ++ expect (.keyword .endDo)

/-- A loop with a condition. -/
def whileStatement : Parser := node .whileStatement <| one ++ expression ++ loopBody inner

/-- A loop over a range of numbers. -/
def forStatement : Parser :=
  node .forStatement <|
    one ++ expectName .loopVariable ++ expect .equal ++ expression ++ expect (.keyword .to_) ++
      expression ++ loopBody inner

/-- A loop over a collection. -/
def forEachStatement : Parser :=
  node .forEachStatement <|
    one ++ one ++ expectName .loopVariable ++ expect (.keyword .in_) ++ expression ++
      loopBody inner

/-- An attempt and what to do when it fails. -/
def tryStatement : Parser :=
  node .tryStatement <|
    one ++ node .tryCodeBlock inner ++ expect (.keyword .except) ++
      node .exceptCodeBlock inner ++ expect (.keyword .endTry)

/-- The end of a statement: a semicolon, or nothing where it may be left out. -/
def statementEnd : Parser :=
  ifAhead (isAt .semicolon) one (ifAhead atBoundary nothing (missing (.token .semicolon)))

/-- A statement but for its label. -/
def statementBody : Parser :=
  select fun
    | some (.keyword .if_) => ifStatement inner ++ statementEnd
    | some (.keyword .while_) => whileStatement inner ++ statementEnd
    | some (.keyword .for_) =>
      ifAhead (fun ts ↦ look 1 ts == some (.keyword .each)) (forEachStatement inner)
        (forStatement inner) ++ statementEnd
    | some (.keyword .try_) => tryStatement inner ++ statementEnd
    | some (.keyword .return_) => returnStatement ++ statementEnd
    | some (.keyword .break_) => node .breakStatement one ++ statementEnd
    | some (.keyword .continue_) => node .continueStatement one ++ statementEnd
    | some (.keyword .raise) => raiseStatement ++ statementEnd
    | some (.keyword .goto) => gotoStatement ++ statementEnd
    | some .identifier =>
      ifAhead (assignmentAhead 0) assignment callStatement ++ statementEnd
    | some .semicolon => statementEnd
    | _ => unexpected

/-- A statement. A label may stand in front of it, or alone. -/
def statement : Parser :=
  node .statement <|
    ifAhead (fun ts ↦ isAt .tilde ts && look 2 ts == some .colon)
      (label true ++ ifAhead atStatementEnd (eat .semicolon) (statementBody inner))
      (statementBody inner)

/-- The statements up to a word that closes the block. -/
def statements : Parser :=
  node .codeBlock <| many (fun ts ↦ !atBoundary ts) (statement inner)

end

/-- A block of statements inside a procedure or a statement. -/
def block : Parser := fix statements

end BslLint.Grammar
