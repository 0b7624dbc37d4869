import BslLint.Grammar.Parser

/-!
# The grammar of expressions

An expression is a row of members with binary operators between them; a member is a value behind any
number of unary operators. Values may hold expressions again, in parentheses, in calls, in indexes
and in the three-way choice, and always behind a token of their own. The parser does not know of
priorities: the tree shows the row as it was written.

Each definition is a rule of the grammar. Those that hold expressions take the parser `inner` for
them; `expression` is the parser that is its own `inner`.
-/

namespace BslLint.Grammar

open BslLint.Parser

/-- Whether a token of the kind stands between two members. -/
def isBinaryOperator (kind : Token.Kind) : Bool :=
  kind.isComparison || match kind with
    | .plus | .minus | .multiply | .divide | .modulo | .keyword .and_ | .keyword .or_ => true
    | _ => false

/-- Whether a binary operator is next. -/
def atBinaryOperator (ts : List Token) : Bool := (peek ts).any isBinaryOperator

/-- Whether a token of the kind is a constant by itself or begins one. -/
def isConstant : Token.Kind → Bool
  | .numberLiteral | .stringLiteral | .dateLiteral | .keyword .true_ | .keyword .false_
  | .keyword .undefined | .keyword .null => true
  | _ => false

/-- A binary operator. Comparisons and logical operators have a node of their own inside. -/
def operation : Parser :=
  node .operation <| select fun
    | some kind =>
      if kind.isComparison then node .compareOperation one
      else if kind = .keyword .and_ ∨ kind = .keyword .or_ then node .boolOperation one
      else one
    | none => one

/-- A constant. String literals that follow each other are one value. A sign may come first where
`signed` says so. -/
def constValue (signed : Bool) : Parser :=
  node .constValue <|
    when (fun ts ↦ signed && isAtAny [.minus, .plus] ts) one ++ select fun
      | some .stringLiteral => many (isAt .stringLiteral) one
      | some kind => if isConstant kind then one else missing .constant
      | none => missing .constant

section

variable (inner : Parser)

/-- An argument of a call, which may be left out. -/
def callParam : Parser :=
  node .callParam <| when (fun ts ↦ !isAt .comma ts && !isAt .rightParen ts) inner

/-- The arguments of a call in their parentheses. -/
def doCall : Parser :=
  node .doCall <|
    expect .leftParen ++ node .callParamList (commaSeparated (callParam inner)) ++
      expect .rightParen

/-- A name and the arguments behind it. -/
def globalMethodCall : Parser :=
  node .globalMethodCall <| node .methodName one ++ doCall inner

/-- An identifier, called or not. -/
def identifierHead : Parser :=
  ifAhead (fun ts ↦ look 1 ts == some .leftParen) (globalMethodCall inner) one

/-- An access to a property or a method by its name. Behind the dot a reserved word is a name. -/
def memberAccess : Parser :=
  node .modifier <| fun ts ↦
    let named := (look 1 ts).any Token.Kind.isNameLike
    if named && look 2 ts == some .leftParen then
      node .accessCall (one ++ node .methodCall (node .methodName one ++ doCall inner)) ts
    else
      node .accessProperty (one ++ if named then one else missing .propertyName) ts

/-- An access by index. -/
def indexAccess : Parser :=
  node .modifier <| node .accessIndex <| one ++ inner ++ expect .rightBracket

/-- Any number of accesses behind a value. -/
def modifiers : Parser :=
  many (isAtAny [.dot, .leftBracket])
    (ifAhead (isAt .dot) (memberAccess inner) (indexAccess inner))

/-- The making of an object. The name of its type may be left out, and so may the arguments. -/
def newExpression : Parser :=
  node .newExpression <|
    one ++ when (isAt .identifier) (node .typeName one) ++ when (isAt .leftParen) (doCall inner)

/-- The choice between two values by a condition. -/
def ternaryOperator : Parser :=
  node .ternaryOperator <|
    one ++ expect .leftParen ++ inner ++ expect .comma ++ inner ++ expect .comma ++ inner ++
      expect .rightParen

/-- A value that is named, made or chosen, and the accesses behind it. -/
def complexIdentifier : Parser :=
  node .complexIdentifier <|
    (select fun
      | some (.keyword .new) => newExpression inner
      | some .question => ternaryOperator inner
      | _ => identifierHead inner) ++
    modifiers inner

/-- A value behind any number of unary operators. -/
def member : Parser :=
  node .member <|
    many (isAtAny [.keyword .not_, .minus, .plus]) (node .unaryModifier one) ++ select fun
      | some .leftParen => one ++ inner ++ expect .rightParen ++ modifiers inner
      | some .identifier | some (.keyword .new) | some .question => complexIdentifier inner
      | some kind =>
        if isConstant kind then constValue false else node .error (missing .expression)
      | none => node .error (missing .expression)

/-- A row of members and the operators between them. -/
def members : Parser :=
  node .expression <| member inner ++ many atBinaryOperator (operation ++ member inner)

end

/-- An expression. -/
def expression : Parser := fix members

end BslLint.Grammar
