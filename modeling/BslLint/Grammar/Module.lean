import BslLint.Grammar.Statement

/-!
# The grammar of modules

A module declares variables, then procedures and functions, then comes its own code. Text does not
always keep to that order, so the parser takes runs of procedures and runs of code as they come; the
tree always ends with a block of code, an empty one if need be.

Procedures and variables may have annotations in front, with arguments in parentheses. What is
annotated is found by looking past all of them (`afterDirectives`), so the declaration is known
before its annotations are read.
-/

namespace BslLint.Grammar

open BslLint.Parser

/-! ### Looking past annotations -/

/-- What follows the parenthesis that closes the outermost of the open ones, `depth` of which are
open already. -/
def afterParens (depth : Nat) : List Token → List Token
  | [] => []
  | t :: ts =>
    match t.kind with
    | .leftParen => afterParens (depth + 1) ts
    | .rightParen => if depth ≤ 1 then ts else afterParens (depth - 1) ts
    | _ => afterParens depth ts

theorem length_afterParens_le (depth : Nat) (ts : List Token) :
    (afterParens depth ts).length ≤ ts.length := by
  fun_induction afterParens depth ts <;> simp only [List.length_cons, List.length_nil] <;> omega

/-- What follows the annotations at the front and their arguments. -/
def afterDirectives : List Token → List Token
  | [] => []
  | t :: ts =>
    if t.kind = .directive then
      if isAt .leftParen ts then afterDirectives (afterParens 0 ts) else afterDirectives ts
    else t :: ts
termination_by ts => ts.length
decreasing_by
  · have := length_afterParens_le 0 ts
    simp only [List.length_cons]
    omega
  · simp

/-- Whether a procedure or a function is declared next. -/
def atSub (ts : List Token) : Bool :=
  isAtAny [.keyword .procedure, .keyword .function] (afterDirectives ts)

/-- Whether a variable of the module is declared next. -/
def atModuleVar (ts : List Token) : Bool := isAt (.keyword .var) (afterDirectives ts)

/-! ### Declarations -/

/-- Any number of annotations, with arguments or without. -/
def compilerDirectives : Parser :=
  many (isAt .directive)
    (node .compilerDirective (one ++ when (isAt .leftParen) (doCall expression)))

/-- A declaration of variables of the module. -/
def moduleVar : Parser :=
  node .moduleVar <|
    compilerDirectives ++ one ++
      node .moduleVarsList (commaSeparated
        (node .moduleVarDeclaration (expectName .variableName ++ eat (.keyword .export_)))) ++
      expect .semicolon

/-- A parameter, by value or not, with a default or without. -/
def param : Parser :=
  node .param <|
    eat (.keyword .val) ++ expectName .parameterName ++
      when (isAt .equal) (node .defaultValue (one ++ constValue true))

/-- The parameters in their parentheses. Without the first parenthesis nothing more is read. -/
def paramList : Parser :=
  node .paramList <|
    ifAhead (isAt .leftParen)
      (one ++ ifAhead (isAt .rightParen) nothing (commaSeparated param) ++ expect .rightParen)
      (missing (.token .leftParen))

/-- The head of a procedure or a function up to its parameters. -/
def subDeclaration (kind : NodeKind) : Parser :=
  node kind <|
    compilerDirectives ++ one ++
      ifAhead (isAt .identifier) (node .subName one) (missing .subName) ++ paramList ++
      eat (.keyword .export_)

/-- A declaration of variables of a procedure. -/
def subVar : Parser :=
  node .subVar <|
    one ++ node .subVarsList (commaSeparated
      (node .subVarDeclaration (expectName .variableName))) ++
      expect .semicolon

/-- The variables and the statements of a procedure. -/
def subCodeBlock : Parser :=
  node .subCodeBlock <|
    when (isAt (.keyword .var)) (node .subVars (many (isAt (.keyword .var)) subVar)) ++ block

/-- A procedure or a function. -/
def sub : Parser :=
  node .sub <|
    ifAhead (fun ts ↦ isAt (.keyword .function) (afterDirectives ts))
      (node .function
        (subDeclaration .funcDeclaration ++ subCodeBlock ++ expect (.keyword .endFunction)))
      (node .procedure
        (subDeclaration .procDeclaration ++ subCodeBlock ++ expect (.keyword .endProcedure)))

/-! ### Modules -/

/-- Code outside of procedures: statements up to the next procedure. Here no word closes the
block. -/
def fileCodeBlock : Parser :=
  node .fileCodeBlock <|
    node .codeBlock <| many (fun ts ↦ !ts.isEmpty && !atSub ts) (statement block)

/-- A run of procedures, or of code. -/
def run : Parser := ifAhead atSub (node .subs (many atSub sub)) fileCodeBlock

/-- What `runs` does from a given list of tokens on; `coded` says whether the last run was of
code. -/
def runsFrom (coded : Bool) (ts : List Token) : Step ts :=
  if ts.isEmpty then
    if coded then .start ts else fileCodeBlock ts
  else
    let s := run ts
    if s.rest.length < ts.length then s.andThen (runsFrom (!atSub ts) s.rest) else s
termination_by ts.length

/-- The procedures and the code of a module. The last run is one of code: an empty one is made if
there is none. -/
def runs : Parser := fun ts ↦ runsFrom false ts

/-- A whole module. -/
def file : Parser :=
  node .file <| when atModuleVar (node .moduleVars (many atModuleVar moduleVar)) ++ runs

end BslLint.Grammar
