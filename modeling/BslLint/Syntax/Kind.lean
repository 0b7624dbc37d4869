/-!
# Kinds of syntax node

Every inner node of a syntax tree is an instance of a rule of the grammar, or an error node, which
holds text that no rule covers. The leaves are the tokens. The name of a kind is part of every
fingerprint.
-/

namespace BslLint

/-- What a node of a syntax tree stands for. -/
inductive NodeKind where
  | file | moduleVars | moduleVar | moduleVarsList | moduleVarDeclaration | subs | sub
  | procedure | procDeclaration | function | funcDeclaration | subName | paramList | param
  | defaultValue | compilerDirective | subCodeBlock | subVars | subVar | subVarsList
  | subVarDeclaration | fileCodeBlock | codeBlock | statement | label | assignment | lValue
  | callStatement | ifStatement | ifBranch | elsifBranch | elseBranch | whileStatement
  | forStatement | forEachStatement | tryStatement | tryCodeBlock | exceptCodeBlock
  | returnStatement | breakStatement | continueStatement | raiseStatement | gotoStatement
  | expression | operation | compareOperation | boolOperation | unaryModifier | member
  | constValue | complexIdentifier | modifier | accessProperty | accessIndex | accessCall
  | methodCall | globalMethodCall | methodName | doCall | callParamList | callParam
  | newExpression | typeName | ternaryOperator | token | error
  deriving DecidableEq, Repr, Inhabited

namespace NodeKind

/-- All kinds, from the whole file down to the leaves. -/
def all : List NodeKind :=
  [.file, .moduleVars, .moduleVar, .moduleVarsList, .moduleVarDeclaration, .subs, .sub,
    .procedure, .procDeclaration, .function, .funcDeclaration, .subName, .paramList, .param,
    .defaultValue, .compilerDirective, .subCodeBlock, .subVars, .subVar, .subVarsList,
    .subVarDeclaration, .fileCodeBlock, .codeBlock, .statement, .label, .assignment, .lValue,
    .callStatement, .ifStatement, .ifBranch, .elsifBranch, .elseBranch, .whileStatement,
    .forStatement, .forEachStatement, .tryStatement, .tryCodeBlock, .exceptCodeBlock,
    .returnStatement, .breakStatement, .continueStatement, .raiseStatement, .gotoStatement,
    .expression, .operation, .compareOperation, .boolOperation, .unaryModifier, .member,
    .constValue, .complexIdentifier, .modifier, .accessProperty, .accessIndex, .accessCall,
    .methodCall, .globalMethodCall, .methodName, .doCall, .callParamList, .callParam,
    .newExpression, .typeName, .ternaryOperator, .token, .error]

/-- The name of a kind. -/
def name : NodeKind → String
  | file => "file"
  | moduleVars => "moduleVars"
  | moduleVar => "moduleVar"
  | moduleVarsList => "moduleVarsList"
  | moduleVarDeclaration => "moduleVarDeclaration"
  | subs => "subs"
  | sub => "sub"
  | procedure => "procedure"
  | procDeclaration => "procDeclaration"
  | function => "function"
  | funcDeclaration => "funcDeclaration"
  | subName => "subName"
  | paramList => "paramList"
  | param => "param"
  | defaultValue => "defaultValue"
  | compilerDirective => "compilerDirective"
  | subCodeBlock => "subCodeBlock"
  | subVars => "subVars"
  | subVar => "subVar"
  | subVarsList => "subVarsList"
  | subVarDeclaration => "subVarDeclaration"
  | fileCodeBlock => "fileCodeBlock"
  | codeBlock => "codeBlock"
  | statement => "statement"
  | label => "label"
  | assignment => "assignment"
  | lValue => "lValue"
  | callStatement => "callStatement"
  | ifStatement => "ifStatement"
  | ifBranch => "ifBranch"
  | elsifBranch => "elsifBranch"
  | elseBranch => "elseBranch"
  | whileStatement => "whileStatement"
  | forStatement => "forStatement"
  | forEachStatement => "forEachStatement"
  | tryStatement => "tryStatement"
  | tryCodeBlock => "tryCodeBlock"
  | exceptCodeBlock => "exceptCodeBlock"
  | returnStatement => "returnStatement"
  | breakStatement => "breakStatement"
  | continueStatement => "continueStatement"
  | raiseStatement => "raiseStatement"
  | gotoStatement => "gotoStatement"
  | expression => "expression"
  | operation => "operation"
  | compareOperation => "compareOperation"
  | boolOperation => "boolOperation"
  | unaryModifier => "unaryModifier"
  | member => "member"
  | constValue => "constValue"
  | complexIdentifier => "complexIdentifier"
  | modifier => "modifier"
  | accessProperty => "accessProperty"
  | accessIndex => "accessIndex"
  | accessCall => "accessCall"
  | methodCall => "methodCall"
  | globalMethodCall => "globalMethodCall"
  | methodName => "methodName"
  | doCall => "doCall"
  | callParamList => "callParamList"
  | callParam => "callParam"
  | newExpression => "newExpression"
  | typeName => "typeName"
  | ternaryOperator => "ternaryOperator"
  | token => "token"
  | error => "error"

/-- The kind with a name, if it has one. -/
def ofName? (name : String) : Option NodeKind := all.find? (·.name == name)

end NodeKind

end BslLint
