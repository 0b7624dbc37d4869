/-!
# Kinds of token

The words of a BSL text fall into keywords, operators and punctuation, literals, annotations and
identifiers. Comments, preprocessor lines and white space have kinds too, because the numbering
of kinds counts them, but no token ever has one of these kinds.

`Token.Kind.code` numbers the kinds in the order of their declaration. The number is part of every
fingerprint, so the order of the constructors is fixed.
-/

namespace BslLint

/-- The reserved words. Each has a Russian and an English spelling. -/
inductive Keyword where
  | if_ | then_ | elsIf | else_ | endIf
  | for_ | each | in_ | to_ | do_ | endDo | while_ | break_ | continue_
  | procedure | endProcedure | function | endFunction | return_ | export_
  | var | val
  | try_ | except | endTry | raise | goto
  | true_ | false_ | undefined | null
  | and_ | or_ | not_ | new
  deriving DecidableEq, Repr, Inhabited

namespace Keyword

/-- The reserved words in the order of their numbers. -/
def all : List Keyword :=
  [if_, then_, elsIf, else_, endIf, for_, each, in_, to_, do_, endDo, while_, break_, continue_,
    procedure, endProcedure, function, endFunction, return_, export_, var, val, try_, except,
    endTry, raise, goto, true_, false_, undefined, null, and_, or_, not_, new]

/-- The spelling that messages use: the Russian one, where there is one. -/
def display : Keyword → String
  | if_ => "Если"
  | then_ => "Тогда"
  | elsIf => "ИначеЕсли"
  | else_ => "Иначе"
  | endIf => "КонецЕсли"
  | for_ => "Для"
  | each => "Каждого"
  | in_ => "Из"
  | to_ => "По"
  | do_ => "Цикл"
  | endDo => "КонецЦикла"
  | while_ => "Пока"
  | break_ => "Прервать"
  | continue_ => "Продолжить"
  | procedure => "Процедура"
  | endProcedure => "КонецПроцедуры"
  | function => "Функция"
  | endFunction => "КонецФункции"
  | return_ => "Возврат"
  | export_ => "Экспорт"
  | var => "Перем"
  | val => "Знач"
  | try_ => "Попытка"
  | except => "Исключение"
  | endTry => "КонецПопытки"
  | raise => "ВызватьИсключение"
  | goto => "Перейти"
  | true_ => "Истина"
  | false_ => "Ложь"
  | undefined => "Неопределено"
  | null => "Null"
  | and_ => "И"
  | or_ => "Или"
  | not_ => "Не"
  | new => "Новый"

/-- The English spelling. -/
def english : Keyword → String
  | if_ => "If"
  | then_ => "Then"
  | elsIf => "ElsIf"
  | else_ => "Else"
  | endIf => "EndIf"
  | for_ => "For"
  | each => "Each"
  | in_ => "In"
  | to_ => "To"
  | do_ => "Do"
  | endDo => "EndDo"
  | while_ => "While"
  | break_ => "Break"
  | continue_ => "Continue"
  | procedure => "Procedure"
  | endProcedure => "EndProcedure"
  | function => "Function"
  | endFunction => "EndFunction"
  | return_ => "Return"
  | export_ => "Export"
  | var => "Var"
  | val => "Val"
  | try_ => "Try"
  | except => "Except"
  | endTry => "EndTry"
  | raise => "Raise"
  | goto => "Goto"
  | true_ => "True"
  | false_ => "False"
  | undefined => "Undefined"
  | null => "Null"
  | and_ => "And"
  | or_ => "Or"
  | not_ => "Not"
  | new => "New"

end Keyword

/-- What a piece of text is to the language. -/
inductive Token.Kind where
  | keyword (word : Keyword)
  | plus | minus | multiply | divide | modulo
  | equal | notEqual | less | greater | lessEqual | greaterEqual
  | leftParen | rightParen | leftBracket | rightBracket
  | dot | comma | semicolon | colon | question | tilde
  | directive
  | stringLiteral | dateLiteral | numberLiteral
  | identifier
  | lineComment | preprocessor | whitespace
  deriving DecidableEq, Repr, Inhabited

namespace Token.Kind

/-- The kinds other than keywords, in the order of their numbers. -/
def others : List Kind :=
  [plus, minus, multiply, divide, modulo, equal, notEqual, less, greater, lessEqual, greaterEqual,
    leftParen, rightParen, leftBracket, rightBracket, dot, comma, semicolon, colon, question,
    tilde, directive, stringLiteral, dateLiteral, numberLiteral, identifier, lineComment,
    preprocessor, whitespace]

/-- All kinds in the order of their numbers. -/
def all : List Kind := Keyword.all.map keyword ++ others

/-- The number of a kind: its place in `all`. -/
def code (kind : Kind) : Nat := all.idxOf kind

/-- The name of a kind in listings: the English word of a keyword, a descriptive name otherwise. -/
def name : Kind → String
  | keyword word => word.english
  | plus => "Plus"
  | minus => "Minus"
  | multiply => "Multiply"
  | divide => "Divide"
  | modulo => "Modulo"
  | equal => "Equal"
  | notEqual => "NotEqual"
  | less => "Less"
  | greater => "Greater"
  | lessEqual => "LessEqual"
  | greaterEqual => "GreaterEqual"
  | leftParen => "LeftParen"
  | rightParen => "RightParen"
  | leftBracket => "LeftBracket"
  | rightBracket => "RightBracket"
  | dot => "Dot"
  | comma => "Comma"
  | semicolon => "Semicolon"
  | colon => "Colon"
  | question => "Question"
  | tilde => "Tilde"
  | directive => "Annotation"
  | stringLiteral => "StringLiteral"
  | dateLiteral => "DateLiteral"
  | numberLiteral => "NumberLiteral"
  | identifier => "Identifier"
  | lineComment => "LineComment"
  | preprocessor => "Preprocessor"
  | whitespace => "Whitespace"

/-- The kind with a name, if it has one. -/
def ofName? (name : String) : Option Kind := all.find? (·.name == name)

/-- How a kind is called in messages: a keyword or sign is shown, a class is named. -/
def display : Kind → String
  | keyword word => word.display
  | plus => "+"
  | minus => "-"
  | multiply => "*"
  | divide => "/"
  | modulo => "%"
  | equal => "="
  | notEqual => "<>"
  | less => "<"
  | greater => ">"
  | lessEqual => "<="
  | greaterEqual => ">="
  | leftParen => "("
  | rightParen => ")"
  | leftBracket => "["
  | rightBracket => "]"
  | dot => "."
  | comma => ","
  | semicolon => ";"
  | colon => ":"
  | question => "?"
  | tilde => "~"
  | directive => "ANNOTATION"
  | stringLiteral => "STRING"
  | dateLiteral => "DATE"
  | numberLiteral => "NUMBER"
  | identifier => "IDENTIFIER"
  | lineComment => "COMMENT"
  | preprocessor => "PREPROCESSOR"
  | whitespace => "WHITESPACE"

/-- Whether tokens of the kind are reserved words. -/
def isKeyword : Kind → Bool
  | keyword _ => true
  | _ => false

/-- Whether a token of the kind may name a property or a method after a dot: identifiers may, and
after a dot so may the reserved words. -/
def isNameLike : Kind → Bool
  | keyword _ | identifier => true
  | _ => false

/-- Whether the kind is a comparison sign. The sign of equality counts, which is also the sign of
assignment. -/
def isComparison : Kind → Bool
  | equal | notEqual | less | greater | lessEqual | greaterEqual => true
  | _ => false

end Token.Kind

end BslLint
