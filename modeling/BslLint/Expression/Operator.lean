import BslLint.Token.Kind

/-!
# Operators

The operators of expressions, with how tightly they bind and to which side they group. Access to a
property and access by index count as operators of two operands and bind tightest.

The logical operators group to the right, so that a row of one of them is a chain whose links lie on
the right-hand side; all others group to the left.
-/

namespace BslLint

/-- What is done to operands. -/
inductive Operator where
  | add | subtract | multiply | divide | modulo
  | equal | notEqual | less | lessOrEqual | greater | greaterOrEqual
  | and | or | not
  | unaryPlus | unaryMinus
  | dereference | indexAccess
  deriving DecidableEq, Repr, Inhabited

namespace Operator

/-- The operator that a token stands for between two operands. -/
def binary? : Token.Kind → Option Operator
  | .plus => some add
  | .minus => some subtract
  | .multiply => some multiply
  | .divide => some divide
  | .modulo => some modulo
  | .equal => some equal
  | .notEqual => some notEqual
  | .less => some less
  | .lessEqual => some lessOrEqual
  | .greater => some greater
  | .greaterEqual => some greaterOrEqual
  | .keyword .and_ => some and
  | .keyword .or_ => some or
  | _ => none

/-- The operator that a token stands for in front of an operand. -/
def unary? : Token.Kind → Option Operator
  | .keyword .not_ => some not
  | .plus => some unaryPlus
  | .minus => some unaryMinus
  | _ => none

/-- How tightly the operator binds; a larger number binds tighter. -/
def priority : Operator → Nat
  | or => 1
  | and => 2
  | not => 3
  | equal | notEqual | less | lessOrEqual | greater | greaterOrEqual => 4
  | add | subtract => 5
  | multiply | divide | modulo => 6
  | unaryPlus | unaryMinus => 7
  | dereference | indexAccess => 8

/-- Whether a row of the operator groups to the right. -/
def isRightAssociative : Operator → Bool
  | and | or => true
  | _ => false

/-- Whether the operator has a single operand. -/
def isUnary : Operator → Bool
  | not | unaryPlus | unaryMinus => true
  | _ => false

/-- Whether the operator joins truth values. -/
def isLogical : Operator → Bool
  | and | or => true
  | _ => false

/-- How the operator is written. -/
def symbol : Operator → String
  | add | unaryPlus => "+"
  | subtract | unaryMinus => "-"
  | multiply => "*"
  | divide => "/"
  | modulo => "%"
  | equal => "="
  | notEqual => "<>"
  | less => "<"
  | lessOrEqual => "<="
  | greater => ">"
  | greaterOrEqual => ">="
  | and => "И"
  | or => "Или"
  | not => "Не"
  | dereference => "."
  | indexAccess => "[]"

/-- The name of the operator in listings. -/
def name : Operator → String
  | add => "ADD"
  | subtract => "SUBTRACT"
  | multiply => "MULTIPLY"
  | divide => "DIVIDE"
  | modulo => "MODULO"
  | equal => "EQUAL"
  | notEqual => "NOT_EQUAL"
  | less => "LESS"
  | lessOrEqual => "LESS_OR_EQUAL"
  | greater => "GREATER"
  | greaterOrEqual => "GREATER_OR_EQUAL"
  | and => "AND"
  | or => "OR"
  | not => "NOT"
  | unaryPlus => "UNARY_PLUS"
  | unaryMinus => "UNARY_MINUS"
  | dereference => "DEREFERENCE"
  | indexAccess => "INDEX_ACCESS"

end Operator

end BslLint
