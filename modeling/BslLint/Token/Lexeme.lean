import BslLint.Text.Number
import BslLint.Token.Spelling

/-!
# Lexemes

A text is cut into lexemes from its front: each is the longest piece of one of the forms of the
language, and where no form fits a piece of unknown text is set aside. `Lexeme.head` decides the
class of the piece that begins with a character and how many of the characters behind belong to it,
and `lexemes` repeats that to the end of the text. The first character always belongs to its piece,
so the remainder gets shorter.

Nothing is lost on the way: `flatMap_text_lexemes` says that the lexemes, written one after the
other, are the text.
-/

namespace BslLint

open Text (isDigit)

/-! ### Character classes -/

/-- Letters of identifiers: Russian and Latin letters and the underscore. -/
def isLetter (c : Char) : Bool :=
  ('А' ≤ c && c ≤ 'Я') || ('а' ≤ c && c ≤ 'я') || c == 'Ё' || c == 'ё' ||
    ('A' ≤ c && c ≤ 'Z') || ('a' ≤ c && c ≤ 'z') || c == '_'

/-- What may follow the first letter of an identifier. -/
def isNameChar (c : Char) : Bool := isLetter c || isDigit c

/-- White space between tokens: the space, the tab, the form feed and the two line ends. -/
def isBlank (c : Char) : Bool :=
  c == ' ' || c == '\t' || c == '\x0c' || c == '\r' || c == '\n'

/-- The characters that end a comment and a preprocessor line. -/
def isLineEnd (c : Char) : Bool := c == '\r' || c == '\n'

namespace Lexeme

/-- What a piece of text is. -/
inductive Class where
  /-- A token of the language. -/
  | token (kind : Token.Kind)
  /-- White space, a comment or a preprocessor line. -/
  | trivia
  /-- Text that no form of the language fits. -/
  | unknown
  deriving DecidableEq, Repr

/-! ### How far a piece reaches

Each function counts the characters behind the first one that belong to the piece. -/

/-- The characters of a string literal after its opening quote. A quote written twice stands for
itself; the literal ends with the first quote that is not. -/
def stringTail? : List Char → Option Nat
  | [] => none
  | '"' :: '"' :: rest => (stringTail? rest).map (· + 2)
  | '"' :: _ => some 1
  | _ :: rest => (stringTail? rest).map (· + 1)

/-- The characters of a fraction: a point with at least one digit behind it. -/
def fractionTail : List Char → Nat
  | '.' :: rest =>
    let digits := (rest.takeWhile isDigit).length
    if digits = 0 then 0 else digits + 1
  | _ => 0

/-- The characters of a number after its first digit. -/
def numberTail (rest : List Char) : Nat :=
  (rest.takeWhile isDigit).length + fractionTail (rest.dropWhile isDigit)

/-- A string literal, or everything up to the end of the text if its last quote is missing. -/
def stringHead (rest : List Char) : Class × Nat :=
  match stringTail? rest with
  | some n => (.token .stringLiteral, n)
  | none => (.unknown, rest.length)

/-- A date literal, or the rest of the line if its closing apostrophe is missing there. -/
def dateHead (rest : List Char) : Class × Nat :=
  let inside := (rest.takeWhile fun c ↦ c != '\'' && !isLineEnd c).length
  if (rest.drop inside).head? = some '\'' then (.token .dateLiteral, inside + 1)
  else (.unknown, inside)

/-- An annotation: an ampersand and a name. An ampersand alone is unknown. -/
def directiveHead (rest : List Char) : Class × Nat :=
  match rest with
  | c :: _ => if isLetter c then (.token .directive, (rest.takeWhile isNameChar).length)
    else (.unknown, 0)
  | [] => (.unknown, 0)

/-- The sign, one or two characters long, that begins with a character. -/
def signHead (c : Char) (rest : List Char) : Class × Nat :=
  match c, rest with
  | '<', '>' :: _ => (.token .notEqual, 1)
  | '<', '=' :: _ => (.token .lessEqual, 1)
  | '>', '=' :: _ => (.token .greaterEqual, 1)
  | '<', _ => (.token .less, 0)
  | '>', _ => (.token .greater, 0)
  | '+', _ => (.token .plus, 0)
  | '-', _ => (.token .minus, 0)
  | '*', _ => (.token .multiply, 0)
  | '/', _ => (.token .divide, 0)
  | '%', _ => (.token .modulo, 0)
  | '=', _ => (.token .equal, 0)
  | '(', _ => (.token .leftParen, 0)
  | ')', _ => (.token .rightParen, 0)
  | '[', _ => (.token .leftBracket, 0)
  | ']', _ => (.token .rightBracket, 0)
  | '.', _ => (.token .dot, 0)
  | ',', _ => (.token .comma, 0)
  | ';', _ => (.token .semicolon, 0)
  | ':', _ => (.token .colon, 0)
  | '?', _ => (.token .question, 0)
  | '~', _ => (.token .tilde, 0)
  | _, _ => (.unknown, 0)

/-- Everything that does not begin with a letter. -/
def otherHead (c : Char) (rest : List Char) : Class × Nat :=
  if isBlank c then (.trivia, (rest.takeWhile isBlank).length)
  else if c = '#' || (c = '/' && rest.head? = some '/') then
    (.trivia, (rest.takeWhile (!isLineEnd ·)).length)
  else if isDigit c then (.token .numberLiteral, numberTail rest)
  else if c = '"' then stringHead rest
  else if c = '\'' then dateHead rest
  else if c = '&' then directiveHead rest
  else signHead c rest

/-- The length of the identifier at the front of a text, zero if there is none. -/
def nameLength : List Char → Nat
  | [] => 0
  | c :: rest => if isLetter c then (rest.takeWhile isNameChar).length + 1 else 0

/-- The class of the piece that begins with a character and the number of characters behind it that
belong to it. Of a reserved word and an identifier the longer wins, and the word if they are equally
long. -/
def head (c : Char) (rest : List Char) : Class × Nat :=
  let run := nameLength (c :: rest)
  match Keyword.longest? (c :: rest) with
  | some (word, n) =>
    if run ≤ n then (.token (.keyword word), n - 1) else (.token .identifier, run - 1)
  | none => if run = 0 then otherHead c rest else (.token .identifier, run - 1)

end Lexeme

/-- A piece of text and what it is. -/
structure Lexeme where
  /-- What the piece is. -/
  kind : Lexeme.Class
  /-- The piece itself. -/
  text : List Char
  deriving DecidableEq, Repr

/-- The pieces of a text from its front to its end. -/
def lexemes : List Char → List Lexeme
  | [] => []
  | c :: rest =>
    let (kind, n) := Lexeme.head c rest
    ⟨kind, c :: rest.take n⟩ :: lexemes (rest.drop n)
termination_by text => text.length
decreasing_by simp only [List.length_cons, List.length_drop]; omega

theorem lexemes_cons (c : Char) (rest : List Char) :
    lexemes (c :: rest) =
      ⟨(Lexeme.head c rest).1, c :: rest.take (Lexeme.head c rest).2⟩ ::
        lexemes (rest.drop (Lexeme.head c rest).2) := by
  rw [lexemes]

/-- The lexemes of a text, written one after the other, are the text. -/
theorem flatMap_text_lexemes (text : List Char) : (lexemes text).flatMap (·.text) = text := by
  fun_induction lexemes text with
  | case1 => rfl
  | case2 c rest kind n h ih => simp [List.flatMap_cons, ih]

end BslLint
