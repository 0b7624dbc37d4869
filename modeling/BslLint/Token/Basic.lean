import BslLint.Text.Position
import BslLint.Token.Lexeme

/-!
# Tokens

`Scan.ofText` turns a text into its tokens and the pieces that are none. The work is done in two
steps that do not know of each other: `lexemes` cuts the text without a thought for positions, and
`Scan.place` walks over the pieces and notes where each one stands. A piece of trivia only moves the
position.

A lexer that gives no trivia, but the bytes between which each other piece stands, leaves it to its
reader to catch up with the position. `Scan.catchUp` is this reader. The two come to the same
(`Scan.catchUp_cuts` in `BslLint.Proofs.Token.Places`).
-/

namespace BslLint

/-- A token: its kind, its text, and where it stands. -/
structure Token where
  /-- What the token is. -/
  kind : Token.Kind
  /-- The text of the token. -/
  text : String
  /-- Where the token begins. -/
  start : Position
  /-- Where the token has ended. -/
  stop : Position
  deriving DecidableEq, Repr, Inhabited

/-- The stretch of text that a token takes up. -/
def Token.span (t : Token) : Span := ⟨t.start, t.stop⟩

/-- The bytes that a token takes up, in 32-bit words. -/
def Token.packedSpan (t : Token) : PackedSpan :=
  ⟨t.start.offset.toUInt32, (t.stop.offset - t.start.offset).toUInt32⟩

/-- A piece of text that is no token. -/
structure UnknownText where
  /-- Where the piece begins. -/
  position : Position
  /-- The piece itself. -/
  text : String
  deriving DecidableEq, Repr

/-- The tokens of a text and the unknown pieces between them, each in the order of the text. -/
structure Scan where
  /-- The tokens. -/
  tokens : List Token
  /-- The pieces that are no tokens. -/
  unknown : List UnknownText
  deriving DecidableEq, Repr

namespace Scan

/-- Gives each lexeme its place; the first of them begins at `p`. -/
def place (p : Position) : List Lexeme → Scan
  | [] => ⟨[], []⟩
  | lexeme :: rest =>
    let stop := p.advance lexeme.text
    let scan := place stop rest
    match lexeme.kind with
    | .token kind =>
      { scan with tokens := ⟨kind, String.ofList lexeme.text, p, stop⟩ :: scan.tokens }
    | .trivia => scan
    | .unknown => { scan with unknown := ⟨p, String.ofList lexeme.text⟩ :: scan.unknown }

/-- The tokens of a text and what is left of it besides trivia. -/
def ofText (text : String) : Scan := place .start (lexemes text.toList)

/-! ### Without trivia -/

/-- A piece of a text that is no trivia, by the bytes before it and before its end. -/
structure Cut where
  /-- The kind of token that it is, `none` if it is unknown. -/
  kind? : Option Token.Kind
  /-- The bytes before it. -/
  first : Nat
  /-- The bytes before its end. -/
  stop : Nat

/-- The lexemes that are no trivia, where the first lexeme has `offset` bytes before it. -/
def cuts (offset : Nat) : List Lexeme → List Cut
  | [] => []
  | lexeme :: rest =>
    let stop := offset + (String.ofList lexeme.text).utf8ByteSize
    match lexeme.kind with
    | .token kind => ⟨some kind, offset, stop⟩ :: cuts stop rest
    | .trivia => cuts stop rest
    | .unknown => ⟨none, offset, stop⟩ :: cuts stop rest

/-- Gives each cut its place, where `consumed` bytes of the text have been read up to the place
`cursor`. What was left out in front of a cut is caught up with first. -/
def catchUp (text : String) (consumed : Nat) (cursor : Position) : List Cut → Scan
  | [] => ⟨[], []⟩
  | cut :: rest =>
    let start := cursor.advance (String.Pos.Raw.extract text ⟨consumed⟩ ⟨cut.first⟩).toList
    let slice := String.Pos.Raw.extract text ⟨cut.first⟩ ⟨cut.stop⟩
    let stop := start.advance slice.toList
    let scan := catchUp text cut.stop stop rest
    match cut.kind? with
    | some kind => { scan with tokens := ⟨kind, slice, start, stop⟩ :: scan.tokens }
    | none => { scan with unknown := ⟨start, slice⟩ :: scan.unknown }

end Scan

end BslLint
