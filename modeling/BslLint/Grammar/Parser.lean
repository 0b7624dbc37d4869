import BslLint.Syntax.Arena

/-!
# Parsers that keep every token

A `Parser` reads tokens from the front of a list and never fails: it returns the trees that it has
made, the faults that it has met, and the tokens that are left. The type `Step` of this answer says
that the tokens of the trees and those left over are the tokens given, so **no parser loses, invents
or reorders a token**, whatever it is built from.

The trees are what a builder makes of the calls that the parser has for it: `one` adds the token
that it reads, `missing` notes an error, and `node` begins a node before and ends it after what is
in it. The calls are part of the answer as well, and its type says that they ask for these trees.

Parsers are put together one after the other with `++`. A parser may look at the tokens ahead
without reading them; the functions `peek` and `look` do that, and `select` and `when` choose by it.

Two combinators repeat. `many` runs a parser as long as a condition holds of what is left, and stops
should a round read nothing. `Parser.fix` lets a parser use itself; the depth to which it may do so
is the number of tokens, which is enough for every parser that uses itself only after reading one.
-/

namespace BslLint

/-- What a parser had hoped to find. -/
inductive Expectation where
  | token (kind : Token.Kind)
  | variableName
  | subName
  | parameterName
  | labelName
  | label
  | loopVariable
  | expression
  | constant
  | propertyName
  | statement
  deriving DecidableEq, Repr

/-- An expectation that was not met, and the token found in its stead, if there was one. -/
structure Fault where
  /-- What should have come. -/
  wanted : Expectation
  /-- The token that came, `none` at the end of the file. -/
  found : Option Token
  deriving DecidableEq, Repr

/-- What came of reading the front of a list of tokens. -/
structure Step (ts : List Token) where
  /-- The trees made, from left to right. -/
  trees : List Tree
  /-- The faults met, in the order in which they were met. -/
  faults : List Fault
  /-- What a builder was asked to do on the way. -/
  calls : List (TreeBuilder.Call Fault)
  /-- The tokens left. -/
  rest : List Token
  /-- Every token is in a tree or left. -/
  tokens_append_rest : Tree.tokensAll trees ++ rest = ts
  /-- The calls are those for the trees and the faults. -/
  makes : TreeBuilder.Makes calls trees faults

namespace Step

variable {ts : List Token}

/-- Nothing read yet. -/
def start (ts : List Token) : Step ts := ⟨[], [], [], ts, rfl, .nothing⟩

/-- Goes on with what is left. -/
def andThen (s : Step ts) (t : Step s.rest) : Step ts :=
  ⟨s.trees ++ t.trees, s.faults ++ t.faults, s.calls ++ t.calls, t.rest, by
    rw [Tree.tokensAll_append, List.append_assoc, t.tokens_append_rest, s.tokens_append_rest],
    s.makes.append t.makes⟩

/-- Puts all trees below one node. -/
def wrap (kind : NodeKind) (s : Step ts) : Step ts :=
  ⟨[.node kind s.trees], s.faults, .start kind :: (s.calls ++ [.finish]), s.rest, by
    simpa [Tree.tokensAll, Tree.tokens] using s.tokens_append_rest, s.makes.node kind⟩

theorem length_rest_le (s : Step ts) : s.rest.length ≤ ts.length := by
  have := congrArg List.length s.tokens_append_rest
  simp only [List.length_append] at this
  omega

end Step

/-- Reads tokens from the front of a list. -/
def Parser : Type := (ts : List Token) → Step ts

namespace Parser

/-! ### Looking ahead -/

/-- The kind of the token that is `n` tokens ahead. -/
def look (n : Nat) (ts : List Token) : Option Token.Kind := ts[n]?.map (·.kind)

/-- The kind of the next token. -/
def peek (ts : List Token) : Option Token.Kind := look 0 ts

/-- Whether the next token is of a kind. -/
def isAt (kind : Token.Kind) (ts : List Token) : Bool := peek ts == some kind

/-- Whether the next token is of one of some kinds. -/
def isAtAny (kinds : List Token.Kind) (ts : List Token) : Bool :=
  match peek ts with
  | some kind => kinds.contains kind
  | none => false

/-! ### Reading -/

/-- Reads nothing. -/
def nothing : Parser := Step.start

/-- Reads the next token, whatever it is; nothing at the end. -/
def one : Parser
  | [] => .start []
  | t :: ts => ⟨[.leaf t], [], [.token t], ts, rfl, .token t⟩

/-- Notes that something was missing, and reads nothing. -/
def missing (wanted : Expectation) : Parser := fun ts ↦
  let fault := ⟨wanted, ts.head?⟩
  ⟨[], [fault], [.error fault], ts, rfl, .error fault⟩

/-- One parser after the other. -/
def seq (p q : Parser) : Parser := fun ts ↦
  let s := p ts
  s.andThen (q s.rest)

instance : Append Parser := ⟨seq⟩

/-- Puts what a parser has read below a node. -/
def node (kind : NodeKind) (p : Parser) : Parser := fun ts ↦ (p ts).wrap kind

/-- A parser chosen by the kind of the next token. -/
def select (choice : Option Token.Kind → Parser) : Parser := fun ts ↦ choice (peek ts) ts

/-- One of two parsers, chosen by what is ahead. -/
def ifAhead (ahead : List Token → Bool) (p q : Parser) : Parser := fun ts ↦
  if ahead ts then p ts else q ts

/-- A parser that runs only if a condition holds of what is ahead. -/
def when (ahead : List Token → Bool) (p : Parser) : Parser := ifAhead ahead p nothing

/-- Reads the next token if it is of a kind. -/
def eat (kind : Token.Kind) : Parser := when (isAt kind) one

/-- Reads the next token, which has to be of a kind. -/
def expect (kind : Token.Kind) : Parser := ifAhead (isAt kind) one (missing (.token kind))

/-- Reads an identifier; a token that is none is left. -/
def expectName (wanted : Expectation) : Parser :=
  ifAhead (isAt .identifier) one (missing wanted)

/-- What `many` does from a given list of tokens on. -/
def manyFrom (ahead : List Token → Bool) (p : Parser) (ts : List Token) : Step ts :=
  if ahead ts then
    let s := p ts
    if s.rest.length < ts.length then s.andThen (manyFrom ahead p s.rest) else s
  else .start ts
termination_by ts.length

/-- Runs a parser again and again as long as a condition holds of what is ahead. A round that reads
nothing is the last. -/
def many (ahead : List Token → Bool) (p : Parser) : Parser := fun ts ↦ manyFrom ahead p ts

/-- Items with commas between them, at least one. -/
def commaSeparated (item : Parser) : Parser := item ++ many (isAt .comma) (one ++ item)

/-- A parser that may use itself `depth` levels deep. -/
def nested (p : Parser → Parser) : Nat → Parser
  | 0, ts => p nothing ts
  | depth + 1, ts => p (nested p depth) ts

/-- A parser that may use itself. -/
def fix (p : Parser → Parser) : Parser := fun ts ↦ nested p ts.length ts

end Parser

end BslLint
