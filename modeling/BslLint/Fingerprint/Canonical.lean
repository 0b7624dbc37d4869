import BslLint.Data.Json.Basic
import BslLint.Syntax.Tree

/-!
# The canonical form of a tree

A tree is written as JSON without any white space: an inner node is an object whose only member is
named for the kind of the node and lists its children, and a token is an object with the code of its
kind and its text. No position goes into it, so a tree keeps its form wherever it is moved to and
whatever stands between its tokens.
-/

namespace BslLint

namespace Token

/-- The canonical form of a token. -/
def canonical (t : Token) : String :=
  "\x7b\"type\":" ++ toString t.kind.code ++ ",\"text\":" ++ Json.quote t.text ++ "\x7d"

end Token

namespace Tree

mutual

/-- The canonical form of a tree. -/
def canonical : Tree → String
  | leaf t => t.canonical
  | node k cs => "\x7b\"" ++ k.name ++ "\":[" ++ canonicalList cs ++ "]\x7d"

/-- The canonical forms of trees with commas between them. -/
def canonicalList : List Tree → String
  | [] => ""
  | [c] => canonical c
  | c :: cs => canonical c ++ "," ++ canonicalList cs

end

end Tree

end BslLint
