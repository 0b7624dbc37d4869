/-!
# YAML values

The values of the YAML format. A scalar keeps its text; whether it is a number, a truth value or
nothing at all is decided by whoever reads it, and only where it is plain, that is, written without
quotes. The members of a mapping keep their order, and a key may be any value.
-/

namespace BslLint

/-- A YAML value. -/
inductive Yaml where
  | scalar (plain : Bool) (tag : Option String) (text : String)
  | sequence (tag : Option String) (items : List Yaml)
  | mapping (tag : Option String) (members : List (Yaml × Yaml))
  deriving Repr, Inhabited

namespace Yaml

/-- What stands where nothing is written. -/
def empty : Yaml := scalar true none ""

/-- Gives a tag to a value. -/
def withTag (tag : Option String) : Yaml → Yaml
  | scalar plain _ text => scalar plain tag text
  | sequence _ items => sequence tag items
  | mapping _ members => mapping tag members

end Yaml

end BslLint
