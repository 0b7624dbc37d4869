import BslLint.Text.Blank

/-!
# Paths

A path is a text with slashes. Its parts are what stands between them; empty parts and single dots
do not count, but for a dot at the very front. Two dots are a part like any other and are not taken
together with the part before them.

What is left of a path below another one keeps its spelling, needless slashes and dots inside of it
included.
-/

namespace BslLint.Path

/-- A part of a path. -/
inductive Part where
  /-- The root of all directories. -/
  | root
  /-- The directory that one is in. -/
  | here
  /-- One directory up. -/
  | up
  /-- Something with a name. -/
  | name (s : String)
  deriving DecidableEq, Repr

/-- The pieces of a path between its slashes. -/
def pieces (path : String) : List String := path.splitOn "/"

/-- The part that a piece after the first one stands for. -/
def part? (piece : String) : Option Part :=
  if piece = "" || piece = "." then none
  else if piece = ".." then some .up
  else some (.name piece)

/-- The part that the first of several pieces stands for. An empty one comes before a slash. -/
def firstPart? (piece : String) (isOnly : Bool) : Option Part :=
  if piece = "" then (if isOnly then none else some .root)
  else if piece = "." then some .here
  else part? piece

/-- The pieces of a path with the parts that they stand for. -/
def marked (path : String) : List (String × Option Part) :=
  match pieces path with
  | [] => []
  | first :: rest => (first, firstPart? first rest.isEmpty) :: rest.map fun p ↦ (p, part? p)

/-- The parts of a path. -/
def parts (path : String) : List Part := (marked path).filterMap (·.2)

/-- The name of what a path leads to. -/
def fileName? (path : String) : Option String :=
  match (parts path).getLast? with
  | some (.name s) => some s
  | _ => none

/-- What follows the last dot of a name that has something before that dot. -/
def extensionOf? (name : String) : Option String :=
  let (after, before) := name.toList.reverse.span (· != '.')
  match before with
  | [] | [_] => none
  | _ => some (String.ofList after.reverse)

/-- The extension of what a path leads to. -/
def extension? (path : String) : Option String := do extensionOf? (← fileName? path)

/-- Whether the extension of a path is a given one, no matter which of its letters are capitals. -/
def hasExtension (path ext : String) : Bool :=
  match extension? path with
  | some e => Text.lowerAscii e == Text.lowerAscii ext
  | none => false

/-- A path as seen from another one. -/
def join (base path : String) : String :=
  if path.toList.head? = some '/' then path
  else if base.isEmpty || base.toList.getLast? = some '/' then base ++ path
  else base ++ "/" ++ path

/-- The directory that a path leads into, none if the path has no parts or ends at the root. -/
def parent? (path : String) : Option String :=
  let kept := (marked path).reverse.dropWhile (·.2.isNone)
  match kept with
  | [] | (_, some .root) :: _ => none
  | _ :: before =>
    let before := before.dropWhile (·.2.isNone)
    match before with
    | [(_, some .root)] => some "/"
    | before => some ("/".intercalate (before.reverse.map (·.1)))

/-- Takes the parts of a base off the front of a path. -/
def dropParts? : List Part → List (String × Option Part) → Option (List (String × Option Part))
  | [], ps => some ps
  | _ :: _, [] => none
  | q :: qs, (_, none) :: ps => dropParts? (q :: qs) ps
  | q :: qs, (_, some p) :: ps => if p = q then dropParts? qs ps else none

/-- What is left of a path below a base, none if the path does not begin with the base. -/
def below? (base path : String) : Option String := do
  let rest ← dropParts? (parts base) (marked path)
  let trimmed := ((rest.dropWhile (·.2.isNone)).reverse.dropWhile (·.2.isNone)).reverse
  return "/".intercalate (trimmed.map (·.1))

/-! ### Order -/

/-- Places the sorts of parts in order. -/
def Part.rank : Part → Nat
  | root => 0
  | here => 1
  | up => 2
  | name _ => 3

/-- Whether a part comes before another one. -/
def Part.lt : Part → Part → Bool
  | name s, name t => s < t
  | p, q => p.rank < q.rank

/-- Whether parts come no later than others, compared one by one. -/
def partsLe : List Part → List Part → Bool
  | [], _ => true
  | _ :: _, [] => false
  | p :: ps, q :: qs => p.lt q || (p == q && partsLe ps qs)

/-- Whether a path comes no later than another one. -/
def le (a b : String) : Bool := partsLe (parts a) (parts b)

end BslLint.Path
