import BslLint.Pass.Basic
import BslLint.Rule.Info
import BslLint.Token.Spelling

/-!
# The rule about structures made with many values

The constructor of a structure takes the names of its properties in one string, and then their
values. A call with more values than a limit allows is found.
-/

namespace BslLint.StructureValues

/-- The greatest number of values. -/
def limit : RuleParameter where
  name := "maxValuesCount"
  description := "Allowed number of values passed to the constructor"
  default := 3

/-- What is known about the rule. -/
def info : RuleInfo where
  code := "NumberOfValuesInStructureConstructor"
  name := "Limit on the number of property values passed to the structure constructor"
  type := .codeSmell
  criticality := .minor
  minutes := 10
  tags := [.standard, .brainOverload]
  parameters := [limit]

/-- The names of the types that are structures, in small letters. -/
def typeNames : List String :=
  ["структура", "structure", "фиксированнаяструктура", "fixedstructure"]

/-- Whether a name is that of a structure, no matter which of its letters are capitals. -/
def isStructure (name : String) : Bool :=
  typeNames.contains (String.ofList (name.toList.map Keyword.foldCase))

/-- The number of arguments of a constructor. -/
def argumentCount (n : Node) : Nat :=
  (do
    let call ← n.childOfKind? .doCall
    let list ← call.childOfKind? .callParamList
    return (list.childrenOfKind .callParam).length).getD 0

/-- What is said about a constructor. -/
def message (max : Nat) : String :=
  "Pass no more than " ++ toString max ++
    " values to the structure constructor, use Insert() for the rest"

/-- What is found where an object is made. -/
def check (max : Nat) (d : Document) (n : Node) : List Finding :=
  match n.childOfKind? .typeName with
  | none => []
  | some type =>
    if isStructure (d.text type) && max + 1 < argumentCount n then [.atNode d n (message max)]
    else []

/-- The pass of the rule. -/
def pass (max : Nat) : Pass Unit where
  code := info.code
  kinds := [.newExpression]
  initial := ()
  visit d n s := .found s (check max d n)

end BslLint.StructureValues
