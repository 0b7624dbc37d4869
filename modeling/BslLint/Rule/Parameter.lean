import BslLint.Data.KeyMap
import BslLint.Data.Toml.Writer
import BslLint.Text.Blank
import BslLint.Text.Number

/-!
# Parameters of rules

A configuration gives parameters as values of any type. A rule that wants a number takes an integer,
or a string that is one once the white space around it is gone. A size must not be negative either.
-/

namespace BslLint

/-- The parameters given to a rule, by their names. -/
abbrev Parameters := KeyMap Toml

/-- Why a parameter cannot be used. -/
inductive ParameterError where
  /-- The value is no integer. -/
  | notInteger (name : String) (value : Toml)
  /-- The value is less than zero. -/
  | negative (name : String) (value : Int)
  deriving Repr

/-- What is said about a parameter that cannot be used. -/
def ParameterError.message : ParameterError → String
  | notInteger name value =>
    "Parameter '" ++ name ++ "' must be an integer, got " ++ value.inline
  | negative name value =>
    "Parameter '" ++ name ++ "' must not be negative, got " ++ toString value

/-- The integer that a value stands for. -/
def Toml.asInteger? : Toml → Option Int
  | .int n => some n
  | .str s => Text.integer? (Text.trim s.toList)
  | _ => none

namespace Parameters

variable (ps : Parameters) (name : String)

/-- The integer given under a name, none if nothing is given. -/
def integer? : Except ParameterError (Option Int) :=
  match ps.find? name with
  | none => .ok none
  | some value =>
    match value.asInteger? with
    | some n => .ok (some n)
    | none => .error (.notInteger name value)

/-- The size given under a name, none if nothing is given. -/
def size? : Except ParameterError (Option Nat) := do
  match ← ps.integer? name with
  | none => return none
  | some n => if n < 0 then throw (.negative name n) else return some n.toNat

end Parameters

end BslLint
