import BslLint.File.System

/-!
# What a program runs on

A program sees files and a clock. It gives back what is to be printed and the number that it ends
with.
-/

namespace BslLint.Cli

/-- The files and the clock that a program sees. -/
structure Host (m : Type → Type) extends FileSystem m where
  /-- Milliseconds since some moment. -/
  milliseconds : m Nat
  /-- Seconds since the beginning of 1970. -/
  seconds : m Nat

/-- What a program ends with. -/
structure Outcome where
  /-- The number that tells how it went. -/
  exit : Nat := 0
  /-- What is printed. -/
  out : String := ""
  /-- What is printed about errors. -/
  err : String := ""
  deriving DecidableEq, Repr

namespace Outcome

/-- Ends a program that was asked for something to read. -/
def printed (text : String) : Outcome := { out := text }

/-- Ends a program whose arguments are wrong. -/
def misused (usage : String) : Outcome :=
  { exit := 2, err := "error: invalid arguments\n\n" ++ usage }

end Outcome

/-- The line about something that went well. -/
def successLine (message : String) : String := "✅ " ++ message ++ "\n"

/-- The line about something to be looked at. -/
def warningLine (message : String) : String := "⚠️ " ++ message ++ "\n"

/-- The line about something that went wrong. -/
def errorLine (message : String) : String := "❌ " ++ message ++ "\n"

/-- The directory of a path is made if there is none. The answer says what went wrong. -/
def makeParent {m : Type → Type} [Monad m] (host : Host m) (path : String) : m (Option String) := do
  match Path.parent? path with
  | none => return none
  | some parent =>
    if ← host.isPresent parent then return none
    else match ← host.makeDirectory parent with
      | .ok () => return none
      | .error e => return some ("Failed to create directory: " ++ parent ++ ": " ++ e.message)

end BslLint.Cli
