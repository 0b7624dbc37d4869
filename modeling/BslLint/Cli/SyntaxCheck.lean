import BslLint.Cli.Arguments
import BslLint.Cli.Host
import BslLint.Data.Json.Basic
import BslLint.Grammar.Parse

/-!
# The syntax check as a program

The program lists the syntax errors of a file, or of all source files below a directory.
-/

namespace BslLint.Cli.SyntaxCheck

/-- How the program is called. -/
def usage : String :=
  "\n".intercalate [
    "Usage: syntaxcheck [-f human|json] [-s] [-q] <PATH>",
    "",
    "  -f, --format <FORMAT>  Формат вывода: human, json [default: human]",
    "  -s, --stats            Показать статистику",
    "  -q, --quiet            Тихий режим (только код возврата)",
    ""]

/-- How errors are listed. -/
inductive Format where
  /-- For people. -/
  | human
  /-- As data. -/
  | json
  deriving DecidableEq, Repr

/-- What the program is asked to do. -/
structure Request where
  /-- The file or directory. -/
  path : String
  /-- How errors are listed. -/
  format : Format
  /-- Whether errors are counted. -/
  withStats : Bool
  /-- Whether nothing is printed. -/
  isQuiet : Bool
  deriving Repr

/-- What the program takes. -/
def shape : Shape where
  switches := [
    { name := "format", letter := some 'f', accepts := some fun s ↦ s = "human" || s = "json" },
    { name := "stats", letter := some 's' },
    { name := "quiet", letter := some 'q' }]
  words := [fun s ↦ !s.isEmpty]

/-- What is asked for by some arguments. -/
def Request.read (args : List String) : Except Stop Request := do
  let a ← shape.read args
  match a.words.head? with
  | some path => return {
      path
      format := if a.value? "format" = some "json" then .json else .human
      withStats := a.has "stats"
      isQuiet := a.has "quiet" }
  | none => throw .invalid

/-! ### Listing errors -/

/-- Errors for people. -/
def humanLines (path : String) (errors : List SyntaxError) : String :=
  String.join (errors.map fun e ↦
    "error: " ++ e.message ++ "\n  --> " ++ path ++ ":" ++ e.span.start.render ++ "\n\n")

/-- Errors as data. -/
def dataLines (path : String) (errors : List SyntaxError) : String :=
  let item (e : SyntaxError) : Json := .obj [("column", .int e.span.start.column),
    ("line", .int e.span.start.line), ("message", .str e.message)]
  let all : Json := .obj [("diagnostics", .arr (errors.map item)), ("file", .str path),
    ("hasErrors", .bool !errors.isEmpty)]
  all.pretty (fun _ ↦ "") 0 ++ "\n"

/-- Errors of a file as they are asked for. -/
def Request.lines (r : Request) (path : String) (errors : List SyntaxError) : String :=
  if r.isQuiet then ""
  else match r.format with
    | .human => humanLines path errors
    | .json => dataLines path errors

/-! ### Counting errors -/

/-- How many files and errors there are. -/
structure Stats where
  /-- The files. -/
  files : Nat := 0
  /-- The files with errors. -/
  filesWithErrors : Nat := 0
  /-- The errors. -/
  errors : Nat := 0
  deriving DecidableEq, Repr

/-- Counts a file with a number of errors. -/
def Stats.add (s : Stats) (errors : Nat) : Stats :=
  ⟨s.files + 1, s.filesWithErrors + (if errors = 0 then 0 else 1), s.errors + errors⟩

/-- The counts for people. -/
def Stats.lines (s : Stats) : String :=
  "\n=== Статистика проверки ===\nПроверено файлов: " ++ toString s.files ++
    "\nФайлов с ошибками: " ++ toString s.filesWithErrors ++
    "\nВсего ошибок: " ++ toString s.errors ++ "\n"

/-! ### The program -/

variable {m : Type → Type} [Monad m] (host : Host m)

/-- The line about what ends the program. -/
def failureLine (message : String) : String := "Ошибка: " ++ message ++ "\n"

/-- The files that a path leads to, none if it leads nowhere. -/
def filesOf (path : String) : m (Option (List String)) := do
  if ← host.isFile path then return some [path]
  else if ← host.isDirectory path then return some (← host.sourceFiles path ["bsl", "os"])
  else return none

/-- Checks files one after the other. The answer has what is printed, the counts, and what went
wrong. -/
def check (r : Request) (stats : Stats) : List String → m (String × Stats × Option String)
  | [] => return ("", stats, none)
  | path :: paths => do
    match ← host.readSource path with
    | .error e => return ("", stats, some ("Failed to read file: " ++ path ++ ": " ++ e.message))
    | .ok text =>
      let errors := (Document.ofText text).errors
      let (out, stats, failed) ← check r (stats.add errors.length) paths
      return (r.lines path errors ++ out, stats, failed)

/-- Does what is asked for. -/
def Request.run (r : Request) : m Outcome := do
  match ← filesOf host r.path with
  | none =>
    return { exit := 2, err := failureLine (r.path ++ " не является файлом или директорией") }
  | some paths =>
    let (out, stats, failed) ← check host r {} paths
    match failed with
    | some reason => return { exit := 2, out, err := failureLine reason }
    | none => return {
        exit := if stats.filesWithErrors = 0 then 0 else 1
        out := out ++ if r.withStats && !r.isQuiet then stats.lines else "" }

/-- Runs the program with some arguments. -/
def run (args : List String) : m Outcome :=
  match Request.read args with
  | .ok request => request.run host
  | .error .help => return .printed usage
  | .error _ => return .misused usage

end BslLint.Cli.SyntaxCheck
