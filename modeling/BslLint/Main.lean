import BslLint.Cli.Analyzer
import BslLint.Cli.SyntaxCheck
import Std.Time.DateTime.Timestamp

/-!
# The programs

Both programs are one file. Under the name of the syntax check it is that, and under any other name
it is the analyzer.
-/

namespace BslLint.Machine

/-- The number of an error, which some operations give with the opposite sign. -/
def errorNumber (n : UInt32) : Nat :=
  if n.toNat < Nat.pow 2 31 then n.toNat else Nat.pow 2 32 - n.toNat

/-- What the machine says about an error. -/
def fileError (e : IO.Error) : FileError :=
  let numbered (n : UInt32) (details : String) : FileError :=
    .system details.capitalize (errorNumber n)
  match e with
  | .alreadyExists _ n d | .invalidArgument _ n d | .permissionDenied _ n d
  | .resourceExhausted _ n d | .inappropriateType _ n d | .noSuchThing _ n d => numbered n d
  | .noFileOrDirectory _ n d | .interrupted _ n d => numbered n d
  | .otherError n d | .resourceBusy n d | .resourceVanished n d | .unsupportedOperation n d
  | .hardwareFault n d | .unsatisfiedConstraints n d | .illegalOperation n d | .protocolError n d
  | .timeExpired n d => numbered n d
  | .unexpectedEof => .notText
  | .userError s => .system s 0

/-- Does something with files. -/
def attempt {α : Type} (x : IO α) : IO (Except FileError α) := do
  try return .ok (← x) catch e => return .error (fileError e)

/-- What a path leads to, none if that is nothing. -/
def kindOf? (path : String) : IO (Option IO.FS.FileType) := do
  if path.isEmpty then return none
  else
    try return some (← ((← IO.currentDir) / path).metadata).type catch _ => return none

/-- The paths of all files below a directory. Links are not followed. -/
partial def filesBelow (path : String) : IO (List String) := do
  try
    let entries ← ((← IO.currentDir) / path).readDir
    let found ← entries.toList.mapM fun e ↦ do
      let below := Path.join path e.fileName
      match (← e.path.symlinkMetadata).type with
      | .dir => filesBelow below
      | .file => return [below]
      | _ => return []
    return found.flatten
  catch _ => return []

/-- The files and the clock of the machine. -/
def host : Cli.Host IO where
  isPresent path := return (← kindOf? path).isSome
  isDirectory path := do
    match ← kindOf? path with
    | some .dir => return true
    | _ => return false
  isFile path := do
    match ← kindOf? path with
    | some .file => return true
    | _ => return false
  read path := attempt do return (← IO.FS.readBinFile path).toList
  write path text := attempt (IO.FS.writeFile path text)
  makeDirectory path := attempt (IO.FS.createDirAll path)
  files := filesBelow
  milliseconds := IO.monoMsNow
  seconds := return (← Std.Time.Timestamp.now).toSecondsSinceUnixEpoch.val.toNat

end BslLint.Machine

/-- Runs the program that this file is called by. -/
def main (args : List String) : IO UInt32 := do
  let name := (← IO.appPath).fileName.getD ""
  let outcome ←
    if name.startsWith "syntaxcheck" then BslLint.Cli.SyntaxCheck.run BslLint.Machine.host args
    else BslLint.Cli.Analyzer.run BslLint.Machine.host args
  IO.print outcome.out
  IO.eprint outcome.err
  return outcome.exit.toUInt32
