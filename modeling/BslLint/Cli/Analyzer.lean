import BslLint.Cli.Arguments
import BslLint.Cli.Host
import BslLint.Config.Format
import BslLint.Config.ToToml
import BslLint.Engine.Batch
import BslLint.Report.Data
import BslLint.Report.Format
import BslLint.Report.Text
import BslLint.Text.Date

/-!
# The analyzer as a program

The program has three commands. One analyzes the files of a project and reports what is found, one
lists the blocks of a file with their fingerprints, and one writes an example of a configuration.
-/

namespace BslLint.Cli.Analyzer

/-- The name of the program. -/
def programName : String := "bsl-analyzer"

/-- The version of the program. -/
def version : String := "0.3.0"

/-- How the program is called. -/
def usage : String :=
  "\n".intercalate [
    "Usage: bsl-analyzer [-v] <COMMAND>",
    "",
    "Commands:",
    "  analyze      Analyze a source tree",
    "  fingerprint  Print fingerprints of the code blocks of one file",
    "  init-config  Write an example rules configuration",
    "  help         Print this message",
    "",
    "Options of analyze:",
    "  -w, --workspace-dir <DIR>  Project directory [default: .]",
    "  -s, --src-dir <DIR>        Source directory, seen from the project [default: src]",
    "  -o, --output-dir <DIR>     Directory of file reports [default: .]",
    "  -c, --config <FILE>        Rules configuration (toml, yaml, json)",
    "  -r, --reporter <KEYS>      Reports: console, json [default: console]",
    "  -q, --silent               Print nothing but reports",
    "      --fingerprint, --1C    Group findings by code blocks",
    "      --logs                 Report files that fail",
    "      --templates            Analyze templates too",
    "      --fail-fast            Stop after the first file that fails",
    "  -j, --workers <N>          Number of workers",
    "",
    "Options of fingerprint:",
    "      --canonical            Print canonical forms too",
    ""]

/-! ### Arguments -/

/-- Whether a text can be a path. -/
def isPath (s : String) : Bool := !s.isEmpty

/-- The number that a text of digits stands for, with or without a plus sign in front. -/
def count? (s : String) : Option Nat :=
  let n := match s.toList with
    | '+' :: ds => Text.natural? ds
    | ds => Text.natural? ds
  n.filter (· < Nat.pow 2 64)

/-- The switch that every command has. -/
def verbose : Switch := { name := "verbose", letter := some 'v' }

/-- What stands in front of a command. -/
def shape : Shape where
  switches := [verbose]
  words := [fun _ ↦ true]
  hasVersion := true
  stopsAtWord := true

/-- What an analysis takes. -/
def analyzeShape : Shape where
  switches := [
    { name := "workspace-dir", letter := some 'w', accepts := some isPath },
    { name := "src-dir", letter := some 's', accepts := some fun _ ↦ true },
    { name := "output-dir", letter := some 'o', accepts := some isPath },
    { name := "config", letter := some 'c', accepts := some isPath },
    { name := "reporter", letter := some 'r', accepts := some fun _ ↦ true, isRepeatable := true },
    { name := "silent", letter := some 'q' },
    { name := "fingerprint", aliases := ["1C"] },
    { name := "logs" },
    { name := "templates" },
    { name := "fail-fast" },
    { name := "workers", letter := some 'j', accepts := some fun s ↦ (count? s).isSome },
    verbose]

/-- What a listing of fingerprints takes. -/
def fingerprintShape : Shape where
  switches := [{ name := "canonical" }, verbose]
  words := [isPath]

/-- What the writing of an example takes. -/
def exampleShape : Shape where
  switches := [verbose]
  words := [isPath]

/-- What an analysis is asked to do. -/
structure Request where
  /-- What the batch is started with. -/
  options : Options
  /-- The path of the configuration. -/
  config : Option String
  /-- The keys of the reports. -/
  reporters : List String
  /-- The directory of reports in files. -/
  output : String
  /-- Whether nothing but reports is printed. -/
  isSilent : Bool
  deriving Repr

/-- What the program is asked to do. -/
inductive Command where
  /-- To analyze the files of a project. -/
  | analyze (request : Request)
  /-- To list the blocks of a file, with or without their canonical forms. -/
  | fingerprint (path : String) (withForms : Bool)
  /-- To write an example of a configuration. -/
  | writeExample (path : String)
  deriving Repr

/-- The analysis that is asked for by some arguments. -/
def Request.ofArguments (a : Arguments) : Request where
  options := {
    workspace := (a.value? "workspace-dir").getD "."
    source := (a.value? "src-dir").getD "src"
    workers := (a.value? "workers").bind count?
    failFast := a.has "fail-fast"
    templates := a.has "templates"
    fingerprint := a.has "fingerprint" }
  config := a.value? "config"
  reporters :=
    if a.has "reporter" then (a.values "reporter").flatMap (·.splitOn ",") else ["console"]
  output := (a.value? "output-dir").getD "."
  isSilent := a.has "silent"

/-- The command that is asked for by some arguments. -/
def Command.read (args : List String) : Except Stop Command := do
  let a ← shape.read args
  match a.words.head? with
  | some "analyze" => return .analyze (.ofArguments (← analyzeShape.read a.rest))
  | some "fingerprint" =>
    let a ← fingerprintShape.read a.rest
    match a.words.head? with
    | some path => return .fingerprint path (a.has "canonical")
    | none => throw .invalid
  | some "init-config" =>
    let a ← exampleShape.read a.rest
    return .writeExample (a.words.head?.getD "bsl-rules.toml")
  | some "help" =>
    match a.rest with
    | [] | ["analyze"] | ["fingerprint"] | ["init-config"] | ["help"] => throw .help
    | _ => throw .invalid
  | _ => throw .invalid

/-! ### Analysis -/

variable {m : Type → Type} [Monad m] (host : Host m)

/-- The lines in front of a report. -/
def header : String :=
  "🔧 BSL Analyzer - " ++ version ++ "\nRedundant expressions and block fingerprints\n\n"

/-- The configuration in a file. -/
def readConfig (path : String) : m (Except Failure Config) := do
  match ← host.readText path with
  | .error e =>
    return .error (.config ("Failed to read rules config from " ++ path ++ ": " ++ e.message))
  | .ok text =>
    let format := ConfigFormat.ofPath path
    match Config.read? format text with
    | some c => return .ok c
    | none =>
      return .error
        (.config ("Failed to parse rules config from " ++ path ++ ": " ++ format.invalid))

/-- The configuration that is asked for. -/
def configOf (path : Option String) : m (Except Failure Config) :=
  match path with
  | some path => readConfig host path
  | none => return .ok .standard

/-- The name of the file of a report as data. -/
def dataFileName : String := "bsl-json.json"

/-- Writes a report as data. The answer says what went wrong. -/
def writeData (output : String) (b : BatchResult) : m (Option String) := do
  let path := Path.join output dataFileName
  match ← makeParent host path with
  | some reason => return some reason
  | none =>
    match ← host.write path (Report.data (Text.date (← host.seconds)) b) with
    | .ok () => return none
    | .error e => return some ("Failed to write report to " ++ path ++ ": " ++ e.message)

/-- Reports a batch in some forms, one after the other. The answer has what is printed, and what
went wrong. -/
def report (output : String) (b : BatchResult) : List ReportFormat → m (String × Option String)
  | [] => return ("", none)
  | .console :: formats => do
    let (out, failed) ← report output b formats
    return (Report.text false false b ++ out, failed)
  | .json :: formats => do
    match ← writeData host output b with
    | some reason => return ("", some reason)
    | none => report output b formats

/-- The engine and the forms of reports that are asked for, or why there are none. -/
def Request.prepare (r : Request) : m (Except Failure (Engine × List ReportFormat)) := do
  match ReportFormat.ofKeys r.reporters with
  | .error failure => return .error failure
  | .ok formats =>
    match ← configOf host r.config with
    | .error failure => return .error failure
    | .ok config =>
      match Engine.new r.options config with
      | .error failure => return .error failure
      | .ok engine =>
        return (← engine.sourceDirectory host.toFileSystem).map fun _ ↦ (engine, formats)

/-- Analyzes the files of a project. -/
def analyze (r : Request) : m Outcome := do
  let start ← host.milliseconds
  match ← r.prepare host with
  | .error failure => return { exit := 1, err := errorLine failure.message }
  | .ok (engine, formats) =>
    let front := if r.isSilent then "" else header
    match ← engine.run host.toFileSystem with
    | .error failure => return { exit := 1, out := front, err := errorLine failure.message }
    | .ok b =>
      let (out, failed) ← report host r.output b formats
      match failed with
      | some reason => return { exit := 1, out := front ++ out, err := errorLine reason }
      | none =>
        let stop ← host.milliseconds
        let last := successLine ("Analyzed " ++ toString b.files.length ++ " files in " ++
          Text.duration (stop - start))
        return { out := front ++ out ++ if r.isSilent then "" else last }

/-! ### Fingerprints -/

/-- The lines of a block, with or without its canonical form. -/
def blockLines (withForms : Bool) (b : Block) : String :=
  b.fingerprint ++ " " ++ b.node.kind.name ++ " lines " ++ toString b.firstLine ++ "-" ++
    toString b.lastLine ++ "\n" ++ if withForms then b.node.tree.canonical ++ "\n" else ""

/-- Lists the blocks of a file. -/
def fingerprint (path : String) (withForms : Bool) : m Outcome := do
  if !(← host.isPresent path) then
    return { exit := 1, err := errorLine ("File does not exist: " ++ path) }
  else match ← host.readSource path with
    | .error e => return {
        exit := 1
        err := errorLine ("Failed to parse " ++ path ++ ": Failed to read file: " ++ path ++ ": " ++
          e.message) }
    | .ok text =>
      let d := Document.ofText text
      return {
        out := String.join (d.errors.map fun e ↦
            warningLine (e.span.start.render ++ ": " ++ e.message)) ++
          String.join (d.blocks.map (blockLines withForms)) }

/-! ### The example of a configuration -/

/-- Writes the standard configuration, which can always be saved. -/
def writeExample (path : String) : m Outcome := do
  if ← host.isPresent path then
    return { exit := 1, err := errorLine (path ++ " already exists") }
  else match ← host.write path (Config.standard.save?.getD "") with
    | .ok () => return { out := successLine ("Example configuration written to " ++ path) }
    | .error e => return {
        exit := 1
        err := errorLine ("Failed to write rules config to " ++ path ++ ": " ++ e.message) }

/-! ### The program -/

/-- Does what is asked for. -/
def Command.run : Command → m Outcome
  | .analyze request => Analyzer.analyze host request
  | .fingerprint path withForms => Analyzer.fingerprint host path withForms
  | .writeExample path => Analyzer.writeExample host path

/-- Runs the program with some arguments. -/
def run (args : List String) : m Outcome :=
  match Command.read args with
  | .ok command => command.run host
  | .error .help => return .printed usage
  | .error .version => return .printed (programName ++ " " ++ version ++ "\n")
  | .error .invalid => return .misused usage

end BslLint.Cli.Analyzer
