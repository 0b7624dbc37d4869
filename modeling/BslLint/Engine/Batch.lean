import BslLint.Engine.Failure
import BslLint.Engine.Options
import BslLint.Engine.Pool
import BslLint.Engine.Result
import BslLint.File.System
import BslLint.Grammar.Parse

/-!
# Analysis of files

An `Engine` holds what is the same for all files of a batch. `Engine.analyze` is about one text, and
`Engine.run` about all files below a directory.

A text in a file for plain texts is not analyzed, but for templates. The first line of a template is
no code, so the first syntax error that is found in one does not count.
-/

namespace BslLint

/-- What is the same for all files of a batch. -/
structure Engine where
  /-- The options, together with what the configuration says. -/
  options : Options
  /-- The configuration. -/
  config : Config
  /-- The rules that are run. -/
  runner : Runner Unit

namespace Engine

/-- An engine with some options and a configuration, if that can be used. -/
def new (options : Options) (config : Config) : Except Failure Engine :=
  match config.runner? with
  | .ok runner => .ok ⟨options.withConfig config, config, runner⟩
  | .error e => .error (.config e.message)

variable (e : Engine)

/-! ### A text -/

/-- The name of files that are templates. -/
def templateName : String := "Template.txt"

/-- Takes the first syntax error away. -/
def withoutFirstError (ds : List Diagnostic) : List Diagnostic :=
  ds.eraseP (·.code == Rule.parseErrors.code)

/-- What is found in the text of a file. -/
def analyze (text path : String) : FileResult :=
  let isTemplate := Path.fileName? path = some templateName
  if Path.hasExtension path "txt" && !isTemplate then { path }
  else
    let d := Document.ofText text
    let found := e.runner.run d
    let diagnostics := if isTemplate then withoutFirstError found else found
    { path
      diagnostics
      metrics := d.metrics
      blocks :=
        if e.options.fingerprint then some (d.blockFindings diagnostics e.config.fingerprint.codes)
        else none }

/-! ### The directory of the sources -/

/-- How often two dots and a slash of either sort stand in a text. -/
def parentReferences : List Char → Nat
  | '.' :: '.' :: c :: rest =>
    if c = '/' || c = '\\' then parentReferences rest + 1 else parentReferences ('.' :: c :: rest)
  | _ :: rest => parentReferences rest
  | [] => 0
termination_by cs => cs.length

variable {m : Type → Type} [Monad m] (fs : FileSystem m)

/-- The directory of the sources. It may be outside of the directory of the project by one level. -/
def sourceDirectory : m (Except Failure String) := do
  let workspace := e.options.workspace
  if !(← fs.isDirectory workspace) then return .error (.noWorkspace workspace)
  else if 1 < parentReferences e.options.source.toList then
    return .error (.tooManyParents e.options.source)
  else
    let source := Path.join workspace e.options.source
    if ← fs.isDirectory source then return .ok source else return .error (.noSource source)

/-! ### All files -/

/-- Analyzes a file. One that cannot be read counts as empty, unless it is to end the batch. -/
def analyzeFile (path : String) : m (Except Failure FileResult) := do
  let shown := (Path.below? e.options.workspace path).getD path
  match ← fs.readSource path with
  | .ok text => return .ok (e.analyze text shown)
  | .error error =>
    if e.options.failFast then return .error (.analysis path error.message)
    else return .ok { path := shown }

/-- Analyzes files. -/
def analyzeFiles (paths : List String) : m (Except Failure (List FileResult)) := do
  let schedule := Pool.schedule (e.options.workers.getD 1) paths.length
  return (← Pool.run (e.analyzeFile fs) (Pool.ofList paths) schedule).results

/-- Analyzes all source files. -/
def run : m (Except Failure BatchResult) := do
  match ← e.sourceDirectory fs with
  | .error failure => return .error failure
  | .ok source =>
    let paths ← fs.sourceFiles source (e.options.extensions e.config)
    return (← e.analyzeFiles fs paths).map fun files ↦ { source, files }

end Engine

end BslLint
