import BslLint.Data.Json.Reader
import BslLint.Engine.Result

/-!
# Reports as data

The results of a batch as JSON, and how they are read from it. The nodes that diagnostics hang on
are not written, since they mean nothing without the tree. What is empty or absent about a block is
left out.
-/

namespace BslLint

namespace Json

/-- A number as a value. -/
def nat (n : Nat) : Json := int n

/-- The number that a value is. -/
def nat? : Json → Option Nat
  | int n => if n < 0 then none else some n.toNat
  | _ => none

/-- The text that a value is. -/
def str? : Json → Option String
  | str s => some s
  | _ => none

/-- The items of an array. -/
def items? : Json → Option (List Json)
  | arr vs => some vs
  | _ => none

/-- What is read of the member of a name. -/
def field? {α : Type} (j : Json) (name : String) (read? : Json → Option α) : Option α := do
  read? (← j.get? name)

/-- What is read of the items of an array. -/
def list? {α : Type} (read? : Json → Option α) (j : Json) : Option (List α) := do
  (← j.items?).mapM read?

/-- What is read of the member of a name, or what stands for it where it is missing. -/
def fieldOr {α : Type} (j : Json) (name : String) (default : α) (read? : Json → Option α) :
    Option α :=
  match j.get? name with
  | some v => read? v
  | none => some default

/-- What is read of a value, none for null. -/
def orNull? {α : Type} (read? : Json → Option α) : Json → Option (Option α)
  | null => some none
  | v => (read? v).map some

end Json

/-! ### Places -/

/-- A position as data. -/
def Position.toJson (p : Position) : Json :=
  .obj [("line", .nat p.line), ("column", .nat p.column), ("offset", .nat p.offset)]

/-- The position that data are about. -/
def Position.ofJson? (j : Json) : Option Position := do
  return ⟨← j.field? "line" Json.nat?, ← j.field? "column" Json.nat?, ← j.field? "offset" Json.nat?⟩

/-- A stretch of text as data. -/
def Span.toJson (s : Span) : Json := .obj [("start", s.start.toJson), ("end", s.stop.toJson)]

/-- The stretch of text that data are about. -/
def Span.ofJson? (j : Json) : Option Span := do
  return ⟨← j.field? "start" Position.ofJson?, ← j.field? "end" Position.ofJson?⟩

/-! ### Diagnostics -/

/-- The severity that data are about. -/
def Severity.ofJson? (j : Json) : Option Severity := do Severity.ofName? (← j.str?)

/-- A diagnostic as data. -/
def Diagnostic.toJson (d : Diagnostic) : Json :=
  .obj [("code", .str d.code), ("message", .str d.message), ("severity", .str d.severity.name),
    ("range", d.range.toJson)]

/-- The diagnostic that data are about. It hangs on no node. -/
def Diagnostic.ofJson? (j : Json) : Option Diagnostic := do
  return {
    code := ← j.field? "code" Json.str?
    message := ← j.field? "message" Json.str?
    severity := ← j.field? "severity" Severity.ofJson?
    range := ← j.field? "range" Span.ofJson?
    anchor := none }

/-- Diagnostics as data. -/
def diagnosticsToJson (ds : List Diagnostic) : Json := .arr (ds.map (·.toJson))

/-- The diagnostics that data are about. -/
def diagnosticsOfJson? : Json → Option (List Diagnostic) := Json.list? Diagnostic.ofJson?

/-! ### Blocks -/

/-- Diagnostics of one code as data. -/
def codeToJson (e : String × List Diagnostic) : Json :=
  .obj [("code", .str e.1), ("diagnostics", diagnosticsToJson e.2)]

/-- The diagnostics of one code that data are about. -/
def codeOfJson? (j : Json) : Option (String × List Diagnostic) := do
  return (← j.field? "code" Json.str?, ← j.field? "diagnostics" diagnosticsOfJson?)

/-- Findings of a block as data. -/
def BlockFindings.toJson (b : BlockFindings) : Json :=
  .obj ([("hash", .str b.hash)] ++
    (if b.byCode.isEmpty then [] else [("code_diagnostics", .arr (b.byCode.map codeToJson))]) ++
    (match b.fileHash with
      | some hash => [("file_hash", .str hash)]
      | none => []))

/-- The findings of a block that data are about. -/
def BlockFindings.ofJson? (j : Json) : Option BlockFindings := do
  return {
    hash := ← j.field? "hash" Json.str?
    byCode := ← j.fieldOr "code_diagnostics" [] (Json.list? codeOfJson?)
    fileHash := ← j.fieldOr "file_hash" none (Json.orNull? Json.str?) }

/-! ### Files -/

/-- The size of a file as data. -/
def Metrics.toJson (m : Metrics) : Json :=
  .obj [("lines", .nat m.lines), ("procedures", .nat m.procedures),
    ("functions", .nat m.functions), ("statements", .nat m.statements)]

/-- The size of a file that data are about. -/
def Metrics.ofJson? (j : Json) : Option Metrics := do
  return {
    lines := ← j.field? "lines" Json.nat?
    procedures := ← j.field? "procedures" Json.nat?
    functions := ← j.field? "functions" Json.nat?
    statements := ← j.field? "statements" Json.nat? }

/-- The result of a file as data. -/
def FileResult.toJson (f : FileResult) : Json :=
  .obj ([("path", .str f.path), ("diagnostics", diagnosticsToJson f.diagnostics),
    ("metrics", f.metrics.toJson)] ++
    (match f.blocks with
      | some bs => [("blocks", .arr (bs.map (·.toJson)))]
      | none => []))

/-- The result of a file that data are about. -/
def FileResult.ofJson? (j : Json) : Option FileResult := do
  return {
    path := ← j.field? "path" Json.str?
    diagnostics := ← j.field? "diagnostics" diagnosticsOfJson?
    metrics := ← j.field? "metrics" Metrics.ofJson?
    blocks := ← j.fieldOr "blocks" none (Json.orNull? (Json.list? BlockFindings.ofJson?)) }

/-! ### Batches -/

/-- The results of a batch as data, with the date of the analysis. -/
def BatchResult.toJson (date : String) (b : BatchResult) : Json :=
  .obj [("date", .str date), ("file_info", .arr (b.files.map (·.toJson))),
    ("source_dir", .str b.source)]

/-- The results of a batch that data are about. There must be a date, which is not kept. -/
def BatchResult.ofJson? (j : Json) : Option BatchResult := do
  let _ ← j.field? "date" Json.str?
  return {
    source := ← j.field? "source_dir" Json.str?
    files := ← j.field? "file_info" (Json.list? FileResult.ofJson?) }

namespace Report

/-- The report about a batch as data. All numbers in it are integers. -/
def data (date : String) (b : BatchResult) : String := (b.toJson date).pretty (fun _ ↦ "") 0

/-- The results of a batch that a report is about. -/
def read? (report : String) : Option BatchResult := do BatchResult.ofJson? (← Json.read? report)

end Report

end BslLint
