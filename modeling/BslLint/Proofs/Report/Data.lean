import BslLint.Proofs.Data.Attempts
import BslLint.Proofs.Data.Json
import BslLint.Report.Data

/-!
# Reports are read back

Every kind of record that a report is made of is read as it was written, but for the nodes that
diagnostics hang on, which are not written at all: what is left out of a block because it is empty
or absent is taken as empty or absent (`BlockFindings.ofJson?_toJson`). The numbers of a report are
written and read as numbers of 64 bits, so this is said of results whose numbers fit.

At the end stands what follows for the text of a report as a whole (`Report.reports_read_back`).
-/

namespace BslLint

/-! ### What is not written -/

/-- A diagnostic that hangs on no node. -/
def Diagnostic.withoutAnchor (d : Diagnostic) : Diagnostic := { d with anchor := none }

/-- Findings of a block that hang on no nodes. -/
def BlockFindings.withoutAnchors (b : BlockFindings) : BlockFindings :=
  { b with byCode := b.byCode.map fun e ↦ (e.1, e.2.map (·.withoutAnchor)) }

/-- The result of a file with nothing that hangs on a node. -/
def FileResult.withoutAnchors (f : FileResult) : FileResult :=
  { f with
    diagnostics := f.diagnostics.map (·.withoutAnchor)
    blocks := f.blocks.map fun bs ↦ bs.map (·.withoutAnchors) }

/-! ### Fields and lists -/

namespace Json

variable {α β : Type}

/-- A field is found where it stands first, -/
@[simp]
theorem field?_cons_self (name : String) (v : Json) (ms : List (String × Json))
    (read? : Json → Option α) : (obj ((name, v) :: ms)).field? name read? = read? v := by
  simp [field?, get?]

/-- and behind others. -/
@[simp]
theorem field?_cons_of_ne {name key : String} (h : key ≠ name) (v : Json)
    (ms : List (String × Json)) (read? : Json → Option α) :
    (obj ((key, v) :: ms)).field? name read? = (obj ms).field? name read? := by
  simp [field?, get?, h]

/-- A list is read as it was written if its items are. -/
theorem list?_map {write : α → Json} {read? : Json → Option β} {keep : α → β}
    (h : ∀ x, read? (write x) = some (keep x)) (xs : List α) :
    list? read? (arr (xs.map write)) = some (xs.map keep) := by
  show (xs.map write).mapM read? = _
  rw [List.mapM_map]
  exact mapM_eq_some_map fun x _ ↦ h x

theorem nat?_nat (n : Nat) : nat? (nat n) = some n := by
  rw [nat, nat?, if_neg (Int.not_lt.2 (Int.natCast_nonneg n)), Int.toNat_natCast]

end Json

/-! ### Records -/

theorem Position.ofJson?_toJson (p : Position) : ofJson? p.toJson = some p := by
  simp [ofJson?, toJson, Json.nat?_nat]

theorem Span.ofJson?_toJson (s : Span) : ofJson? s.toJson = some s := by
  simp [ofJson?, toJson, Position.ofJson?_toJson]

/-- A severity is read from its name. -/
theorem Severity.ofJson?_name (s : Severity) : ofJson? (.str s.name) = some s := by
  simp [ofJson?, Json.str?, Severity.ofName?_name]

/-- A diagnostic is read as it was written, but for the node. -/
theorem Diagnostic.ofJson?_toJson (d : Diagnostic) : ofJson? d.toJson = some d.withoutAnchor := by
  simp [ofJson?, toJson, withoutAnchor, Json.str?, Severity.ofJson?_name, Span.ofJson?_toJson]

/-- Diagnostics in a list are read one by one. -/
theorem diagnosticsOfJson?_diagnosticsToJson (ds : List Diagnostic) :
    diagnosticsOfJson? (diagnosticsToJson ds) = some (ds.map (·.withoutAnchor)) :=
  Json.list?_map Diagnostic.ofJson?_toJson ds

theorem codeOfJson?_codeToJson (e : String × List Diagnostic) :
    codeOfJson? (codeToJson e) = some (e.1, e.2.map (·.withoutAnchor)) := by
  simp [codeOfJson?, codeToJson, Json.str?, diagnosticsOfJson?_diagnosticsToJson]

/-- Findings of a block are read as they were written, whatever of them has been left out. -/
theorem BlockFindings.ofJson?_toJson (b : BlockFindings) :
    ofJson? b.toJson = some b.withoutAnchors := by
  obtain ⟨hash, byCode, fileHash⟩ := b
  have hcodes := Json.list?_map codeOfJson?_codeToJson byCode
  cases byCode <;> cases fileHash <;>
    simp_all [ofJson?, toJson, withoutAnchors, Json.str?, Json.fieldOr, Json.get?, Json.orNull?]

theorem Metrics.ofJson?_toJson (m : Metrics) : ofJson? m.toJson = some m := by
  simp [ofJson?, toJson, Json.nat?_nat]

/-- The result of a file is read as it was written, with or without blocks. -/
theorem FileResult.ofJson?_toJson (f : FileResult) : ofJson? f.toJson = some f.withoutAnchors := by
  obtain ⟨path, diagnostics, metrics, blocks⟩ := f
  have hblocks (bs : List BlockFindings) := Json.list?_map BlockFindings.ofJson?_toJson bs
  cases blocks <;>
    simp [ofJson?, toJson, withoutAnchors, Json.str?, Json.fieldOr, Json.get?, Json.orNull?,
      Metrics.ofJson?_toJson, diagnosticsOfJson?_diagnosticsToJson, hblocks]

/-- **What a report tells is read again**, without the date. -/
theorem BatchResult.ofJson?_toJson (date : String) (b : BatchResult) :
    ofJson? (b.toJson date) = some { b with files := b.files.map (·.withoutAnchors) } := by
  simp [ofJson?, toJson, Json.str?, Json.list?_map FileResult.ofJson?_toJson]

/-! ### Numbers -/

def Position.numbers (p : Position) : List Nat := [p.line, p.column, p.offset]

def Span.numbers (s : Span) : List Nat := s.start.numbers ++ s.stop.numbers

def BlockFindings.numbers (b : BlockFindings) : List Nat :=
  b.byCode.flatMap fun e ↦ e.2.flatMap (·.range.numbers)

def Metrics.numbers (m : Metrics) : List Nat := [m.lines, m.procedures, m.functions, m.statements]

def FileResult.numbers (f : FileResult) : List Nat :=
  f.diagnostics.flatMap (·.range.numbers) ++ f.metrics.numbers ++
    (f.blocks.getD []).flatMap (·.numbers)

/-- All numbers that a report about a batch holds. -/
def BatchResult.numbers (b : BatchResult) : List Nat := b.files.flatMap (·.numbers)

/-- Numbers that fit into 64 bits. -/
def AreWords (ns : List Nat) : Prop := ∀ n ∈ ns, n ≤ Json.Reader.maxWord

instance : DecidablePred AreWords := fun ns ↦ inferInstanceAs (Decidable (∀ n ∈ ns, _))

variable {depth : Nat}

/-- A number that fits into a word may be written. -/
theorem Json.isPlain_nat {n : Nat} (h : n ≤ Reader.maxWord) : IsPlain depth (nat n) :=
  .int (by omega) (by omega)

/-- Three numbers make a position, -/
theorem Position.isPlain_toJson {p : Position} (h : AreWords p.numbers) :
    p.toJson.IsPlain (depth + 1) := by
  refine .obj fun m hm ↦ ?_
  simp only [AreWords, numbers, List.forall_mem_cons] at h
  simp only [List.mem_cons, List.not_mem_nil, or_false] at hm
  obtain ⟨hline, hcolumn, hoffset, -⟩ := h
  obtain rfl | rfl | rfl := hm <;> exact Json.isPlain_nat ‹_›

/-- two positions make a span, -/
theorem Span.isPlain_toJson {s : Span} (h : AreWords s.numbers) : s.toJson.IsPlain (depth + 2) := by
  obtain ⟨hstart, hstop⟩ := List.forall_mem_append.1 h
  refine .obj fun m hm ↦ ?_
  simp only [List.mem_cons, List.not_mem_nil, or_false] at hm
  obtain rfl | rfl := hm
  · exact Position.isPlain_toJson hstart
  · exact Position.isPlain_toJson hstop

/-- and with a span and some texts there is a diagnostic. -/
theorem Diagnostic.isPlain_toJson {d : Diagnostic} (h : AreWords d.range.numbers) :
    d.toJson.IsPlain (depth + 3) := by
  refine .obj fun m hm ↦ ?_
  simp only [List.mem_cons, List.not_mem_nil, or_false] at hm
  obtain rfl | rfl | rfl | rfl := hm
  · exact .str
  · exact .str
  · exact .str
  · exact Span.isPlain_toJson h

theorem isPlain_diagnosticsToJson {ds : List Diagnostic}
    (h : AreWords (ds.flatMap (·.range.numbers))) :
    (diagnosticsToJson ds).IsPlain (depth + 4) := by
  refine .arr fun v hv ↦ ?_
  obtain ⟨d, hd, rfl⟩ := List.mem_map.1 hv
  exact d.isPlain_toJson fun n hn ↦ h n (List.mem_flatMap.2 ⟨d, hd, hn⟩)

theorem isPlain_codeToJson {e : String × List Diagnostic}
    (h : AreWords (e.2.flatMap (·.range.numbers))) : (codeToJson e).IsPlain (depth + 5) := by
  refine .obj fun m hm ↦ ?_
  simp only [List.mem_cons, List.not_mem_nil, or_false] at hm
  obtain rfl | rfl := hm
  · exact .str
  · exact isPlain_diagnosticsToJson h

/-- What is left out of the findings of a block is left out here too. -/
theorem BlockFindings.isPlain_toJson {b : BlockFindings} (h : AreWords b.numbers) :
    b.toJson.IsPlain (depth + 7) := by
  refine .obj fun m hm ↦ ?_
  simp only [List.mem_append, List.mem_singleton] at hm
  obtain (rfl | hm) | hm := hm
  · exact .str
  · split at hm
    · exact nomatch hm
    · obtain rfl := List.mem_singleton.1 hm
      refine .arr fun v hv ↦ ?_
      obtain ⟨e, he, rfl⟩ := List.mem_map.1 hv
      exact isPlain_codeToJson fun n hn ↦ h n (List.mem_flatMap.2 ⟨e, he, hn⟩)
  · split at hm
    · obtain rfl := List.mem_singleton.1 hm
      exact .str
    · exact nomatch hm

theorem Metrics.isPlain_toJson {m : Metrics} (h : AreWords m.numbers) :
    m.toJson.IsPlain (depth + 1) := by
  refine .obj fun e he ↦ ?_
  simp only [AreWords, numbers, List.forall_mem_cons] at h
  simp only [List.mem_cons, List.not_mem_nil, or_false] at he
  obtain ⟨hlines, hprocedures, hfunctions, hstatements, -⟩ := h
  obtain rfl | rfl | rfl | rfl := he <;> exact Json.isPlain_nat ‹_›

/-- A file has diagnostics, metrics, and blocks if there are any. -/
theorem FileResult.isPlain_toJson {f : FileResult} (h : AreWords f.numbers) :
    f.toJson.IsPlain (depth + 9) := by
  obtain ⟨hfile, hblocks⟩ := List.forall_mem_append.1 h
  obtain ⟨hdiagnostics, hmetrics⟩ := List.forall_mem_append.1 hfile
  refine .obj fun m hm ↦ ?_
  simp only [List.mem_append, List.mem_cons, List.not_mem_nil, or_false] at hm
  obtain (rfl | rfl | rfl) | hm := hm
  · exact .str
  · exact isPlain_diagnosticsToJson hdiagnostics
  · exact Metrics.isPlain_toJson hmetrics
  · split at hm
    next bs hbs =>
      obtain rfl := List.mem_singleton.1 hm
      refine .arr fun v hv ↦ ?_
      obtain ⟨b, hb, rfl⟩ := List.mem_map.1 hv
      refine b.isPlain_toJson fun n hn ↦ hblocks n (List.mem_flatMap.2 ⟨b, ?_, hn⟩)
      rwa [hbs, Option.getD_some]
    next => exact nomatch hm

/-- So what is written about a batch is nested eleven levels deep. -/
theorem BatchResult.isPlain_toJson {date : String} {b : BatchResult} (h : AreWords b.numbers) :
    (b.toJson date).IsPlain (depth + 11) := by
  refine .obj fun m hm ↦ ?_
  simp only [List.mem_cons, List.not_mem_nil, or_false] at hm
  obtain rfl | rfl | rfl := hm
  · exact .str
  · refine .arr fun v hv ↦ ?_
    obtain ⟨f, hf, rfl⟩ := List.mem_map.1 hv
    exact f.isPlain_toJson fun n hn ↦ h n (List.mem_flatMap.2 ⟨f, hf, hn⟩)
  · exact .str

/-! ### The text of a report -/

namespace Report

/-- **Reports are read back.** From the text of a report about a batch whose numbers fit into 64
bits the same results are read, except that no diagnostic hangs on a node any more. -/
theorem reports_read_back (date : String) (b : BatchResult) (h : AreWords b.numbers) :
    read? (data date b) = some { b with files := b.files.map (·.withoutAnchors) } := by
  rw [read?, data, Json.read?_pretty (BatchResult.isPlain_toJson h)]
  exact BatchResult.ofJson?_toJson date b

/-- A file with one finding, told about the file and about its only block with code. -/
def oneFinding (anchor : Option Nat) : FileResult :=
  let d : Diagnostic := ⟨"A", "«x»\n", .warning, ⟨⟨1, 1, 0⟩, ⟨1, 2, 1⟩⟩, anchor⟩
  ⟨"m.bsl", [d], ⟨1, 0, 0, 1⟩, some [⟨"g", [("A", [d])], none⟩, ⟨"h", [], some "f"⟩]⟩

/-- A finding comes back without the node that it hung on. -/
theorem anchors_are_left_out :
    AreWords (BatchResult.numbers ⟨"src", [oneFinding (some 7)]⟩) ∧
    read? (data "2024" ⟨"src", [oneFinding (some 7)]⟩) = some ⟨"src", [oneFinding none]⟩ :=
  ⟨by decide, reports_read_back "2024" _ (by decide)⟩

end Report

end BslLint
