import BslLint.Pass.Basic

/-!
# Running passes

A `Runner` holds passes with the severities of what they find, and leads all of them through a
document in one walk. The passes do not know of each other: each has an `Entry` with its own state,
its own findings, and a note whether it is switched off or waits for a node to be done.

The walk itself never leaves out children, since they may matter to another pass. It ends early only
when every pass is switched off.
-/

namespace BslLint

/-- A pass and the severity of what it finds. -/
structure RankedPass (σ : Type) where
  /-- The pass. -/
  pass : Pass σ
  /-- The severity. -/
  severity : Severity

/-- Passes that are run together, in the order of their results. -/
structure Runner (σ : Type) where
  /-- The passes. -/
  passes : List (RankedPass σ)

/-- A pass on its way through a document. -/
structure Entry (σ : Type) where
  /-- The pass. -/
  ranked : RankedPass σ
  /-- Its state. -/
  state : σ
  /-- What it has found so far. -/
  found : List Finding
  /-- The node below which it is not called. -/
  skipped : Option Nat
  /-- Whether it is not called any more. -/
  off : Bool

namespace Entry

variable {σ : Type}

/-- A pass before anything has happened. -/
def ofRanked (ranked : RankedPass σ) : Entry σ := ⟨ranked, ranked.pass.initial, [], none, false⟩

/-- Takes in a call at a node. -/
def absorb (e : Entry σ) (node : Nat) (answer : Pass.Answer σ) : Entry σ :=
  let e := { e with state := answer.state, found := e.found ++ answer.findings }
  match answer.outcome with
  | .done .continue_ => e
  | .done .skipChildren => { e with skipped := some node }
  | .done .stop | .error | .crash => { e with off := true }

/-- Lets the pass see the document as a whole. Only a failure has consequences. -/
def checkFile (d : Document) (e : Entry σ) : Entry σ :=
  let answer := e.ranked.pass.checkFile d e.state
  let e := { e with state := answer.state, found := e.found ++ answer.findings }
  match answer.outcome with
  | .done _ => e
  | .error | .crash => { e with off := true }

/-- Calls the pass at a node, unless it is switched off or waits for a node to be done. -/
def visit (d : Document) (n : Node) (e : Entry σ) : Entry σ :=
  if e.off || e.skipped.isSome then e
  else e.absorb n.id (e.ranked.pass.visit d n e.state)

/-- Calls the pass at a node as often as it asks for nodes of that kind. -/
def enter (d : Document) (n : Node) (e : Entry σ) : Entry σ :=
  (List.replicate (e.ranked.pass.kinds.count n.kind) ()).foldl (fun e _ ↦ e.visit d n) e

/-- Ends the wait for a node. -/
def leave (n : Node) (e : Entry σ) : Entry σ :=
  if e.skipped = some n.id then { e with skipped := none } else e

/-- What the pass has found, as diagnostics. -/
def diagnostics (e : Entry σ) : List Diagnostic :=
  e.found.map (·.toDiagnostic e.ranked.pass.code e.ranked.severity)

end Entry

namespace Runner

variable {σ : Type} (r : Runner σ)

/-- The codes of the passes. -/
def codes : List String := r.passes.map (·.pass.code)

/-- What leads the passes through the tree. -/
def visitor (d : Document) : Visitor (List (Entry σ)) where
  enter n entries :=
    if entries.any (·.ranked.pass.kinds.contains n.kind) then
      let entries := entries.map (·.enter d n)
      (if entries.all (·.off) then .stop else .continue_, entries)
    else (.continue_, entries)
  leave n entries := entries.map (·.leave n)

/-- Leads the passes through a document. -/
def entries (d : Document) : List (Entry σ) :=
  (d.root.walk (visitor d) (r.passes.map fun p ↦ (Entry.ofRanked p).checkFile d)).2

/-- All that the passes find in a document, in the order of places. -/
def run (d : Document) : List Diagnostic :=
  Diagnostic.sorted ((r.entries d).flatMap (·.diagnostics))

end Runner

end BslLint
