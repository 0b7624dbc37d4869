import BslLint.Diagnostic.Basic
import BslLint.Syntax.Traversal

/-!
# Passes

A `Pass` looks for one kind of trouble. It is a machine with a state of its own: it is called once
for the document as a whole, and then at nodes of the kinds that it asks for. Every call may find
something, and its `Outcome` says how things go on for this pass: with the children of the node, or
behind it, or not at all. A pass can also fail, in two ways that make no difference to what follows;
what it found before stays found.

Most passes have no state and are written for `Unit`; `Pass.withState` lets them run beside others.
-/

namespace BslLint

/-- How a call of a pass ends. -/
inductive Outcome where
  /-- The pass has done its work and says what it wants to see next. -/
  | done (next : Control)
  /-- The pass says that it cannot do its work. -/
  | error
  /-- The pass breaks down. -/
  | crash
  deriving DecidableEq, Repr

/-- What comes out of a call of a pass. -/
structure Pass.Answer (σ : Type) where
  /-- What was found, in the order in which it was found. -/
  findings : List Finding
  /-- How the call ended. -/
  outcome : Outcome
  /-- The state after the call. -/
  state : σ

namespace Pass.Answer

variable {σ : Type}

/-- A call that leaves the state as it is and goes on. -/
def found (s : σ) (findings : List Finding) : Pass.Answer σ := ⟨findings, .done .continue_, s⟩

/-- A call that finds nothing and goes on. -/
def nothing (s : σ) : Pass.Answer σ := found s []

end Pass.Answer

/-- A search for one kind of trouble in a document. -/
structure Pass (σ : Type) where
  /-- The code of what it finds. -/
  code : String
  /-- The kinds of the nodes at which it is called. A kind listed twice means two calls. -/
  kinds : List NodeKind
  /-- The state in which it begins a document. -/
  initial : σ
  /-- The call for the document as a whole. -/
  checkFile : Document → σ → Pass.Answer σ := fun _ s ↦ .nothing s
  /-- The call at a node. -/
  visit : Document → Node → σ → Pass.Answer σ := fun _ _ s ↦ .nothing s

/-- A pass without a state among passes that have one. -/
def Pass.withState {σ : Type} (p : Pass Unit) (initial : σ) : Pass σ where
  code := p.code
  kinds := p.kinds
  initial
  checkFile d s := let answer := p.checkFile d (); ⟨answer.findings, answer.outcome, s⟩
  visit d n s := let answer := p.visit d n (); ⟨answer.findings, answer.outcome, s⟩

end BslLint
