import BslLint.Grammar.Module
import BslLint.Syntax.Document
import BslLint.Text.Encoding

/-!
# Parsing a text

`Document.ofText` makes a document out of any text. Unknown text and unmet expectations become its
errors, in the order of the places where they begin; of two at the same place the unknown text comes
first. The grammar gives faults as tokens, and here they get their words and their places.
-/

namespace BslLint

/-- What a message says was wanted. -/
def Expectation.message : Expectation → String
  | token kind => "Expected '" ++ kind.display ++ "'"
  | variableName => "Expected variable name"
  | subName => "Expected procedure or function name"
  | parameterName => "Expected parameter name"
  | labelName => "Expected label name"
  | label => "Expected label"
  | loopVariable => "Expected loop variable"
  | expression => "Expected expression"
  | constant => "Expected constant"
  | propertyName => "Expected property name"
  | statement => "Unexpected token"

/-- A fault as an error. One at the end of the file stands at a point, the place `fileEnd`. -/
def Fault.toError (fileEnd : Position) (f : Fault) : SyntaxError :=
  match f.found with
  | some t => ⟨f.wanted.message ++ ", found '" ++ t.kind.display ++ "'", t.span⟩
  | none => ⟨f.wanted.message ++ ", found end of file", .point fileEnd⟩

/-- A piece of unknown text as an error, at the point where it begins. -/
def UnknownText.toError (u : UnknownText) : SyntaxError :=
  ⟨"Unexpected character '" ++ u.text ++ "'", .point u.position⟩

/-- The place behind the last of some tokens, the start of the text if there are none. -/
def lastStop (ts : List Token) : Position := (ts.getLast?.map (·.stop)).getD .start

/-- A text as a document. A byte order mark in front is no part of it. -/
def Document.ofText (text : String) : Document :=
  let source := Text.withoutMark text
  let scan := Scan.ofText source
  let step := Grammar.file scan.tokens
  { source
    trees := step.trees
    errors := (scan.unknown.map (·.toError) ++
      step.faults.map (·.toError (lastStop scan.tokens))).mergeSort
        fun e f ↦ e.span.start.le f.span.start }

/-- What a builder is asked to do while a text is parsed: to note what is unknown in it, and then
what the parser of files has for it. -/
def SyntaxTree.calls (scan : Scan) : List (TreeBuilder.Call SyntaxError) :=
  scan.unknown.map (.error ·.toError) ++
    (Grammar.file scan.tokens).calls.map (.map id (·.toError (lastStop scan.tokens)))

/-- A text as a stored tree. -/
def SyntaxTree.ofText (text : String) : SyntaxTree :=
  let source := Text.withoutMark text
  (TreeBuilder.after source (calls (Scan.ofText source))).build

end BslLint
