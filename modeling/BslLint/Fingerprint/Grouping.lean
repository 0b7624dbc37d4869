import BslLint.Data.KeyMap
import BslLint.Diagnostic.Basic
import BslLint.Fingerprint.Block

/-!
# Findings grouped by blocks

A diagnostic belongs to every block that has the line where the diagnostic begins. Per block,
diagnostics are grouped by their codes; blocks without any are left out.

A text with errors in which no block was found is listed as a whole, under a reserved name in place
of a fingerprint.
-/

namespace BslLint

/-- Diagnostics of a block. -/
structure BlockFindings where
  /-- The fingerprint of the block. -/
  hash : String
  /-- The diagnostics by their codes, in the order of the codes. -/
  byCode : KeyMap (List Diagnostic)
  /-- The hash of the whole text, where no block was found. -/
  fileHash : Option String
  deriving DecidableEq, Repr

namespace BlockFindings

/-- What stands in place of a fingerprint where no block was found. -/
def unparsed : String := "ParseError"

/-- Diagnostics by their codes, each group in the order of places. -/
def group (ds : List Diagnostic) : KeyMap (List Diagnostic) :=
  (ds.foldl (fun m d ↦ KeyMap.modify m d.code [] (· ++ [d])) []).map
    fun (code, ds) ↦ (code, Diagnostic.sorted ds)

/-- The diagnostics with codes that count; where no codes are given all of them count. -/
def counting (codes : List String) (ds : List Diagnostic) : List Diagnostic :=
  ds.filter fun d ↦ codes.isEmpty || codes.contains d.code

/-- What is found in a block, none if that is nothing. -/
def ofBlock? (ds : List Diagnostic) (b : Block) : Option BlockFindings :=
  let inside := ds.filter fun d ↦ b.containsLine d.line
  if inside.isEmpty then none else some ⟨b.fingerprint, group inside, none⟩

/-- A text in which no block was found. -/
def ofUnparsed (text : String) : BlockFindings := ⟨unparsed, [], some (Sha1.ofText text)⟩

end BlockFindings

/-- The diagnostics of a document by its blocks. -/
def Document.blockFindings (d : Document) (ds : List Diagnostic) (codes : List String) :
    List BlockFindings :=
  if d.source.isEmpty then []
  else
    d.blocks.filterMap (BlockFindings.ofBlock? (BlockFindings.counting codes ds)) ++
      if d.blocks.isEmpty && d.hasErrors then [BlockFindings.ofUnparsed d.source] else []

end BslLint
