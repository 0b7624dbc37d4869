import BslLint.Grammar.Module
import BslLint.Proofs.Grammar.Reading

/-!
# Reading files without faults

A file is read run by run, and ends with a run of code. What is read of a run is read by `many`;
here are the equations for putting runs together, in the way in which `Parser.Reads` has one for
each combinator.
-/

namespace BslLint.Grammar

open BslLint.Parser

variable {ts us vs : List Token} {cs ds : List Tree} {coded : Bool}

/-- The code of a module where there is none. -/
def noCode : Tree := .node .fileCodeBlock [.node .codeBlock []]

theorem reads_fileCodeBlock_nil : fileCodeBlock.Reads [] [noCode] [] :=
  ((Reads.many_nil rfl).node _).node _

theorem runsFrom_nil : runsFrom coded [] = if coded then .start [] else fileCodeBlock [] := by
  rw [runsFrom]
  rfl

theorem runsFrom_of_go (hgo : (run ts).rest.length < ts.length) :
    runsFrom coded ts = (run ts).andThen (runsFrom (!atSub ts) (run ts).rest) := by
  have hne : ¬ts.isEmpty = true := by
    rw [List.isEmpty_iff]
    rintro rfl
    exact Nat.not_lt_zero _ hgo
  rw [runsFrom, if_neg hne]
  exact if_pos hgo

/-- At the end of the text an empty run of code is made up for a missing one. -/
theorem reads_runsFrom_nil : ∀ coded, Reads (runsFrom coded) [] (if coded then [] else [noCode]) []
  | true => (reads_congr runsFrom_nil).2 (reads_nothing.2 ⟨rfl, rfl⟩)
  | false => (reads_congr runsFrom_nil).2 reads_fileCodeBlock_nil

/-- Of no tokens comes a file without anything in it, and without a fault. -/
theorem reads_file_nil : file.Reads [] [.node .file [noCode]] [] := by
  have hvar : atModuleVar [] = false := by
    rw [atModuleVar, afterDirectives]
    rfl
  exact (((reads_when_neg hvar).2 ⟨rfl, rfl⟩).seq (reads_runsFrom_nil false)).node _

theorem reads_runsFrom_cons (hrun : run.Reads ts cs us) (hlt : us.length < ts.length)
    (hothers : Reads (runsFrom !atSub ts) us ds vs) :
    Reads (runsFrom coded) ts (cs ++ ds) vs := by
  obtain ⟨rfl, hfaults, rfl⟩ := hrun
  obtain ⟨rfl, hfaults', rfl⟩ := hothers
  refine (reads_congr (q := seq run (runsFrom !atSub ts)) (runsFrom_of_go hlt)).2 ⟨rfl, ?_, rfl⟩
  show (run ts).faults ++ (runsFrom (!atSub ts) (run ts).rest).faults = []
  rw [hfaults, hfaults', List.append_nil]

/-- A run of procedures in front of a run of code, or of none. -/
theorem reads_runsFrom_subs (hat : atSub ts = true) (hsubs : (many atSub sub).Reads ts cs us)
    (hlt : us.length < ts.length) (hothers : Reads (runsFrom false) us ds vs) :
    Reads (runsFrom coded) ts (.node .subs cs :: ds) vs := by
  have hrun : run.Reads ts [.node .subs cs] us := (reads_ifAhead_pos hat).2 (hsubs.node _)
  refine reads_runsFrom_cons hrun hlt ?_
  rw [hat]
  exact hothers

/-- A run of code behind which no procedure follows any more. -/
theorem reads_runsFrom_code (hat : atSub ts = false) (hne : ts ≠ [])
    (hcode : fileCodeBlock.Reads ts cs []) : Reads (runsFrom coded) ts cs [] := by
  have hrun : run.Reads ts cs [] := (reads_ifAhead_neg hat).2 hcode
  -- Code was read, so none is made up at the end.
  have hothers : Reads (runsFrom !atSub ts) [] [] [] := by
    rw [hat]
    exact reads_runsFrom_nil true
  have hall : Reads (runsFrom coded) ts (cs ++ []) [] :=
    reads_runsFrom_cons hrun (List.length_pos_iff.2 hne) hothers
  rwa [List.append_nil] at hall

end BslLint.Grammar
