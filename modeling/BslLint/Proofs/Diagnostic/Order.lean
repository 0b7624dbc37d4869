import BslLint.Diagnostic.Basic
import Mathlib.Data.List.Basic

/-!
# The order of diagnostics

Diagnostics are ordered by line and column, and by nothing else. `Diagnostic.IsStableSort` says what
an ordered list of given diagnostics is, without saying how to get there: it holds the same
diagnostics, none comes before an earlier place, and those at one place stand as they were given.
One list is like that, and `Diagnostic.sorted` finds it.
-/

namespace BslLint

/-- Sorting leaves entries that compare alike as they stand. -/
theorem filter_mergeSort {α : Type} {le : α → α → Bool}
    (trans : ∀ a b c, le a b = true → le b c = true → le a c = true)
    (total : ∀ a b, (le a b || le b a) = true) {p : α → Bool}
    (hp : ∀ a b, p a = true → p b = true → le a b = true) (as : List α) :
    (as.mergeSort le).filter p = as.filter p := by
  -- the entries are in order as they stand, so sorting keeps them as a sublist
  have hordered : (as.filter p).Pairwise fun a b ↦ le a b = true :=
    List.pairwise_of_forall_mem_list fun a ha b hb ↦
      hp a b (List.mem_filter.1 ha).2 (List.mem_filter.1 hb).2
  have hsublist : (as.filter p).Sublist ((as.mergeSort le).filter p) := by
    have h := (List.sublist_mergeSort trans total hordered List.filter_sublist).filter p
    simpa only [List.filter_filter, Bool.and_self] using h
  have hlength : (as.filter p).length = ((as.mergeSort le).filter p).length :=
    ((List.mergeSort_perm as le).filter _).length_eq.symm
  exact (hsublist.eq_of_length hlength).symm

namespace Diagnostic

theorem le_iff (d e : Diagnostic) :
    d.le e = true ↔ d.line < e.line ∨ d.line = e.line ∧ d.column ≤ e.column := by
  simp [le]

theorem le_trans (d e f : Diagnostic) (hde : d.le e = true) (hef : e.le f = true) :
    d.le f = true := by
  rw [le_iff] at hde hef ⊢
  omega

theorem le_total (d e : Diagnostic) : (d.le e || e.le d) = true := by
  rw [Bool.or_eq_true, le_iff, le_iff]
  omega

/-- The diagnostics of a list that begin at a place. -/
def startingAt (line column : Nat) (ds : List Diagnostic) : List Diagnostic :=
  ds.filter fun d ↦ d.line = line ∧ d.column = column

/-- `es` are the diagnostics `ds` in the order of their places, at one place as they were. -/
structure IsStableSort (ds es : List Diagnostic) : Prop where
  /-- No diagnostic is lost or added. -/
  perm : es.Perm ds
  /-- No diagnostic comes before one at an earlier place. -/
  ordered : es.Pairwise fun d e ↦ d.le e = true
  /-- Those at one place keep their order. -/
  stable : ∀ line column, startingAt line column es = startingAt line column ds

theorem isStableSort_sorted (ds : List Diagnostic) : IsStableSort ds (sorted ds) where
  perm := List.mergeSort_perm ds le
  ordered := List.pairwise_mergeSort le_trans le_total ds
  stable line column := by
    refine filter_mergeSort le_trans le_total (fun d e hd he ↦ ?_) ds
    have hd : d.line = line ∧ d.column = column := of_decide_eq_true hd
    have he : e.line = line ∧ e.column = column := of_decide_eq_true he
    rw [le_iff]
    omega

/-- Two lists in order that agree at every place are equal. The first diagnostic of either comes no
later than that of the other, so both begin at one place, where the lists agree. -/
theorem eq_of_startingAt_eq {es fs : List Diagnostic}
    (hes : es.Pairwise fun d e ↦ d.le e = true) (hfs : fs.Pairwise fun d e ↦ d.le e = true)
    (hperm : es.Perm fs) (hplaces : ∀ line column, startingAt line column es =
      startingAt line column fs) : es = fs := by
  induction es generalizing fs with
  | nil => exact hperm.nil_eq
  | cons e es ih =>
    cases fs with
    | nil => exact absurd hperm.symm.nil_eq (List.cons_ne_nil e es).symm
    | cons f fs =>
      have hle (d : Diagnostic) : d.le d = true := by simp [le]
      -- Each of the two heads comes no later than the other, as it is in both lists.
      have hef : e.le f = true := by
        rcases List.mem_cons.1 (hperm.symm.subset List.mem_cons_self) with rfl | hmem
        · exact hle f
        · exact List.rel_of_pairwise_cons hes hmem
      have hfe : f.le e = true := by
        rcases List.mem_cons.1 (hperm.subset List.mem_cons_self) with rfl | hmem
        · exact hle e
        · exact List.rel_of_pairwise_cons hfs hmem
      have hplace : f.line = e.line ∧ f.column = e.column := by
        rw [le_iff] at hef hfe
        omega
      have hfirst := hplaces e.line e.column
      rw [startingAt, startingAt, List.filter_cons_of_pos (by simp),
        List.filter_cons_of_pos (by simpa using hplace)] at hfirst
      obtain ⟨rfl, -⟩ := List.cons.inj hfirst
      -- Taken off both lists, the common head leaves them in agreement.
      refine congrArg (e :: ·) (ih hes.of_cons hfs.of_cons hperm.cons_inv fun line column ↦ ?_)
      have hrest := hplaces line column
      rw [startingAt, startingAt, List.filter_cons, List.filter_cons] at hrest
      split at hrest
      next => exact (List.cons.inj hrest).2
      next => exact hrest

/-- **There is one way to bring diagnostics into order.** -/
theorem isStableSort_iff {ds es : List Diagnostic} : IsStableSort ds es ↔ es = sorted ds := by
  have hsorted := isStableSort_sorted ds
  refine ⟨fun h ↦ ?_, fun h ↦ h ▸ hsorted⟩
  exact eq_of_startingAt_eq h.ordered hsorted.ordered (h.perm.trans hsorted.perm.symm)
    fun line column ↦ (h.stable line column).trans (hsorted.stable line column).symm

/-- Diagnostics that are left out leave the order of the others as it is. -/
theorem filter_sorted (p : Diagnostic → Bool) (ds : List Diagnostic) :
    (sorted ds).filter p = sorted (ds.filter p) := by
  have h := isStableSort_sorted ds
  refine isStableSort_iff.1 ⟨h.perm.filter p, h.ordered.filter p, fun line column ↦ ?_⟩
  have hcomm (es : List Diagnostic) :
      startingAt line column (es.filter p) = (startingAt line column es).filter p := by
    simp only [startingAt, List.filter_filter, Bool.and_comm]
  rw [hcomm, hcomm, h.stable]

/-- A change that moves no diagnostic leaves them in order. -/
theorem map_sorted {f : Diagnostic → Diagnostic} (hrange : ∀ x, (f x).range = x.range)
    (ds : List Diagnostic) : (sorted ds).map f = sorted (ds.map f) := by
  have hline (x : Diagnostic) : (f x).line = x.line := congrArg (·.start.line) (hrange x)
  have hcolumn (x : Diagnostic) : (f x).column = x.column := congrArg (·.start.column) (hrange x)
  have h := isStableSort_sorted ds
  refine isStableSort_iff.1 ⟨h.perm.map f, ?_, fun line column ↦ ?_⟩
  · rw [List.pairwise_map]
    exact h.ordered.imp fun {x y} hxy ↦ by rw [le_iff] at hxy ⊢; simpa only [hline, hcolumn]
  · have hcomm (es : List Diagnostic) :
        startingAt line column (es.map f) = (startingAt line column es).map f := by
      simp only [startingAt, List.filter_map, Function.comp_def, hline, hcolumn]
    rw [hcomm, hcomm, h.stable]

end Diagnostic

end BslLint
