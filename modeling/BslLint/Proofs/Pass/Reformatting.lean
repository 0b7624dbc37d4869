import BslLint.Proofs.Pass.Isolation
import BslLint.Proofs.Syntax.Reformatting

/-!
# Passes that do not look at the layout

A pass may be asked about one document in two layouts. It does not look at the layout
(`Pass.IgnoresLayout`) if both times its calls come out alike: as much is found, on the same nodes
and at places that correspond, and things go on in the same way. Then the whole courses are alike,
and since places that correspond are in the same order, so are the results of a runner
(`Runner.map_summary_run`). What is said in a message may differ, since it may quote the text.
-/

namespace BslLint

variable {f : Token → Token} {d d' : Document}

/-! ### What comes out alike -/

/-- Two findings on the same node, at places that correspond. -/
structure Finding.Alike (f : Token → Token) (ts : List Token) (x y : Finding) : Prop where
  anchor : x.anchor = y.anchor
  start : Corresponds f ts x.range.start y.range.start

/-- A finding about a node with a token stands where the node does. -/
theorem Document.Reformats.atNode (h : d.Reformats f d') {n : Node} (hn : n ∈ d.nodes)
    (hwidth : 0 < n.tree.width) (m m' : String) :
    Finding.Alike f d.tokens.toList (.atNode d n m) (.atNode d' (n.relabel f) m') := by
  obtain ⟨s, s', hs, hs', hstart⟩ := h.corresponds_start hn hwidth
  refine ⟨rfl, ?_⟩
  simp only [Finding.atNode, hs, hs', Option.getD_some]
  exact hstart

/-- Two answers with as many findings, that are alike, and with the same outcome. -/
structure Pass.Answer.Alike (f : Token → Token) (ts : List Token) (a b : Pass.Answer Unit) :
    Prop where
  findings : List.Forall₂ (Finding.Alike f ts) a.findings b.findings
  outcome : a.outcome = b.outcome

/-- What a diagnostic is about, apart from what it says and where it stands. -/
structure Diagnostic.Summary where
  /-- The code of the pass. -/
  code : String
  /-- How serious it is. -/
  severity : Severity
  /-- The id of the node that it hangs on. -/
  anchor : Option Nat
  deriving DecidableEq, Repr

/-- What the diagnostic is about, apart from what it says and where it stands. -/
def Diagnostic.summary (x : Diagnostic) : Summary := ⟨x.code, x.severity, x.anchor⟩

/-- Two diagnostics that are about the same, at places that correspond. -/
structure Diagnostic.Alike (f : Token → Token) (ts : List Token) (x y : Diagnostic) : Prop where
  summary : x.summary = y.summary
  start : Corresponds f ts x.range.start y.range.start

/-- Diagnostics that are alike are in the same order. -/
theorem Document.Reformats.le_eq (h : d.Reformats f d') {x y x' y' : Diagnostic}
    (hx : x.Alike f d.tokens.toList y) (hx' : x'.Alike f d.tokens.toList y') :
    x.le x' = y.le y' := by
  rw [Bool.eq_iff_iff, Diagnostic.le_iff_key, Diagnostic.le_iff_key]
  exact hx.start.key_le_iff h.ordered.1 h.ordered.2 hx'.start

/-! ### Courses -/

theorem Node.leaveOut_relabel (n : Node) (ns : List Node) :
    (n.relabel f).leaveOut (ns.map (relabel f)) = (n.leaveOut ns).map (relabel f) := by
  rw [leaveOut, List.filter_map]
  refine congrArg (List.map _) (List.filter_congr fun m _ ↦ decide_eq_decide.2 ?_)
  rw [IsBelow, id_relabel, id_relabel, size_relabel, IsBelow]

namespace Pass

/-- The pass does the same in every layout of a document. -/
structure IgnoresLayout (p : Pass Unit) : Prop where
  /-- No kind is listed twice. -/
  nodup : p.kinds.Nodup
  /-- The call for the document as a whole comes out alike. -/
  checkFile : ∀ {f d d'}, Document.Reformats f d d' →
    Answer.Alike f d.tokens.toList (p.checkFile d ()) (p.checkFile d' ())
  /-- So does a call at any node of the pass. -/
  visit : ∀ {f d d'}, Document.Reformats f d d' → ∀ n ∈ d.nodes, n.kind ∈ p.kinds →
    Answer.Alike f d.tokens.toList (p.visit d n ()) (p.visit d' (n.relabel f) ())

namespace IgnoresLayout

variable {p : Pass Unit} (hp : p.IgnoresLayout) (h : d.Reformats f d')

include hp h

/-- As many calls are made in both layouts, and they come out alike. -/
theorem visits {ns : List Node} (hns : ∀ n ∈ ns, n ∈ d.nodes ∧ n.kind ∈ p.kinds) :
    List.Forall₂ (fun v w ↦ Answer.Alike f d.tokens.toList v.2 w.2)
      (p.visits d ns ()) (p.visits d' (ns.map (Node.relabel f)) ()) := by
  obtain ⟨s, hs⟩ : ∃ s : Unit, s = () := ⟨_, rfl⟩
  rw [← hs]
  fun_induction p.visits d ns s with
  | case1 =>
    rw [List.map_nil, Pass.visits]
    exact .nil
  | case2 n ns s answer ihGo ihSkip =>
    obtain ⟨⟨hn, hkind⟩, hns⟩ := List.forall_mem_cons.1 hns
    have halike := hp.visit h n hn hkind
    rw [List.map_cons, Pass.visits]
    refine .cons halike ?_
    -- both calls have one outcome, so the courses go on alike
    have hskip : ∀ m ∈ n.leaveOut ns, m ∈ d.nodes ∧ m.kind ∈ p.kinds := fun m hm ↦
      hns m (List.mem_of_mem_filter hm)
    have houtcome : answer.outcome = _ := halike.outcome
    rcases hanswer : answer.outcome with (_ | _ | _) | _ | _ <;> rw [hanswer] at houtcome
    · rw [← houtcome]
      exact ihGo hns rfl
    · rw [← houtcome]
      dsimp only
      rw [Node.leaveOut_relabel]
      exact ihSkip hskip rfl
    all_goals
      rw [← houtcome]
      exact .nil

/-- **The courses of the pass come out alike**, call by call. -/
theorem findings : List.Forall₂ (Finding.Alike f d.tokens.toList)
    (p.course d).findings (p.course d').findings := by
  have hfile := hp.checkFile h
  have hvisits : List.Forall₂ (fun v w ↦ Answer.Alike f d.tokens.toList v.2 w.2)
      (p.course d).visits (p.course d').visits := by
    -- Relabelling keeps the kinds of nodes, so the pass is called for the same ones.
    have hlisting : d'.root.preorder.filter (·.kind ∈ p.kinds) =
        (d.root.preorder.filter (·.kind ∈ p.kinds)).map (Node.relabel f) := by
      rw [h.preorder_root.1, h.preorder_root.2, h.nodes_eq, List.filter_map]
      simp only [Function.comp_def, Node.kind_relabel]
    have hns : ∀ n ∈ d.root.preorder.filter (·.kind ∈ p.kinds), n ∈ d.nodes ∧ n.kind ∈ p.kinds := by
      intro n hn
      rw [h.preorder_root.1] at hn
      obtain ⟨hmem, hkind⟩ := List.mem_filter.1 hn
      exact ⟨hmem, of_decide_eq_true hkind⟩
    show List.Forall₂ _ (if (p.checkFile d ()).outcome.isFailure then [] else _)
      (if (p.checkFile d' ()).outcome.isFailure then [] else _)
    -- Both documents fail in the first call or neither does.
    rw [← hfile.outcome, hlisting]
    split
    · exact .nil
    · exact hp.visits h hns
  refine List.rel_append hfile.findings (List.rel_flatMap hvisits fun _ _ halike ↦ halike.findings)

end IgnoresLayout

end Pass

/-! ### Results of a runner -/

/-- **A runner of passes that ignore the layout says the same of every layout**, in the same
order. -/
theorem Runner.map_summary_run {r : Runner Unit} (hr : ∀ p ∈ r.passes, p.pass.IgnoresLayout)
    (h : d.Reformats f d') :
    (r.run d).map Diagnostic.summary = (r.run d').map Diagnostic.summary := by
  have hkinds : ∀ p ∈ r.passes, p.pass.kinds.Nodup := fun p hp ↦ (hr p hp).nodup
  rw [Diagnostic.isStableSort_iff.1 (isStableSort_run d hkinds),
    Diagnostic.isStableSort_iff.1 (isStableSort_run d' hkinds)]
  have halike : List.Forall₂ (Diagnostic.Alike f d.tokens.toList)
      (r.passes.flatMap fun p ↦ (p.pass.course d).findings.map
        (·.toDiagnostic p.pass.code p.severity))
      (r.passes.flatMap fun p ↦ (p.pass.course d').findings.map
        (·.toDiagnostic p.pass.code p.severity)) := by
    refine List.rel_flatMap (List.forall₂_same.2 fun p hp ↦ ⟨rfl, hp⟩ :
      List.Forall₂ (fun p q ↦ p = q ∧ p ∈ r.passes) r.passes r.passes) ?_
    rintro p _ ⟨rfl, hp⟩
    rw [List.forall₂_map_left_iff, List.forall₂_map_right_iff]
    refine ((hr p hp).findings h).imp fun x y hxy ↦ ⟨?_, hxy.start⟩
    rw [Diagnostic.summary, Diagnostic.summary, Finding.toDiagnostic, Finding.toDiagnostic,
      hxy.anchor]
  -- Diagnostics that are alike are sorted alike, since their order is that of their tokens.
  have hsorted := forall₂_mergeSort halike fun hx hx' ↦ h.le_eq hx hx'
  rw [← List.forall₂_eq_eq_eq, List.forall₂_map_left_iff, List.forall₂_map_right_iff]
  exact hsorted.imp fun x y hxy ↦ hxy.summary

end BslLint
