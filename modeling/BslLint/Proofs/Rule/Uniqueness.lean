import BslLint.Proofs.Grammar.Coverage
import BslLint.Proofs.Pass.Isolation
import BslLint.Proofs.Rule.Detection

/-!
# No operation is reported twice

An expression inside of another one is a node of its own, and it is part of the outer expression
too. Still the rule about equal operands speaks of no operation twice: where an expression is looked
at as a whole, the nodes below it are left out, and where it is not, because it is short or comes to
nothing, the operations of its row are not looked at either.

The operations of one expression come from different nodes below its own
(`nodup_origins_operations`). Those found in the course of a run come from the stretches of numbers
below the expressions that are looked at, and these do not overlap (`exists_reports_visits`).
-/

namespace BslLint

/-! ### Numbers from a node downwards -/

namespace Node

theorem roles_eq_coe (n : Node) : roles [n] =
    (n.preorder.filterMap fun m ↦ m.kind.role?.map (·, m.id) : List (Role × Nat)) := rfl

/-- No two nodes with a role have one number. -/
theorem nodup_snd_roles (n : Node) : ((roles [n]).map Prod.snd).Nodup := by
  -- Nodes without a role are left out, which makes the list of numbers no longer.
  have hsublist : ∀ ms : List Node, ((ms.filterMap fun m ↦ m.kind.role?.map (·, m.id)).map
      Prod.snd).Sublist (ms.map id) := by
    intro ms
    induction ms with
    | nil => exact List.nil_sublist _
    | cons m ms ih =>
      cases hm : m.kind.role? with
      | none =>
        rw [List.filterMap_cons_none (by rw [hm, Option.map_none])]
        exact ih.cons _
      | some r =>
        rw [List.filterMap_cons_some (by rw [hm, Option.map_some])]
        exact ih.cons_cons _
  rw [roles_eq_coe, Multiset.map_coe, Multiset.coe_nodup]
  refine (hsublist n.preorder).nodup ?_
  rw [map_id_preorder]
  exact List.nodup_range'

end Node

namespace IdenticalExpressions

variable {d : Document} {n : Node} {x : Expr}

/-! ### The operations of one expression -/

theorem role?_of_isCompared {o : Operation} (h : isCompared o.operator = true) :
    o.expr.role? = some .operation := by
  obtain ⟨op, left, right, origin⟩ := o
  cases op <;> first | rfl | exact nomatch h

/-- The operations of an expression come from nodes with that role, each from another one. -/
theorem roles_operations_le (hx : n.expr? = some x) :
    ((operations x).map fun o ↦ (Role.operation, o.origin.node) : List (Role × Nat)) ≤
      Node.roles [n] := by
  obtain ⟨hroles, hcalls⟩ := Node.stemsFrom_expr? hx
  have hrole (o : Operation) (ho : o ∈ operations x) :
      o.expr.role?.map (·, o.expr.origin.node) = some (Role.operation, o.origin.node) := by
    obtain ⟨p, hkept⟩ : ∃ p, IsKept (fun _ ↦ true) x p o := exists_isKept_of_mem hcalls ho rfl
    rw [role?_of_isCompared hkept.isCompared]
    rfl
  have hsublist := (operations_sublist x).filterMap fun y ↦ y.role?.map (·, y.origin.node)
  have hpairs : ((operations x).map Operation.expr).filterMap
      (fun y ↦ y.role?.map (·, y.origin.node)) =
        (operations x).map fun o ↦ (Role.operation, o.origin.node) := by
    rw [List.filterMap_map, ← List.filterMap_eq_map]
    exact List.filterMap_congr hrole
  rw [hpairs] at hsublist
  rw [Expr.account_eq_listed] at hroles
  exact (Multiset.coe_le.2 hsublist.subperm).trans hroles

/-- No two operations of an expression come from one node. -/
theorem nodup_origins_operations (hx : n.expr? = some x) :
    ((operations x).map (·.origin.node)).Nodup := by
  have h := Multiset.map_le_map (f := Prod.snd) (roles_operations_le hx)
  rw [Multiset.map_coe, List.map_map] at h
  exact Multiset.coe_nodup.1 (Multiset.nodup_of_le h n.nodup_snd_roles)

/-- The operation comes from a node of that kind below another one. -/
def ComesFromBelow (n : Node) (o : Operation) : Prop :=
  ∃ m ∈ n.preorder, m.kind = .operation ∧ o.origin.node = m.id

/-- An operation of an expression comes from below the expression's own node. -/
theorem comesFromBelow_of_mem_operations (hx : n.expr? = some x) {o : Operation}
    (ho : o ∈ operations x) : ComesFromBelow n o := by
  have hmem : (Role.operation, o.origin.node) ∈ Node.roles [n] :=
    Multiset.mem_of_le (roles_operations_le hx) (Multiset.mem_coe.2 (List.mem_map_of_mem ho))
  rw [Node.roles_eq_coe, Multiset.mem_coe, List.mem_filterMap] at hmem
  obtain ⟨m, hm, hrole⟩ := hmem
  obtain ⟨r, hr, hpair⟩ := Option.map_eq_some_iff.1 hrole
  obtain ⟨rfl, hid⟩ := Prod.mk.inj hpair
  refine ⟨m, hm, ?_, hid.symm⟩
  cases hkind : m.kind <;> rw [hkind] at hr <;> first | rfl | exact nomatch hr

/-- So the numbers tell where an operation was found. -/
theorem ComesFromBelow.bounds {o : Operation} (h : ComesFromBelow n o) :
    n.id ≤ o.origin.node ∧ o.origin.node < n.id + n.size := by
  obtain ⟨m, hm, -, hid⟩ := h
  have hmem : m.id ∈ n.preorder.map Node.id := List.mem_map_of_mem hm
  rw [n.map_id_preorder, List.mem_range'_1] at hmem
  omega

/-! ### The course of a run -/

/-- An operation that is reported in the expression of a node. -/
structure IsFound (d : Document) (min : Nat) (n : Node) (o : Operation) : Prop where
  /-- The expression is large enough. -/
  size_le : min ≤ n.children.length
  /-- The operation stands in it and is to be reported. -/
  reported : ∃ x p, n.expr? = some x ∧ IsReported d.upToChains x p o

/-- Operations that are found at nodes of a list, in the order of the findings. They come from
different nodes, each below the one where it is found. -/
structure AreReports (d : Document) (min : Nat) (ns : List Node) (findings : List Finding)
    (reports : List (Node × Operation)) : Prop where
  /-- They are what the findings are about. -/
  findings_eq : findings = reports.map fun r ↦ .atNode d r.1 (message d r.1 r.2)
  /-- Each is found at a node of the list, and comes from below it. -/
  found : ∀ r ∈ reports, r.1 ∈ ns ∧ IsFound d min r.1 r.2 ∧ ComesFromBelow r.1 r.2
  /-- No two come from one node. -/
  nodup : (reports.map (·.2.origin.node)).Nodup

/-- What is found in one expression. -/
theorem exists_reports_check {min : Nat} (hsize : min ≤ n.children.length)
    (hx : n.expr? = some x) : ∃ reports, AreReports d min [n] (check d n x) reports := by
  refine ⟨((operations x).filter (isRedundant d.upToChains)).map (n, ·), ?_, ?_, ?_⟩
  · rw [List.map_map]
    rfl
  · refine List.forall_mem_map.2 fun o ho ↦ ?_
    obtain ⟨ho, hredundant⟩ := List.mem_filter.1 ho
    obtain ⟨p, hkept⟩ := exists_isKept_of_mem (Node.stemsFrom_expr? hx).2 ho hredundant
    exact ⟨List.mem_singleton_self n, ⟨hsize, x, p, hx, isKept_iff_isReported.1 hkept⟩,
      comesFromBelow_of_mem_operations hx ho⟩
  · rw [List.map_map]
    exact (List.filter_sublist.map _).nodup (nodup_origins_operations hx)

/-- The pass looks at an expression as a whole and leaves out what is below, or goes on. -/
theorem visit_pass (d : Document) (min : Nat) (n : Node) (s : Unit) :
    (pass min).visit d n s = .nothing s ∨
      min ≤ n.children.length ∧ ∃ x, n.expr? = some x ∧
        (pass min).visit d n s = ⟨check d n x, .done .skipChildren, s⟩ := by
  simp only [pass]
  split
  next => exact .inl rfl
  next hsize =>
    cases hx : n.expr? with
    | none => exact .inl rfl
    | some x => exact .inr ⟨Nat.le_of_not_lt hsize, x, rfl, rfl⟩

namespace AreReports

variable {min : Nat} {ns ms : List Node} {findings findings' : List Finding}
  {reports reports' : List (Node × Operation)}

theorem mono (h : AreReports d min ns findings reports) (hns : ∀ n ∈ ns, n ∈ ms) :
    AreReports d min ms findings reports :=
  ⟨h.findings_eq, fun r hr ↦ ⟨hns _ (h.found r hr).1, (h.found r hr).2⟩, h.nodup⟩

/-- Where an expression was looked at, what is found at later nodes comes from behind it. -/
theorem append (h : AreReports d min [n] findings reports)
    (h' : AreReports d min (n.leaveOut ns) findings' reports') (hns : ∀ m ∈ ns, n.id < m.id) :
    AreReports d min (n :: ns) (findings ++ findings') (reports ++ reports') := by
  refine ⟨by rw [h.findings_eq, h'.findings_eq, List.map_append], ?_, ?_⟩
  · refine List.forall_mem_append.2 ⟨(h.mono (by simp)).found, ?_⟩
    exact (h'.mono fun m hm ↦ List.mem_cons_of_mem _ (List.mem_of_mem_filter hm)).found
  · rw [List.map_append, List.nodup_append]
    refine ⟨h.nodup, h'.nodup,
      List.forall_mem_map.2 fun r hr ↦ List.forall_mem_map.2 fun r' hr' ↦ ?_⟩
    obtain ⟨hn, -, hbelow⟩ := h.found r hr
    obtain ⟨hm, -, hbelow'⟩ := h'.found r' hr'
    obtain ⟨hm, hleft⟩ := List.mem_filter.1 hm
    have hlt := hns _ hm
    have hbehind := of_decide_eq_true hleft
    have hbounds := hbelow.bounds
    have hbounds' := hbelow'.bounds
    rw [List.mem_singleton.1 hn] at hbounds
    simp only [Node.IsBelow] at hbehind
    omega

end AreReports

/-- **The course of the pass finds no operation twice.** -/
theorem exists_reports_visits (d : Document) (min : Nat) (ns : List Node) (s : Unit)
    (hns : ns.Pairwise fun n m ↦ n.id < m.id) :
    ∃ reports, AreReports d min ns (((pass min).visits d ns s).flatMap (·.2.findings))
      reports := by
  fun_induction (pass min).visits d ns s with
  | case1 s => exact ⟨[], rfl, List.forall_mem_nil _, List.nodup_nil⟩
  | case2 n ns s answer ihGo ihSkip =>
    obtain ⟨hn, hns⟩ := List.pairwise_cons.1 hns
    rw [List.flatMap_cons]
    obtain hanswer | ⟨hsize, x, hx, hanswer⟩ := visit_pass d min n s
    · rw [show answer = _ from hanswer]
      obtain ⟨reports, hreports⟩ := ihGo hns
      exact ⟨reports, hreports.mono fun m hm ↦ List.mem_cons_of_mem _ hm⟩
    · rw [show answer = _ from hanswer]
      obtain ⟨reports, hreports⟩ := exists_reports_check (d := d) hsize hx
      obtain ⟨reports', hreports'⟩ := ihSkip (hns.filter _)
      exact ⟨reports ++ reports', hreports.append hreports' hn⟩

/-- What is said of an operation that is found in the expression of a node, in the severity of the
pass. The operation comes from `m`. -/
def Tells (d : Document) (min : Nat) (severity : Severity) (x : Diagnostic) (m : Node) : Prop :=
  ∃ n ∈ d.nodes, n.kind = .expression ∧ ∃ o, IsFound d min n o ∧ o.origin.node = m.id ∧
    x = (Finding.atNode d n (message d n o)).toDiagnostic info.code severity

/-- The nodes of a document are listed in the order of their numbers. -/
theorem pairwise_id_nodes (d : Document) : d.nodes.Pairwise fun n m ↦ n.id < m.id := by
  have h : (d.nodes.map Node.id).Pairwise (· < ·) := by
    rw [Document.nodes, Node.map_id_preorderAll_place]
    exact List.pairwise_lt_range'
  exact List.pairwise_map.1 h

/-- The whole course of the pass, where the tree is listed from its root. -/
theorem exists_reports_course (hroot : d.root.preorder = d.nodes) (min : Nat) :
    ∃ reports, AreReports d min (d.nodes.filter (·.kind = .expression))
      ((pass min).course d).findings reports := by
  have hsorted := (pairwise_id_nodes d).filter (·.kind = .expression)
  obtain ⟨reports, hreports⟩ := exists_reports_visits d min _ () hsorted
  refine ⟨reports, ?_⟩
  have hkinds : d.root.preorder.filter (·.kind ∈ (pass min).kinds) =
      d.nodes.filter (·.kind = .expression) := by
    rw [hroot]
    exact List.filter_congr fun n _ ↦ by simp [pass]
  rw [← hkinds] at hreports ⊢
  exact hreports

/-- What there is for each element of a list can be listed. -/
theorem exists_forall₂ {α β : Type} {R : α → β → Prop} {xs : List α} (h : ∀ x ∈ xs, ∃ y, R x y) :
    ∃ ys, List.Forall₂ R xs ys := by
  induction xs with
  | nil => exact ⟨[], .nil⟩
  | cons x xs ih =>
    obtain ⟨⟨y, hy⟩, hxs⟩ := List.forall_mem_cons.1 h
    obtain ⟨ys, hys⟩ := ih hxs
    exact ⟨y :: ys, .cons hy hys⟩

/-- Findings about operations from different nodes can be assigned to these nodes. -/
theorem AreReports.exists_nodes {min : Nat} {findings : List Finding}
    {reports : List (Node × Operation)}
    (h : AreReports d min (d.nodes.filter (·.kind = .expression)) findings reports)
    (severity : Severity) :
    ∃ ms : List Node, ms.Nodup ∧ (∀ m ∈ ms, m ∈ d.nodes ∧ m.kind = .operation) ∧
      List.Forall₂ (Tells d min severity)
        (findings.map (·.toDiagnostic info.code severity)) ms := by
  have hnode : ∀ r ∈ reports, ∃ m, (m ∈ d.nodes ∧ m.kind = .operation) ∧
      r.2.origin.node = m.id ∧ Tells d min severity
        ((Finding.atNode d r.1 (message d r.1 r.2)).toDiagnostic info.code severity) m := by
    intro r hr
    obtain ⟨hn, hfound, m, hm, hkind, hid⟩ := h.found r hr
    obtain ⟨hn, hexpression⟩ := List.mem_filter.1 hn
    exact ⟨m, ⟨Node.mem_nodes_of_mem_preorder hn hm, hkind⟩, hid, r.1, hn,
      of_decide_eq_true hexpression, r.2, hfound, hid, rfl⟩
  obtain ⟨ms, hms⟩ := exists_forall₂ hnode
  have hids : reports.map (·.2.origin.node) = ms.map Node.id :=
    map_eq_map_iff_forall₂.2 (hms.imp fun _ _ h ↦ h.2.1)
  refine ⟨ms, List.Nodup.of_map Node.id (hids ▸ h.nodup), fun m hm ↦ ?_, ?_⟩
  · obtain ⟨r, -, hmem, -⟩ := exists_of_mem_right hms hm
    exact hmem
  · rw [h.findings_eq, List.map_map, List.forall₂_map_left_iff]
    exact hms.imp fun _ _ h ↦ h.2.2

/-- Among other passes, the pass finds what it finds alone. -/
theorem filter_run_eq {σ : Type} {min : Nat} {r : Runner σ} {s : σ} {severity : Severity}
    (hr : r.passes.filter (·.pass.code = info.code) = [⟨(pass min).withState s, severity⟩]) :
    (r.run d).filter (·.code = info.code) = Diagnostic.sorted
      (((pass min).course d).findings.map (·.toDiagnostic info.code severity)) := by
  obtain ⟨hranked, hfound, -⟩ := Entry.led_eq_course (d := d)
    ⟨(pass min).withState s, severity⟩ (List.nodup_singleton _)
  rw [r.filter_code_run, hr, List.flatMap_singleton, Entry.diagnostics, hranked, hfound,
    Pass.findings_course_withState]
  rfl

end IdenticalExpressions

open IdenticalExpressions in
/-- **No operation is reported twice.** Whatever else is run, the diagnostics of the rule about
equal operands can be assigned to different operations of the tree, each to the one that it tells
of. So there are no more of them than operations. -/
theorem Runner.operations_are_reported_once {σ : Type} (text : String) (min : Nat) (r : Runner σ)
    (s : σ) (severity : Severity)
    (hr : r.passes.filter (·.pass.code = info.code) = [⟨(pass min).withState s, severity⟩]) :
    ∃ ms : List Node, ms.Nodup ∧
      (∀ m ∈ ms, m ∈ (Document.ofText text).nodes ∧ m.kind = .operation) ∧
      List.Forall₂ (Tells (.ofText text) min severity)
        ((r.run (.ofText text)).filter (·.code = info.code)) ms ∧
      ((r.run (.ofText text)).filter (·.code = info.code)).length ≤
        (Document.ofText text).countKind .operation := by
  obtain ⟨reports, hreports⟩ := exists_reports_course (Document.regular_ofText text).nodes_eq min
  obtain ⟨ms, hnodup, hms, htells⟩ := hreports.exists_nodes severity
  rw [filter_run_eq hr]
  -- The diagnostics are sorted, and the nodes with them.
  obtain ⟨ms', htells', hperm⟩ := List.perm_comp_forall₂
    (Diagnostic.isStableSort_sorted _).perm htells
  have hms' : ∀ m ∈ ms', m ∈ (Document.ofText text).nodes ∧ m.kind = .operation :=
    fun m hm ↦ hms m (hperm.subset hm)
  have hnodup' : ms'.Nodup := hperm.nodup_iff.2 hnodup
  refine ⟨ms', hnodup', hms', htells', ?_⟩
  rw [htells'.length_eq, Document.countKind, List.countP_eq_length_filter]
  refine (List.subperm_of_subset hnodup' fun m hm ↦ ?_).length_le
  exact List.mem_filter.2 ⟨(hms' m hm).1, decide_eq_true (hms' m hm).2⟩

open IdenticalExpressions in
/-- Beside a pass that breaks down, two operations are found where one stands in an argument of the
other. The argument is an expression of its own, but is not told of again. -/
theorem Runner.operation_in_argument_is_reported_once :
    ∃ (r : Runner Unit) (d : Document) (ms : List Node),
      r = ⟨[⟨.crashing, .error⟩, ⟨pass 3, .warning⟩]⟩ ∧
      d = Document.ofText "Х=А=А И Ф(Б=Б);" ∧ ms.Nodup ∧
      List.Forall₂ (Tells d 3 .warning) ((r.run d).filter (·.code = info.code)) ms ∧
      ms.length = 2 ∧ d.countKind .operation = 3 := by
  obtain ⟨r, hr⟩ : ∃ r : Runner Unit, r = ⟨[⟨.crashing, .error⟩, ⟨pass 3, .warning⟩]⟩ := ⟨_, rfl⟩
  obtain ⟨d, hd⟩ : ∃ d, d = Document.ofText "Х=А=А И Ф(Б=Б);" := ⟨_, rfl⟩
  have hpass : r.passes.filter (·.pass.code = info.code) = [⟨(pass 3).withState (), .warning⟩] := by
    rw [hr]
    rfl
  have hcount : ((pass 3).course d).findings.length = 2 ∧ d.countKind .operation = 3 := by
    rw [hd, Document.ofText_eq_evaluated]
    decide +kernel
  obtain ⟨ms, hnodup, -, htells, -⟩ :=
    r.operations_are_reported_once "Х=А=А И Ф(Б=Б);" 3 () .warning hpass
  rw [← hd] at htells
  refine ⟨r, d, ms, hr, hd, hnodup, htells, ?_, hcount.2⟩
  rw [← htells.length_eq, filter_run_eq hpass, (Diagnostic.isStableSort_sorted _).perm.length_eq,
    List.length_map, hcount.1]

end BslLint
