import BslLint.Proofs.Syntax.Below

/-!
# Walking and listing

A walk tells the visitor when it goes down to a node and when it comes up again. `Node.events` is
the list of all this, with the answers that were given on the way down; as these may depend on
whatever the visitor remembers, nothing is assumed of them.

The walk follows the tree and the listing a list of what is still to be seen. They agree on the
order (`Node.walk_follows_preorder`): what is entered is the listing without all that stands below a
node where the visitor wanted to leave out the children, up to the first node where it wanted to
stop. And what is entered is left at the right time, but for the nodes that the visitor stopped in.

The two are compared by way of `Visitor.Event.Record`, which says what the events at a list of nodes
may be like and does not mention the visitor. Everything else is an induction over it, in which
`Node.InOrder` keeps the numbers of different nodes apart.
-/

namespace BslLint

namespace Visitor

/-- What happens on a walk. -/
inductive Event where
  /-- A node is entered, and that is answered. -/
  | enter (n : Node) (answer : Control)
  /-- A node is left. -/
  | leave (n : Node)

variable {σ : Type}

/-- The visitor, with a list of what has happened. -/
def recorded (v : Visitor σ) : Visitor (σ × List Event) where
  enter n := fun (s, log) ↦ ((v.enter n s).1, (v.enter n s).2, log ++ [.enter n (v.enter n s).1])
  leave n := fun (s, log) ↦ (v.leave n s, log ++ [.leave n])

namespace Event

/-- Where it happens. -/
def node : Event → Node
  | enter n _ => n
  | leave n => n

/-- The node that is entered. -/
def entered? : Event → Option Node
  | enter n _ => some n
  | leave _ => none

/-- Whether a node is not to be seen, as it stands below one whose children are left out. -/
def hides (m : Node) : Event → Bool
  | enter n .skipChildren => m.IsBelow n
  | _ => false

/-- Whether the walk ends at a node. -/
def stopsAt (m : Node) : Event → Bool
  | enter n .stop => n.id = m.id
  | _ => false

/-- Whether the visitor stops at a node. -/
def stops (es : List Event) (m : Node) : Bool := es.any (stopsAt m)

/-- Whether a node is to be seen. -/
def shown (es : List Event) (m : Node) : Bool := !es.any (hides m)

/-- A node is left once, when all that was entered below it has been left, and before anything
behind it is entered: what comes later is behind it, or the leave of a node that it stands below. -/
def Encloses (m : Node) (es : List Event) : Prop :=
  ∃ before answer inside after, es = before ++ enter m answer :: (inside ++ leave m :: after) ∧
    (∀ e ∈ before, e.node.id < m.id) ∧
    (∀ e ∈ inside, e.node.IsBelow m) ∧
    (∀ n a, enter n a ∈ inside → leave n ∈ inside) ∧
    ∀ e ∈ after, m.id + m.size ≤ e.node.id ∨ ∃ n, e = leave n ∧ m.IsBelow n

/-- What may happen at the nodes of a list, one after the other. It ends with `false` in a stop. -/
inductive Record : Bool → List Node → List Event → Prop where
  | nil : Record true [] []
  | stop (n : Node) (pending : List Node) : Record false (n :: pending) [enter n .stop]
  | skip {b : Bool} {n : Node} {pending : List Node} {es : List Event} (h : Record b pending es) :
    Record b (n :: pending) (enter n .skipChildren :: leave n :: es)
  | broken {n : Node} {pending : List Node} {es : List Event} (h : Record false n.children es) :
    Record false (n :: pending) (enter n .continue_ :: es)
  | through {b : Bool} {n : Node} {pending : List Node} {ds es : List Event}
    (hbelow : Record true n.children ds) (h : Record b pending es) :
    Record b (n :: pending) (enter n .continue_ :: (ds ++ leave n :: es))

end Event

/-! ### The steps of a walk -/

section

variable {v : Visitor σ} {id first : Nat} {t : Tree} {s s' : σ}

/-- Where the visitor stops, the walk is at its end. -/
theorem walkTree_of_stop (h : v.enter ⟨id, first, t⟩ s = (.stop, s')) :
    v.walkTree id first t s = (false, s') := by
  rcases t with x | ⟨k, cs⟩ <;> rw [walkTree, h]

/-- Where it leaves out the children, the node is left at once. -/
theorem walkTree_of_skipChildren (h : v.enter ⟨id, first, t⟩ s = (.skipChildren, s')) :
    v.walkTree id first t s = (true, v.leave ⟨id, first, t⟩ s') := by
  rcases t with x | ⟨k, cs⟩ <;> rw [walkTree, h]

/-- A node is left if the walk through its children did not end early. -/
theorem walkTree_of_continue (h : v.enter ⟨id, first, t⟩ s = (.continue_, s')) {b : Bool} {s'' : σ}
    (hchildren : v.walkTrees (id + 1) first t.children s' = (b, s'')) :
    v.walkTree id first t s = (b, bif b then v.leave ⟨id, first, t⟩ s'' else s'') := by
  rcases t with x | ⟨k, cs⟩
  · rw [Tree.children, walkTrees] at hchildren
    obtain ⟨rfl, rfl⟩ := Prod.mk.inj hchildren
    rw [walkTree, h]
    rfl
  · rw [Tree.children] at hchildren
    rw [walkTree, h]
    dsimp only
    rw [hchildren]
    rcases b with _ | _ <;> rfl

end

/-! ### Walks are recorded -/

variable (v : Visitor σ)

open Event

/-- The walk of the recording visitor is that of the visitor itself, with some more events. -/
def Adds (es : List Event) (walk : Bool × σ) (log : List Event) (recorded : Bool × σ × List Event) :
    Prop :=
  recorded = (walk.1, walk.2, log ++ es)

/-- The events of a tree come before those of the trees behind it, if it comes to these. -/
def Leads (b : Bool) (n : Node) (es : List Event) : Prop :=
  match b with
  | false => ∀ pending, Record false (n :: pending) es
  | true => ∀ b pending ds, Record b pending ds → Record b (n :: pending) (es ++ ds)

theorem Leads.record {b : Bool} {n : Node} {es : List Event} (h : Leads b n es) :
    Record b [n] es := by
  rcases b with _ | _
  · exact h []
  · rw [← List.append_nil es]
    exact h true [] [] .nil

variable {v} in
/-- What happens at a node is told by what happens at its children. -/
theorem exists_record_of_children {id first : Nat} {t : Tree}
    (hchildren : ∀ s log, ∃ es,
      Adds es (v.walkTrees (id + 1) first t.children s) log
        (v.recorded.walkTrees (id + 1) first t.children (s, log)) ∧
      Record (v.walkTrees (id + 1) first t.children s).1
        (Node.place (id + 1) first t.children) es) (s : σ) (log : List Event) :
    ∃ es, Adds es (v.walkTree id first t s) log (v.recorded.walkTree id first t (s, log)) ∧
      Leads (v.walkTree id first t s).1 ⟨id, first, t⟩ es := by
  -- One case for each of the three answers of the visitor.
  rcases henter : v.enter ⟨id, first, t⟩ s with ⟨_ | _ | _, s'⟩
  · have hentered : v.recorded.enter ⟨id, first, t⟩ (s, log) =
        (.continue_, s', log ++ [.enter ⟨id, first, t⟩ .continue_]) := by
      simp only [recorded, henter]
    obtain ⟨es, hwalk, hrecord⟩ := hchildren s' (log ++ [.enter ⟨id, first, t⟩ .continue_])
    rcases hcs : v.walkTrees (id + 1) first t.children s' with ⟨_ | _, s''⟩
    all_goals
      rw [hcs] at hwalk hrecord
      rw [walkTree_of_continue henter hcs, walkTree_of_continue hentered hwalk]
    · exact ⟨.enter ⟨id, first, t⟩ .continue_ :: es, by simp [Adds], fun _ ↦ .broken hrecord⟩
    · refine ⟨.enter ⟨id, first, t⟩ .continue_ :: (es ++ [.leave ⟨id, first, t⟩]),
        by simp [Adds, recorded], fun b pending ds hds ↦ ?_⟩
      rw [List.cons_append, List.append_assoc]
      exact .through hrecord hds
  · have hentered : v.recorded.enter ⟨id, first, t⟩ (s, log) =
        (.skipChildren, s', log ++ [.enter ⟨id, first, t⟩ .skipChildren]) := by
      simp only [recorded, henter]
    rw [walkTree_of_skipChildren henter, walkTree_of_skipChildren hentered]
    exact ⟨[.enter ⟨id, first, t⟩ .skipChildren, .leave ⟨id, first, t⟩], by simp [Adds, recorded],
      fun b pending ds ↦ .skip⟩
  · have hentered : v.recorded.enter ⟨id, first, t⟩ (s, log) =
        (.stop, s', log ++ [.enter ⟨id, first, t⟩ .stop]) := by
      simp only [recorded, henter]
    rw [walkTree_of_stop henter, walkTree_of_stop hentered]
    exact ⟨[.enter ⟨id, first, t⟩ .stop], rfl, .stop _⟩

mutual

theorem exists_record_walkTree (id first : Nat) : ∀ (t : Tree) (s : σ) (log : List Event),
    ∃ es, Adds es (v.walkTree id first t s) log (v.recorded.walkTree id first t (s, log)) ∧
      Leads (v.walkTree id first t s).1 ⟨id, first, t⟩ es
  | .leaf x => exists_record_of_children fun s log ↦
      ⟨[], by rw [Adds, List.append_nil]; rfl, .nil⟩
  | .node k cs => exists_record_of_children (exists_record_walkTrees (id + 1) first cs)

/-- **The events of a walk through trees** are such as may happen there. -/
theorem exists_record_walkTrees (id first : Nat) : ∀ (cs : List Tree) (s : σ) (log : List Event),
    ∃ es, Adds es (v.walkTrees id first cs s) log (v.recorded.walkTrees id first cs (s, log)) ∧
      Record (v.walkTrees id first cs s).1 (Node.place id first cs) es
  | [] => fun s log ↦ ⟨[], by rw [Adds, List.append_nil]; rfl, .nil⟩
  | c :: cs => fun s log ↦ by
    obtain ⟨ds, hwalk, hleads⟩ := exists_record_walkTree id first c s log
    rw [walkTrees, walkTrees, hwalk]
    rcases hc : v.walkTree id first c s with ⟨_ | _, s'⟩
    all_goals rw [hc] at hleads
    · exact ⟨ds, rfl, hleads _⟩
    · obtain ⟨es, hrest, hrecord⟩ := exists_record_walkTrees (id + c.size) (first + c.width) cs s'
        (log ++ ds)
      refine ⟨ds ++ es, ?_, hleads _ _ _ hrecord⟩
      rw [Adds, ← List.append_assoc]
      exact hrest

end

/-! ### Cutting a list short -/

/-- The elements of a list up to the first with a property. -/
def upTo {α : Type} (p : α → Bool) : List α → List α
  | [] => []
  | a :: as => a :: bif p a then [] else upTo p as

section

variable {α : Type} {p : α → Bool} {as bs : List α}

theorem upTo_cons_of_eq_false {a : α} (h : p a = false) : upTo p (a :: as) = a :: upTo p as := by
  rw [upTo, h, cond_false]

/-- Cutting a list short adds nothing. -/
theorem mem_of_mem_upTo {a : α} (h : a ∈ upTo p as) : a ∈ as := by
  induction as with
  | nil => exact h
  | cons b as ih =>
    rw [upTo] at h
    rcases List.mem_cons.1 h with rfl | h
    · exact List.mem_cons_self
    · refine List.mem_cons_of_mem b (ih ?_)
      rcases hb : p b <;> rw [hb] at h
      · exact h
      · exact absurd h List.not_mem_nil

/-- Where no element has the property, nothing is cut. -/
theorem upTo_append_of_forall (h : ∀ a ∈ as, p a = false) :
    upTo p (as ++ bs) = as ++ upTo p bs := by
  induction as with
  | nil => rfl
  | cons a as ih =>
    rw [List.cons_append, upTo_cons_of_eq_false (h a List.mem_cons_self),
      ih fun b hb ↦ h b (List.mem_cons_of_mem a hb), List.cons_append]

/-- Without an element to stop at the list stays whole. -/
theorem upTo_of_forall (h : ∀ a ∈ as, p a = false) : upTo p as = as := by
  have happend : upTo p (as ++ []) = as ++ upTo p [] := upTo_append_of_forall h
  rwa [List.append_nil, upTo, List.append_nil] at happend

/-- Behind an element with the property, everything is cut. -/
theorem upTo_append_of_mem {a : α} (ha : a ∈ as) (h : p a = true) :
    upTo p (as ++ bs) = upTo p as := by
  induction as with
  | nil => exact absurd ha List.not_mem_nil
  | cons b as ih =>
    rw [List.cons_append, upTo, upTo]
    rcases hb : p b
    · rcases List.mem_cons.1 ha with rfl | ha
      · exact absurd h (by simp [hb])
      · rw [cond_false, cond_false, ih ha]
    · rw [cond_true, cond_true]

end

namespace Event

variable {m : Node} {es : List Event}

theorem mem_filterMap_entered : m ∈ es.filterMap entered? ↔ ∃ a, enter m a ∈ es := by
  rw [List.mem_filterMap]
  constructor
  · rintro ⟨⟨n, a⟩ | n, he, hm⟩
    · exact ⟨a, Option.some.inj hm ▸ he⟩
    · exact absurd hm (Option.some_ne_none m).symm
  · rintro ⟨a, ha⟩
    exact ⟨_, ha, rfl⟩

/-- The visitor stops at a node if it answers so when it enters it. -/
theorem stops_iff : stops es m = true ↔ ∃ n, enter n .stop ∈ es ∧ n.id = m.id := by
  rw [stops, List.any_eq_true]
  constructor
  · rintro ⟨⟨n, _ | _ | _⟩ | n, he, hstops⟩
    case enter.stop => exact ⟨n, he, of_decide_eq_true hstops⟩
    all_goals exact absurd hstops Bool.false_ne_true
  · rintro ⟨n, hn, hid⟩
    exact ⟨_, hn, decide_eq_true hid⟩

/-- A node is not to be seen if it stands below one whose children are left out. -/
theorem shown_eq_false_iff :
    shown es m = false ↔ ∃ n, enter n .skipChildren ∈ es ∧ m.IsBelow n := by
  rw [shown, Bool.not_eq_false', List.any_eq_true]
  constructor
  · rintro ⟨⟨n, _ | _ | _⟩ | n, he, hhides⟩
    case enter.skipChildren => exact ⟨n, he, of_decide_eq_true hhides⟩
    all_goals exact absurd hhides Bool.false_ne_true
  · rintro ⟨n, hn, hbelow⟩
    exact ⟨_, hn, decide_eq_true hbelow⟩

theorem stops_of_mem (h : enter m .stop ∈ es) : stops es m = true := stops_iff.2 ⟨m, h, rfl⟩

theorem stops_of_forall (h : ∀ e ∈ es, e.node.id ≠ m.id) : stops es m = false := by
  refine Bool.eq_false_iff.2 fun hstops ↦ ?_
  obtain ⟨n, hn, hid⟩ := stops_iff.1 hstops
  exact h _ hn hid

/-- What happens elsewhere does not keep a node from being seen. -/
theorem shown_of_forall (h : ∀ e ∈ es, ¬m.IsBelow e.node) : shown es m = true := by
  refine Bool.of_not_eq_false fun hhidden ↦ ?_
  obtain ⟨n, hn, hbelow⟩ := shown_eq_false_iff.1 hhidden
  exact h _ hn hbelow

/-- Whether a node is to be seen does not depend on what happens further on. -/
theorem shown_of_le (h : ∀ e ∈ es, m.id ≤ e.node.id) : shown es m = true :=
  shown_of_forall fun e he hbelow ↦ absurd hbelow.1 (Nat.not_lt.2 (h e he))

/-- A node whose children are left out hides those below it, and what follows may hide more. -/
theorem shown_skip (n m : Node) (es : List Event) :
    shown (enter n .skipChildren :: leave n :: es) m = (!decide (m.IsBelow n) && shown es m) := by
  rw [shown, shown, ← Bool.not_or]
  rfl

/-- A node that is gone through hides nothing itself. -/
theorem shown_through (n m : Node) (ds es : List Event) :
    shown (enter n .continue_ :: (ds ++ leave n :: es)) m = (shown ds m && shown es m) := by
  rw [shown, shown, shown, ← Bool.not_or, List.any_cons, List.any_append]
  rfl

/-- Nor does the visitor stop at it. -/
theorem stops_through (n m : Node) (ds es : List Event) :
    stops (enter n .continue_ :: (ds ++ leave n :: es)) m = (stops ds m || stops es m) := by
  rw [stops, List.any_cons, List.any_append]
  rfl

/-- The visitor stops at a node or below it. -/
def StopsIn (m : Node) (es : List Event) : Prop :=
  ∃ n, enter n .stop ∈ es ∧ m.id ≤ n.id ∧ n.id < m.id + m.size

theorem StopsIn.mono {es' : List Event} (hsub : es ⊆ es') (h : StopsIn m es) : StopsIn m es' := by
  obtain ⟨n, hn, hids⟩ := h
  exact ⟨n, hsub hn, hids⟩

/-- More may happen before and behind. -/
theorem Encloses.between (h : Encloses m es) (xs ys : List Event)
    (hxs : ∀ e ∈ xs, e.node.id < m.id)
    (hys : ∀ e ∈ ys, m.id + m.size ≤ e.node.id ∨ ∃ n, e = leave n ∧ m.IsBelow n) :
    Encloses m (xs ++ (es ++ ys)) := by
  obtain ⟨before, a, inside, after, rfl, hbefore, hinside, hleft, hafter⟩ := h
  refine ⟨xs ++ before, a, inside, after ++ ys, by simp, ?_, hinside, hleft, ?_⟩
  · exact List.forall_mem_append.2 ⟨hxs, hbefore⟩
  · exact List.forall_mem_append.2 ⟨hafter, hys⟩

theorem Encloses.behind (h : Encloses m es) (xs : List Event) (hxs : ∀ e ∈ xs, e.node.id < m.id) :
    Encloses m (xs ++ es) := by
  have henclosed := h.between xs [] hxs (List.forall_mem_nil _)
  rwa [List.append_nil] at henclosed

namespace Record

variable {b : Bool} {ns : List Node}

open Node

/-- Something happens only at the nodes that are listed. -/
theorem node_mem (h : Record b ns es) : ∀ e ∈ es, e.node ∈ preorderAll ns := by
  -- The induction is on the record, whose cases are the ways in which a node is gone through.
  induction h with
  | nil => exact List.forall_mem_nil _
  | stop n pending =>
    rw [List.forall_mem_singleton, preorderAll_eq_append]
    exact List.mem_cons_self
  | skip h ih =>
    rw [List.forall_mem_cons, List.forall_mem_cons, preorderAll_eq_append]
    exact ⟨List.mem_cons_self, List.mem_cons_self, fun e he ↦
      List.mem_cons_of_mem _ (List.mem_append_right _ (ih e he))⟩
  | broken h ih =>
    rw [List.forall_mem_cons, preorderAll_eq_append]
    exact ⟨List.mem_cons_self, fun e he ↦
      List.mem_cons_of_mem _ (List.mem_append_left _ (ih e he))⟩
  | through hbelow h ihbelow ih =>
    rw [List.forall_mem_cons, List.forall_mem_append, List.forall_mem_cons, preorderAll_eq_append]
    exact ⟨List.mem_cons_self,
      fun e he ↦ List.mem_cons_of_mem _ (List.mem_append_left _ (ihbelow e he)),
      List.mem_cons_self,
      fun e he ↦ List.mem_cons_of_mem _ (List.mem_append_right _ (ih e he))⟩

/-- What happens below a node has its numbers among those of the node. -/
theorem ids_of_children {n : Node} (h : Record b n.children es) {e : Event} (he : e ∈ es) :
    n.id < e.node.id ∧ e.node.id + e.node.size ≤ n.id + n.size :=
  ids_of_mem_preorderAll_children (h.node_mem e he)

/-- What happens behind a node has greater numbers. -/
theorem le_id_of_pending {n : Node} {pending : List Node} (h : Record b pending es)
    (hns : InOrder (n :: pending)) {e : Event} (he : e ∈ es) : n.id + n.size ≤ e.node.id :=
  hns.le_id (h.node_mem e he)

/-- It ends in a stop or not at all. -/
theorem eq_false_iff (h : Record b ns es) : b = false ↔ ∃ m, enter m .stop ∈ es := by
  induction h with
  | nil => simp
  | stop n pending => simp
  | skip h ih => simpa using ih
  | broken h ih => simpa using ih
  | @through b n pending ds es hbelow h ihbelow ih =>
    have hnone : ∀ m, enter m .stop ∉ ds := by simpa using ihbelow.not
    simpa [hnone] using ih

theorem not_stop_mem (h : Record true ns es) (m : Node) : enter m .stop ∉ es := fun hm ↦
  absurd (h.eq_false_iff.2 ⟨m, hm⟩) (by decide)

/-- Only what was entered is left. -/
theorem enter_of_leave (h : Record b ns es) (hm : leave m ∈ es) : ∃ a, enter m a ∈ es := by
  induction h with
  | nil => exact absurd hm List.not_mem_nil
  | stop n pending => exact absurd hm (by simp)
  | skip h ih =>
    -- Both events of a node stand in one case of the record.
    simp only [List.mem_cons, reduceCtorEq, leave.injEq, false_or] at hm
    rcases hm with rfl | hm
    · exact ⟨_, List.mem_cons_self⟩
    · obtain ⟨a, ha⟩ := ih hm
      exact ⟨a, by simp [ha]⟩
  | broken h ih =>
    obtain ⟨a, ha⟩ := ih (by simpa using hm)
    exact ⟨a, List.mem_cons_of_mem _ ha⟩
  | through hbelow h ihbelow ih =>
    simp only [List.mem_cons, List.mem_append, reduceCtorEq, leave.injEq, false_or] at hm
    rcases hm with hm | rfl | hm
    · obtain ⟨a, ha⟩ := ihbelow hm
      exact ⟨a, by simp [ha]⟩
    · exact ⟨_, List.mem_cons_self⟩
    · obtain ⟨a, ha⟩ := ih hm
      exact ⟨a, by simp [ha]⟩

/-- Where nobody stops, all that is entered is left. -/
theorem leave_of_enter (h : Record b ns es) (hb : b = true) {a : Control} (hm : enter m a ∈ es) :
    leave m ∈ es := by
  induction h generalizing a with
  | nil => exact absurd hm List.not_mem_nil
  | stop n pending => exact absurd hb (by decide)
  | skip h ih =>
    simp only [List.mem_cons, enter.injEq, reduceCtorEq, false_or] at hm
    rcases hm with ⟨rfl, -⟩ | hm
    · simp
    · simp [ih hb hm]
  | broken h ih => exact absurd hb (by decide)
  | through hbelow h ihbelow ih =>
    simp only [List.mem_cons, List.mem_append, enter.injEq, reduceCtorEq, false_or] at hm
    rcases hm with ⟨rfl, -⟩ | hm | hm
    · simp
    · simp [ihbelow rfl hm]
    · simp [ih hb hm]

/-- A node that the visitor stops in is not left. -/
theorem leave_notMem (h : Record b ns es) (hns : InOrder ns) (hm : StopsIn m es) :
    leave m ∉ es := by
  obtain ⟨k, hk, hle, hlt⟩ := hm
  induction h with
  | nil => exact List.not_mem_nil
  | stop n pending => simp
  | skip h ih =>
    simp only [List.mem_cons, enter.injEq, reduceCtorEq, and_false, false_or] at hk
    simp only [List.mem_cons, leave.injEq, reduceCtorEq, false_or, not_or]
    refine ⟨?_, ih hns.tail hk⟩
    rintro rfl
    -- The node was left before what the visitor stopped in began.
    have hbehind := h.le_id_of_pending hns hk
    exact absurd hlt (Nat.not_lt.2 hbehind)
  | broken h ih =>
    simp only [List.mem_cons, enter.injEq, reduceCtorEq, and_false, false_or] at hk
    simpa using ih (inOrder_children _) hk
  | through hbelow h ihbelow ih =>
    simp only [List.mem_cons, List.mem_append, enter.injEq, reduceCtorEq, and_false, false_or,
      hbelow.not_stop_mem k] at hk
    have hbehind := h.le_id_of_pending hns hk
    simp only [List.mem_cons, List.mem_append, leave.injEq, reduceCtorEq, false_or, not_or]
    refine ⟨fun hmem ↦ ?_, ?_, ih hns.tail hk⟩
    · have hids := hbelow.ids_of_children hmem
      simp only [node] at hids hbehind
      omega
    · rintro rfl
      exact absurd hlt (Nat.not_lt.2 hbehind)

/-- A node is left at the right time, unless the visitor stops in it. -/
theorem encloses (h : Record b ns es) (hns : InOrder ns) {a : Control} (hm : enter m a ∈ es)
    (hstop : ¬StopsIn m es) : Encloses m es := by
  induction h generalizing a with
  | nil => exact absurd hm List.not_mem_nil
  | stop n pending =>
    obtain ⟨rfl, -⟩ := enter.inj (List.mem_singleton.1 hm)
    -- A node that the visitor stops at is not left at all.
    exact absurd ⟨m, List.mem_cons_self, Nat.le_refl _, Nat.lt_add_of_pos_right m.size_pos⟩ hstop
  | @skip b n pending es h ih =>
    simp only [List.mem_cons, enter.injEq, reduceCtorEq, false_or] at hm
    rcases hm with ⟨rfl, -⟩ | hm
    · exact ⟨[], .skipChildren, [], es, rfl, List.forall_mem_nil _, List.forall_mem_nil _, by simp,
        fun e he ↦ .inl (h.le_id_of_pending hns he)⟩
    · have hbehind := h.le_id_of_pending hns hm
      have hrest := ih hns.tail hm fun hs ↦ hstop (hs.mono (by simp))
      have hlt : n.id < m.id := Nat.lt_of_lt_of_le (Nat.lt_add_of_pos_right n.size_pos) hbehind
      exact hrest.behind [enter n .skipChildren, leave n] (by simp [node, hlt])
  | @broken n pending es h ih =>
    simp only [List.mem_cons, enter.injEq] at hm
    rcases hm with ⟨rfl, -⟩ | hm
    · -- The visitor has stopped somewhere below, so it has stopped in the node too.
      obtain ⟨k, hk⟩ := h.eq_false_iff.1 rfl
      have hids := h.ids_of_children hk
      have hpos := k.size_pos
      simp only [node] at hids
      exact absurd ⟨k, List.mem_cons_of_mem _ hk, by omega, by omega⟩ hstop
    · have hids := h.ids_of_children hm
      have hrest := ih (inOrder_children n) hm fun hs ↦ hstop (hs.mono (by simp))
      exact hrest.behind [enter n .continue_] (by simpa [node] using hids.1)
  | @through b n pending ds es hbelow h ihbelow ih =>
    simp only [List.mem_cons, List.mem_append, enter.injEq, reduceCtorEq, false_or] at hm
    rcases hm with ⟨rfl, -⟩ | hm | hm
    · refine ⟨[], .continue_, ds, es, rfl, List.forall_mem_nil _, fun e he ↦ ?_,
        fun k a hk ↦ hbelow.leave_of_enter rfl hk, fun e he ↦ .inl (h.le_id_of_pending hns he)⟩
      exact isBelow_of_mem_preorderAll_children (hbelow.node_mem e he)
    · have hids := hbelow.ids_of_children hm
      simp only [node] at hids
      have hmn : m.IsBelow n := isBelow_of_mem_preorderAll_children (hbelow.node_mem _ hm)
      have hrest := ihbelow (inOrder_children n) hm fun hs ↦ hstop (hs.mono (by simp))
      refine hrest.between [enter n .continue_] (leave n :: es) (by simpa [node] using hids.1)
        (List.forall_mem_cons.2 ⟨.inr ⟨n, rfl, hmn⟩, fun e he ↦ .inl ?_⟩)
      exact Nat.le_trans hids.2 (h.le_id_of_pending hns he)
    · have hbehind := h.le_id_of_pending hns hm
      simp only [node] at hbehind
      have hrest := ih hns.tail hm fun hs ↦ hstop (hs.mono fun e he ↦ by simp [he])
      have hlt : n.id < m.id := Nat.lt_of_lt_of_le (Nat.lt_add_of_pos_right n.size_pos) hbehind
      -- All that happened in front has to do with nodes of smaller numbers.
      have hearlier : ∀ e ∈ enter n .continue_ :: (ds ++ [leave n]), e.node.id < m.id := by
        refine List.forall_mem_cons.2 ⟨hlt, List.forall_mem_append.2 ⟨fun e he ↦ ?_, ?_⟩⟩
        · have hids := hbelow.ids_of_children he
          have hpos := e.node.size_pos
          omega
        · exact List.forall_mem_singleton.2 hlt
      simpa using hrest.behind _ hearlier

/-- A walk that comes to its end meets no stop. -/
theorem stops_of_through (h : Record true ns es) (m : Node) : stops es m = false := by
  refine Bool.eq_false_iff.2 fun hstops ↦ ?_
  obtain ⟨n, hn, -⟩ := stops_iff.1 hstops
  exact h.not_stop_mem n hn

section

variable {n : Node} {pending : List Node} {ds : List Event}

/-- Where the children of a node are left out, the node and what is to be seen behind it remain. -/
theorem filter_shown_skip (h : Record b pending es) (hns : InOrder (n :: pending)) :
    (preorderAll (n :: pending)).filter (shown (enter n .skipChildren :: leave n :: es)) =
      n :: (preorderAll pending).filter (shown es) := by
  -- Neither what was skipped nor what comes behind stops in the node itself.
  have hself : shown (enter n .skipChildren :: leave n :: es) n = true := by
    have hshown : shown es n = true :=
      shown_of_le fun e he ↦ Nat.le_trans (Nat.le_add_right _ _) (h.le_id_of_pending hns he)
    rw [shown_skip, hshown, decide_eq_false fun hn ↦ Nat.lt_irrefl _ hn.1]
    rfl
  have hchildren : (preorderAll n.children).filter
      (shown (enter n .skipChildren :: leave n :: es)) = [] :=
    List.filter_eq_nil_iff.2 fun m hm ↦ by
      rw [shown_skip, decide_eq_true (isBelow_of_mem_preorderAll_children hm)]
      exact Bool.false_ne_true
  have hpending : (preorderAll pending).filter
        (shown (enter n .skipChildren :: leave n :: es)) =
      (preorderAll pending).filter (shown es) :=
    List.filter_congr fun m hm ↦ by
      rw [shown_skip, decide_eq_false fun hn ↦ Nat.not_lt.2 (hns.le_id hm) hn.2]
      rfl
  rw [preorderAll_eq_append, List.filter_cons_of_pos hself, List.filter_append, hchildren,
    hpending, List.nil_append]

/-- What happens below a node tells what is to be seen there, what happens behind it the rest. -/
theorem filter_shown_through (hbelow : Record true n.children ds) (h : Record b pending es)
    (hns : InOrder (n :: pending)) :
    (preorderAll (n :: pending)).filter (shown (enter n .continue_ :: (ds ++ leave n :: es))) =
      n :: ((preorderAll n.children).filter (shown ds) ++
        (preorderAll pending).filter (shown es)) := by
  -- What comes behind has greater numbers than the node and all below it.
  have hbehind {m : Node} (hm : m.id < n.id + n.size) : shown es m = true :=
    shown_of_le fun e he ↦ Nat.le_of_lt (Nat.lt_of_lt_of_le hm (h.le_id_of_pending hns he))
  have hself : shown (enter n .continue_ :: (ds ++ leave n :: es)) n = true := by
    rw [shown_through, shown_of_le fun e he ↦ Nat.le_of_lt (hbelow.ids_of_children he).1,
      hbehind (Nat.lt_add_of_pos_right n.size_pos)]
    rfl
  have hchildren : (preorderAll n.children).filter
        (shown (enter n .continue_ :: (ds ++ leave n :: es))) =
      (preorderAll n.children).filter (shown ds) := by
    refine List.filter_congr fun m hm ↦ ?_
    rw [shown_through, hbehind (isBelow_of_mem_preorderAll_children hm).2, Bool.and_true]
  have hpending : (preorderAll pending).filter
        (shown (enter n .continue_ :: (ds ++ leave n :: es))) =
      (preorderAll pending).filter (shown es) := by
    refine List.filter_congr fun m hm ↦ ?_
    have hle := hns.le_id hm
    have hshown : shown ds m = true := shown_of_forall fun e he hm ↦ by
      have hids := hbelow.ids_of_children he
      have hlt := hm.2
      omega
    rw [shown_through, hshown, Bool.true_and]
  rw [preorderAll_eq_append, List.filter_cons_of_pos hself, List.filter_append, hchildren, hpending]

end

/-- What is entered is the listing, as far as it is to be seen, up to the first stop. -/
theorem filterMap_entered (h : Record b ns es) (hns : InOrder ns) :
    es.filterMap entered? = upTo (stops es) ((preorderAll ns).filter (shown es)) := by
  induction h with
  | nil => rw [preorderAll]; rfl
  | stop n pending =>
    have hall : (preorderAll (n :: pending)).filter (shown [enter n .stop]) =
        preorderAll (n :: pending) := List.filter_eq_self.2 fun m _ ↦ rfl
    rw [hall, preorderAll_eq_append, upTo, stops_of_mem List.mem_cons_self]
    rfl
  | @skip b n pending es h ih =>
    have hpos := n.size_pos
    have hstop : stops es n = false := stops_of_forall fun e he ↦ by
      have hle := h.le_id_of_pending hns he
      omega
    have hsame : stops (enter n .skipChildren :: leave n :: es) = stops es := rfl
    rw [filter_shown_skip h hns, hsame, upTo_cons_of_eq_false hstop]
    exact congrArg (n :: ·) (ih hns.tail)
  | @broken n pending es h ih =>
    have hbelow : ∀ e ∈ es, n.id < e.node.id := fun e he ↦ (h.ids_of_children he).1
    have hself : shown es n = true := shown_of_le fun e he ↦ Nat.le_of_lt (hbelow e he)
    have hstop : stops es n = false := stops_of_forall fun e he ↦ (Nat.ne_of_lt (hbelow e he)).symm
    -- the stop is among the children that are to be seen, so nothing behind them is reached
    obtain ⟨k, hk⟩ := h.eq_false_iff.1 rfl
    have hseen : k ∈ (preorderAll n.children).filter (shown es) := by
      refine mem_of_mem_upTo (p := stops es) ?_
      rw [← ih (inOrder_children n)]
      exact mem_filterMap_entered.2 ⟨_, hk⟩
    show n :: es.filterMap entered? =
      upTo (stops es) ((preorderAll (n :: pending)).filter (shown es))
    rw [preorderAll_eq_append, List.filter_cons_of_pos hself, List.filter_append,
      upTo_cons_of_eq_false hstop, upTo_append_of_mem hseen (stops_of_mem hk),
      ih (inOrder_children n)]
  | @through b n pending ds es hbelow h ihbelow ih =>
    have hbehind {m : Node} (hm : m.id < n.id + n.size) : stops es m = false :=
      stops_of_forall fun e he ↦ by
        have hle := h.le_id_of_pending hns he
        omega
    have hstops : stops (enter n .continue_ :: (ds ++ leave n :: es)) = stops es :=
      funext fun m ↦ by rw [stops_through, hbelow.stops_of_through, Bool.false_or]
    -- nobody stops below the node, so all that is to be seen there is entered
    have hchildren : (preorderAll n.children).filter (shown ds) = ds.filterMap entered? := by
      rw [ihbelow (inOrder_children n), upTo_of_forall fun m _ ↦ hbelow.stops_of_through m]
    have hnone : ∀ m ∈ ds.filterMap entered?, stops es m = false := fun m hm ↦ by
      obtain ⟨a, ha⟩ := mem_filterMap_entered.1 hm
      exact hbehind (isBelow_of_mem_preorderAll_children (hbelow.node_mem _ ha)).2
    rw [filter_shown_through hbelow h hns, hchildren, hstops,
      upTo_cons_of_eq_false (hbehind (Nat.lt_add_of_pos_right n.size_pos)),
      upTo_append_of_forall hnone, ← ih hns.tail]
    exact congrArg (n :: ·) List.filterMap_append

end Record

/-- What a walk through a node and all below it is like. -/
structure Follows (n : Node) (b : Bool) (es : List Event) : Prop where
  /-- It goes nowhere else. -/
  mem_preorder : ∀ e ∈ es, e.node ∈ n.preorder
  /-- The nodes that are entered are listed, without those below a node whose children are left out,
  and up to the first where the visitor stops. -/
  entered : es.filterMap entered? = upTo (stops es) (n.preorder.filter (shown es))
  /-- A node is left once and at the right time, unless the visitor stops in it. -/
  encloses : ∀ m a, enter m a ∈ es → ¬StopsIn m es → Encloses m es
  /-- A node that the visitor stops in is not left. -/
  leave_notMem : ∀ m, StopsIn m es → leave m ∉ es
  /-- A node that was not entered is not left. -/
  enter_of_leave : ∀ m, leave m ∈ es → ∃ a, enter m a ∈ es
  /-- The walk ends early only where the visitor stops. -/
  eq_false_iff : b = false ↔ ∃ m, enter m .stop ∈ es

theorem Record.follows {n : Node} {b : Bool} (h : Record b [n] es) : Follows n b es :=
  have hns : Node.InOrder [n] := List.pairwise_singleton _ _
  ⟨h.node_mem, h.filterMap_entered hns, fun _ _ hm ↦ h.encloses hns hm, fun _ ↦ h.leave_notMem hns,
    fun _ ↦ h.enter_of_leave, h.eq_false_iff⟩

end Event

end Visitor

/-- What happens on the walk of a visitor through a node and all below it. -/
def Node.events {σ : Type} (n : Node) (v : Visitor σ) (s : σ) : List Visitor.Event :=
  (n.walk v.recorded (s, [])).2.2

/-- **The walk enters the nodes that are listed**, in the order of the list, as far as the visitor
wants to see them, and leaves each of them when all below it is done. The walk with a list of what
happens is the walk of the visitor itself. -/
theorem Node.walk_follows_preorder {σ : Type} (n : Node) (v : Visitor σ) (s : σ) :
    n.walk v.recorded (s, []) = ((n.walk v s).1, (n.walk v s).2, n.events v s) ∧
      Visitor.Event.Follows n (n.walk v s).1 (n.events v s) := by
  obtain ⟨es, hwalk, hleads⟩ := Visitor.exists_record_walkTree v n.id n.first n.tree s []
  have hevents : n.events v s = es := congrArg (·.2.2) hwalk
  rw [hevents]
  exact ⟨hwalk, hleads.record.follows⟩

end BslLint
