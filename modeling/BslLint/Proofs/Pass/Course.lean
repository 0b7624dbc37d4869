import BslLint.Pass.Runner
import BslLint.Proofs.Syntax.Below

/-!
# The course of a pass through a document

What a pass does in a document can be told without a walk. It is called for the document as a whole;
if that went well, it is called at the nodes of its kinds in the order of the listing, but for those
below a node at which it asked to leave out the children; and the first stop or failure is its last
call. This is `Pass.course`, and it speaks of one pass alone.

The runner leads an `Entry` down and up a tree instead, with notes of what has to be waited for. The
two agree (`Entry.follow_through`) as long as no kind is listed twice, for then a node is entered
with at most one call. The induction is over trees, and its claim is about what is still to come: to
go through a tree and then follow the course over the rest is to follow the course over the nodes of
the tree and the rest. Where children are left out, the course drops them from its list, while the
entry goes through them without being called (`Entry.throughAll_of_idle`).
-/

namespace BslLint

variable {σ : Type}

/-! ### The course -/

/-- Whether a call is the last one. -/
def Outcome.isLast : Outcome → Bool
  | .done .continue_ | .done .skipChildren => false
  | .done .stop | .error | .crash => true

/-- Whether a pass could not do its work in a call. -/
def Outcome.isFailure : Outcome → Bool
  | .done _ => false
  | .error | .crash => true

/-- The nodes of a list that do not stand below a node. -/
def Node.leaveOut (n : Node) (ns : List Node) : List Node := ns.filter fun m ↦ ¬m.IsBelow n

/-- Of a listing that goes on behind a node, what goes on is left. -/
theorem Node.leaveOut_append {n : Node} {rest : List Node}
    (hrest : ∀ m ∈ rest, n.id + n.size ≤ m.id) :
    n.leaveOut (preorderAll n.children ++ rest) = rest := by
  have hbelow : n.leaveOut (preorderAll n.children) = [] :=
    List.filter_eq_nil_iff.2 fun m hm ↦ by simpa using isBelow_of_mem_preorderAll_children hm
  have hbehind : n.leaveOut rest = rest :=
    List.filter_eq_self.2 fun m hm ↦ by
      have hle := hrest m hm
      simp only [IsBelow, decide_eq_true_eq, not_and]
      omega
  rw [leaveOut, List.filter_append]
  exact congrArg₂ (· ++ ·) hbelow hbehind

namespace Pass

variable (p : Pass σ) (d : Document)

/-- The calls at the nodes of a list, as far as they are made, with what comes out of each. -/
def visits : List Node → σ → List (Node × Answer σ)
  | [], _ => []
  | n :: ns, s =>
    let answer := p.visit d n s
    (n, answer) ::
      match answer.outcome with
      | .done .continue_ => visits ns answer.state
      | .done .skipChildren => visits (n.leaveOut ns) answer.state
      | .done .stop | .error | .crash => []
termination_by ns => ns.length
decreasing_by
  · exact Nat.lt_succ_self _
  · exact Nat.lt_succ_of_le (List.length_filter_le _ _)

/-- All calls of a pass in a document with what comes out of each. -/
structure Course (σ : Type) where
  /-- The call for the document as a whole. -/
  file : Answer σ
  /-- The calls at nodes. -/
  visits : List (Node × Answer σ)

/-- What a pass does in a document that it has to itself. -/
def course : Course σ :=
  let file := p.checkFile d p.initial
  { file
    visits :=
      if file.outcome.isFailure then []
      else p.visits d (d.root.preorder.filter (·.kind ∈ p.kinds)) file.state }

namespace Course

variable (c : Course σ)

/-- Everything found in the course, be the last call a failure or not. -/
def findings : List Finding := c.file.findings ++ c.visits.flatMap (·.2.findings)

/-- The state in the end. -/
def state : σ := (c.visits.getLast?.map (·.2.state)).getD c.file.state

end Course

end Pass

/-! ### Following the course -/

namespace Entry

variable (d : Document) (e : Entry σ)

/-- Takes in what comes out of a call. -/
def take (answer : Pass.Answer σ) : Entry σ :=
  { e with
    state := answer.state
    found := e.found ++ answer.findings
    off := answer.outcome.isLast }

/-- The calls that are still to come at the nodes of a list, taken in. -/
def follow (ns : List Node) : Entry σ :=
  if e.off then e
  else (e.ranked.pass.visits d (ns.filter (·.kind ∈ e.ranked.pass.kinds)) e.state).foldl
    (fun e v ↦ e.take v.2) e

/-- What the runner relies on between two trees: no node is waited for, and no node is entered with
more than one call. -/
structure Ready : Prop where
  /-- No node is waited for. -/
  awake : e.skipped = none
  /-- No kind is listed twice. -/
  nodup : e.ranked.pass.kinds.Nodup

/-- The pass while it waits for a node to be done. -/
def pausedAt (n : Node) : Entry σ := { e with skipped := some n.id }

variable {d e}

theorem follow_nil : e.follow d [] = e := by
  rw [follow, List.filter_nil, Pass.visits]
  exact ite_self e

theorem follow_of_off (h : e.off = true) (ns : List Node) : e.follow d ns = e := if_pos h

theorem follow_cons_of_notMem {n : Node} (h : n.kind ∉ e.ranked.pass.kinds) (ns : List Node) :
    e.follow d (n :: ns) = e.follow d ns := by
  rw [follow, follow, List.filter_cons_of_neg (by simpa using h)]

/-- A call is taken in, and the course goes on with the nodes that the outcome leaves. -/
theorem follow_cons {n : Node} {answer : Pass.Answer σ}
    (hanswer : e.ranked.pass.visit d n e.state = answer) (hoff : e.off = false)
    (hn : n.kind ∈ e.ranked.pass.kinds) (ns : List Node) :
    e.follow d (n :: ns) = (e.take answer).follow d
      (if answer.outcome = .done .skipChildren then n.leaveOut ns else ns) := by
  rw [follow, if_neg (by simp [hoff]), List.filter_cons_of_pos (by simpa using hn), Pass.visits,
    hanswer, List.foldl_cons, follow]
  obtain ⟨findings, outcome, state⟩ := answer
  rcases outcome with (_ | _ | _) | _ | _
  · rfl
  -- the nodes below are left out before or after those of other kinds
  · exact congrArg (fun ns ↦ (e.ranked.pass.visits d ns state).foldl _ _) (List.filter_comm _ _ _)
  · rfl
  · rfl
  · rfl

/-! ### Going through a tree -/

/-- A pass that is switched off or waits is not called. -/
theorem enter_of_idle (h : (e.off || e.skipped.isSome) = true) (n : Node) : e.enter d n = e := by
  have hvisits (l : List Unit) : l.foldl (fun e _ ↦ e.visit d n) e = e := by
    induction l with
    | nil => rfl
    | cons _ _ ih => rw [List.foldl_cons, visit, if_pos h, ih]
  exact hvisits _

theorem enter_of_notMem {n : Node} (h : n.kind ∉ e.ranked.pass.kinds) : e.enter d n = e := by
  rw [enter, List.count_eq_zero_of_not_mem h]
  rfl

/-- A pass that lists the kind of a node once is called once at it. -/
theorem enter_of_mem {n : Node} (he : e.Ready) (hoff : e.off = false)
    (hn : n.kind ∈ e.ranked.pass.kinds) :
    e.enter d n = e.absorb n.id (e.ranked.pass.visit d n e.state) := by
  rw [enter, List.count_eq_one_of_mem he.nodup hn]
  exact if_neg (by simp [hoff, he.awake])

theorem absorb_eq (hoff : e.off = false) (n : Node) (answer : Pass.Answer σ) :
    e.absorb n.id answer =
      if answer.outcome = .done .skipChildren then (e.take answer).pausedAt n
      else e.take answer := by
  obtain ⟨findings, outcome, state⟩ := answer
  rcases outcome with (_ | _ | _) | _ | _ <;>
    simp [absorb, take, pausedAt, Outcome.isLast, hoff]

theorem leave_of_awake (h : e.skipped = none) (n : Node) : e.leave n = e := by
  simp [leave, h]

theorem leave_pausedAt (h : e.skipped = none) (n : Node) : (e.pausedAt n).leave n = e := by
  obtain ⟨ranked, state, found, skipped, off⟩ := e
  obtain rfl : skipped = none := h
  simp [leave, pausedAt]

/-- What entering a node comes to: either the course goes on with all nodes behind it, or it leaves
out those below, and the node is waited for. -/
theorem enter_ready (he : e.Ready) (n : Node) :
    ((e.enter d n).Ready ∧ ∀ ns, e.follow d (n :: ns) = (e.enter d n).follow d ns) ∨
      ∃ e' : Entry σ, e'.Ready ∧ e.enter d n = e'.pausedAt n ∧
        ∀ ns, e.follow d (n :: ns) = e'.follow d (n.leaveOut ns) := by
  rcases hoff : e.off with - | -
  · by_cases hn : n.kind ∈ e.ranked.pass.kinds
    · have htake : (e.take (e.ranked.pass.visit d n e.state)).Ready := ⟨he.awake, he.nodup⟩
      rw [enter_of_mem he hoff hn, absorb_eq hoff]
      have hfollow (ns : List Node) := follow_cons (d := d) rfl hoff hn ns
      split at hfollow
      -- one call is all there is at the node, so what it asks for is what happens
      next hskip =>
        rw [if_pos hskip]
        exact .inr ⟨_, htake, rfl, hfollow⟩
      next hskip =>
        rw [if_neg hskip]
        exact .inl ⟨htake, hfollow⟩
    · rw [enter_of_notMem hn]
      exact .inl ⟨he, follow_cons_of_notMem hn⟩
  · rw [enter_of_idle (by rw [hoff, Bool.true_or])]
    exact .inl ⟨he, fun ns ↦ (follow_of_off hoff _).trans (follow_of_off hoff ns).symm⟩

mutual

/-- Enters a tree that has its place, goes through what is below, and leaves it. -/
def through (d : Document) (id first : Nat) : Tree → Entry σ → Entry σ
  | .leaf t, e => (e.enter d ⟨id, first, .leaf t⟩).leave ⟨id, first, .leaf t⟩
  | .node k cs, e =>
    (throughAll d (id + 1) first cs (e.enter d ⟨id, first, .node k cs⟩)).leave
      ⟨id, first, .node k cs⟩

/-- Goes through trees that stand one behind the other. -/
def throughAll (d : Document) (id first : Nat) : List Tree → Entry σ → Entry σ
  | [], e => e
  | c :: cs, e => throughAll d (id + c.size) (first + c.width) cs (through d id first c e)

end

theorem through_eq (id first : Nat) (t : Tree) (e : Entry σ) : through d id first t e =
    (throughAll d (id + 1) first t.children (e.enter d ⟨id, first, t⟩)).leave ⟨id, first, t⟩ := by
  cases t <;> rfl

mutual

theorem through_of_idle : (t : Tree) → (id first : Nat) → {e : Entry σ} →
    (e.off || e.skipped.isSome) = true → (∀ i, e.skipped = some i → i < id) →
    through d id first t e = e
  | .leaf t, id, first, e, h, hi => by
    rw [through, enter_of_idle h, leave, if_neg fun hid ↦ Nat.lt_irrefl id (hi id hid)]
  | .node k cs, id, first, e, h, hi => by
    rw [through, enter_of_idle h,
      throughAll_of_idle cs _ _ h fun i hid ↦ Nat.lt_succ_of_lt (hi i hid), leave,
      if_neg fun hid ↦ Nat.lt_irrefl id (hi id hid)]

/-- A pass that is switched off is not called in trees, and neither is one that waits for a node
with a smaller number, which goes on waiting. -/
theorem throughAll_of_idle : (cs : List Tree) → (id first : Nat) → {e : Entry σ} →
    (e.off || e.skipped.isSome) = true → (∀ i, e.skipped = some i → i < id) →
    throughAll d id first cs e = e
  | [], _, _, _, _, _ => rfl
  | c :: cs, id, first, e, h, hi => by
    rw [throughAll, through_of_idle c _ _ h hi,
      throughAll_of_idle cs _ _ h fun i hid ↦ Nat.lt_of_lt_of_le (hi i hid) (Nat.le_add_right ..)]

end

/-- The step: what goes for the children of a node goes for the node. -/
theorem follow_through_of_children {t : Tree} {id first : Nat} {e : Entry σ} (he : e.Ready)
    {rest : List Node} (hrest : ∀ m ∈ rest, id + t.size ≤ m.id)
    (hchildren : ∀ e : Entry σ, e.Ready → (throughAll d (id + 1) first t.children e).Ready ∧
      (throughAll d (id + 1) first t.children e).follow d rest =
        e.follow d (Node.preorderAll (Node.place (id + 1) first t.children) ++ rest)) :
    (through d id first t e).Ready ∧ (through d id first t e).follow d rest =
      e.follow d (⟨id, first, t⟩ ::
        (Node.preorderAll (Node.place (id + 1) first t.children) ++ rest)) := by
  rw [through_eq]
  obtain ⟨hready, hfollow⟩ | ⟨e', hready, henter, hfollow⟩ := enter_ready (d := d) he ⟨id, first, t⟩
  · obtain ⟨hready', hfollow'⟩ := hchildren _ hready
    rw [leave_of_awake hready'.awake, hfollow, hfollow']
    exact ⟨hready', rfl⟩
  · have hwaits : throughAll d (id + 1) first t.children (e'.pausedAt ⟨id, first, t⟩) =
        e'.pausedAt ⟨id, first, t⟩ :=
      throughAll_of_idle _ _ _ (Bool.or_true _) fun i hi ↦ Option.some.inj hi ▸ Nat.lt_succ_self id
    rw [henter, hwaits, leave_pausedAt hready.awake, hfollow]
    exact ⟨hready, congrArg (e'.follow d) (Node.leaveOut_append hrest).symm⟩

mutual

theorem follow_through : (t : Tree) → (id first : Nat) → {e : Entry σ} → e.Ready →
    {rest : List Node} → (∀ m ∈ rest, id + t.size ≤ m.id) →
    (through d id first t e).Ready ∧ (through d id first t e).follow d rest =
      e.follow d (⟨id, first, t⟩ ::
        (Node.preorderAll (Node.place (id + 1) first t.children) ++ rest))
  | .leaf _, _, _, _, he, _, hrest =>
    follow_through_of_children he hrest fun e he ↦
      ⟨he, by rw [Tree.children, Node.place, Node.preorderAll, throughAll, List.nil_append]⟩
  | .node k cs, id, first, _, he, _, hrest =>
    follow_through_of_children he hrest fun e he ↦
      follow_throughAll cs (id + 1) first he fun m hm ↦ by
        have hle := hrest m hm
        rw [Tree.size] at hle
        omega

/-- **Going through trees follows the course over their nodes.** -/
theorem follow_throughAll : (cs : List Tree) → (id first : Nat) → {e : Entry σ} → e.Ready →
    {rest : List Node} → (∀ m ∈ rest, id + Tree.sizeAll cs ≤ m.id) →
    (throughAll d id first cs e).Ready ∧ (throughAll d id first cs e).follow d rest =
      e.follow d (Node.preorderAll (Node.place id first cs) ++ rest)
  | [], _, _, _, he, _, _ => ⟨he, by rw [Node.place, Node.preorderAll, throughAll, List.nil_append]⟩
  | c :: cs, id, first, e, he, rest, hrest => by
    have hlater : ∀ m ∈ rest, id + c.size + Tree.sizeAll cs ≤ m.id := fun m hm ↦ by
      have hle := hrest m hm
      rw [Tree.sizeAll] at hle
      omega
    -- The nodes behind the first tree have greater numbers, so nothing in it skips them.
    have hbehind : ∀ m ∈ Node.preorderAll (Node.place (id + c.size) (first + c.width) cs) ++ rest,
        id + c.size ≤ m.id := by
      intro m hm
      rcases List.mem_append.1 hm with hm | hm
      · exact Node.le_id_of_mem_preorderAll hm
      · exact Nat.le_trans (Nat.le_add_right _ _) (hlater m hm)
    obtain ⟨hready, hfollow⟩ := follow_through c id first he hbehind
    obtain ⟨hready', hfollow'⟩ :=
      follow_throughAll cs (id + c.size) (first + c.width) hready hlater
    refine ⟨hready', hfollow'.trans (hfollow.trans ?_)⟩
    rw [Node.place, Node.preorderAll_cons, Node.preorderAll_append, List.cons_append,
      List.append_assoc]
    rfl

end

/-! ### The whole document -/

/-- The entry of a pass that has been led through a document. -/
def led (d : Document) (ranked : RankedPass σ) : Entry σ :=
  through d d.root.id d.root.first d.root.tree ((ofRanked ranked).checkFile d)

variable {ranked : RankedPass σ}

theorem checkFile_ofRanked : (ofRanked ranked).checkFile d =
    ⟨ranked, (ranked.pass.course d).file.state, (ranked.pass.course d).file.findings, none,
      (ranked.pass.course d).file.outcome.isFailure⟩ := by
  simp only [checkFile, ofRanked, List.nil_append, Pass.course]
  rcases (ranked.pass.checkFile d ranked.pass.initial).outcome with _ | _ | _ <;> rfl

theorem led_eq_follow (h : ranked.pass.kinds.Nodup) :
    led d ranked = ((ofRanked ranked).checkFile d).follow d d.root.preorder := by
  have hready : ((ofRanked ranked).checkFile d).Ready := by
    rw [checkFile_ofRanked]
    exact ⟨rfl, h⟩
  have hfollow : (led d ranked).follow d [] = _ :=
    (follow_through d.root.tree d.root.id d.root.first hready (by simp)).2
  rw [follow_nil, List.append_nil] at hfollow
  rw [hfollow, Node.preorder, Node.preorderAll_cons, List.append_nil]
  rfl

/-- An entry that takes in calls keeps what it had found and has the last state. -/
theorem foldl_take (e : Entry σ) (visits : List (Node × Pass.Answer σ)) :
    (visits.foldl (fun e v ↦ e.take v.2) e).ranked = e.ranked ∧
      (visits.foldl (fun e v ↦ e.take v.2) e).found = e.found ++ visits.flatMap (·.2.findings) ∧
      (visits.foldl (fun e v ↦ e.take v.2) e).state =
        (visits.getLast?.map (·.2.state)).getD e.state := by
  induction visits generalizing e with
  | nil => exact ⟨rfl, (List.append_nil _).symm, rfl⟩
  | cons v visits ih =>
    obtain ⟨hranked, hfound, hstate⟩ := ih (e.take v.2)
    rw [List.foldl_cons, hranked, hfound, hstate, take, List.append_assoc, List.flatMap_cons,
      List.getLast?_cons]
    refine ⟨rfl, rfl, ?_⟩
    cases visits.getLast? <;> rfl

/-- **A pass that has been led through a document has followed its course.** -/
theorem led_eq_course (ranked : RankedPass σ) (h : ranked.pass.kinds.Nodup) :
    (led d ranked).ranked = ranked ∧ (led d ranked).found = (ranked.pass.course d).findings ∧
      (led d ranked).state = (ranked.pass.course d).state := by
  rw [led_eq_follow h, checkFile_ofRanked, follow]
  split
  next hfailed =>
    have hvisits : (ranked.pass.course d).visits = [] := if_pos hfailed
    rw [Pass.Course.findings, Pass.Course.state, hvisits]
    exact ⟨rfl, (List.append_nil _).symm, rfl⟩
  next hdone =>
    have hvisits : (ranked.pass.course d).visits = ranked.pass.visits d
        (d.root.preorder.filter (·.kind ∈ ranked.pass.kinds)) (ranked.pass.course d).file.state :=
      if_neg hdone
    rw [Pass.Course.findings, Pass.Course.state, hvisits]
    exact foldl_take _ _

end Entry

end BslLint
