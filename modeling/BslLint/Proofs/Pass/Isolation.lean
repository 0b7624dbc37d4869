import BslLint.Grammar.Parse
import BslLint.Proofs.Diagnostic.Order
import BslLint.Proofs.Pass.Course
import BslLint.Proofs.Syntax.Walking
import BslLint.Proofs.Token.Places
import BslLint.Rule.IdenticalExpressions

/-!
# Passes do not interfere

The runner leads all passes through a document in one walk. What each of them does there is what it
would do alone (`Runner.entries_eq_map_led`): the walk goes everywhere for everyone, and where it
ends early, there is nothing left to do for any pass. So the entries of a runner are those of its
passes, one by one, and each has followed the course of its pass.

To see which calls are made, and not only what comes out of them, a pass is given a diary
(`Pass.logged`) in which it notes every call. That is a pass like any other, so the theorem about
all passes speaks of it.
-/

namespace BslLint

variable {σ : Type}

namespace Entry

variable {d : Document} {e : Entry σ}

/-! ### Passes that are switched off -/

/-- A pass that is switched off does not wait for a node. -/
def Settled (e : Entry σ) : Prop := e.off = true → e.skipped = none

/-- A pass that is switched off at a node does not wait for it to be left. -/
theorem settled_visit (h : e.Settled) (n : Node) : (e.visit d n).Settled := by
  rw [visit]
  split
  next => exact h
  next hcalled =>
    simp only [Bool.or_eq_true, not_or, Bool.not_eq_true, Option.isSome_eq_false_iff,
      Option.isNone_iff_eq_none] at hcalled
    rw [absorb_eq hcalled.1]
    split
    next hskip =>
      intro hoff
      have hlast : (e.ranked.pass.visit d n e.state).outcome.isLast = true := hoff
      rw [hskip] at hlast
      cases hlast
    next => exact fun _ ↦ hcalled.2

/-- No step on the way down or up makes a difference to that, -/
theorem settled_enter (h : e.Settled) (n : Node) : (e.enter d n).Settled := by
  rw [enter]
  generalize List.replicate (e.ranked.pass.kinds.count n.kind) () = calls
  induction calls generalizing e with
  | nil => exact h
  | cons _ _ ih => exact ih (settled_visit h n)

theorem settled_leave (h : e.Settled) (n : Node) : (e.leave n).Settled := by
  rw [leave]
  split
  next => exact fun _ ↦ rfl
  next => exact h

mutual

/-- and so no walk does. -/
theorem settled_through : (t : Tree) → (id first : Nat) → {e : Entry σ} → e.Settled →
    (through d id first t e).Settled
  | .leaf _, _, _, _, h => settled_leave (settled_enter h _) _
  | .node _ cs, _, _, _, h => settled_leave (settled_throughAll cs _ _ (settled_enter h _)) _

theorem settled_throughAll : (cs : List Tree) → (id first : Nat) → {e : Entry σ} → e.Settled →
    (throughAll d id first cs e).Settled
  | [], _, _, _, h => h
  | c :: cs, _, _, _, h => settled_throughAll cs _ _ (settled_through c _ _ h)

end

/-- What is left of the walk makes no difference to a pass that is switched off. -/
theorem throughAll_of_off (h : e.Settled) (hoff : e.off = true) (id first : Nat) (cs : List Tree) :
    throughAll d id first cs e = e :=
  throughAll_of_idle cs id first (by rw [hoff, Bool.true_or]) fun i hi ↦ by
    rw [h hoff] at hi
    exact nomatch hi

/-- A node is left without a trace by a pass that was switched off below it. -/
theorem through_eq_of_off {t : Tree} {id first : Nat} (h : e.Settled)
    (hoff : (throughAll d (id + 1) first t.children (e.enter d ⟨id, first, t⟩)).off = true) :
    through d id first t e =
      throughAll d (id + 1) first t.children (e.enter d ⟨id, first, t⟩) := by
  rw [through_eq]
  exact leave_of_awake (settled_throughAll _ _ _ (settled_enter h _) hoff) _

end Entry

/-! ### All passes in one walk -/

namespace Runner

/-- What the visitor does on the way down: it enters the node for every pass, and asks to stop only
if that is the end of them all. -/
theorem enter_visitor (d : Document) (n : Node) (es : List (Entry σ)) :
    ∃ c, (visitor d).enter n es = (c, es.map (·.enter d n)) ∧
      (c = .continue_ ∨ c = .stop ∧ ∀ e ∈ es.map (·.enter d n), e.off = true) := by
  simp only [visitor]
  split
  next =>
    split
    next hall => exact ⟨.stop, rfl, .inr ⟨rfl, List.all_eq_true.1 hall⟩⟩
    next => exact ⟨.continue_, rfl, .inl rfl⟩
  next hnone =>
    have hsame : es.map (·.enter d n) = es.map id := by
      refine List.map_congr_left fun e he ↦ Entry.enter_of_notMem fun hn ↦ hnone ?_
      exact List.any_eq_true.2 ⟨e, he, List.contains_iff_mem.2 hn⟩
    exact ⟨.continue_, by rw [hsame, List.map_id], .inl rfl⟩

/-- A walk of all passes does with each what `go` does, and where it has ended early, all passes are
switched off. -/
structure Apart (go : Entry σ → Entry σ) (es : List (Entry σ)) (walk : Bool × List (Entry σ)) :
    Prop where
  /-- Each pass goes its way. -/
  each : walk.2 = es.map go
  /-- The walk ends early only after all of them. -/
  early : walk.1 = false → ∀ e ∈ es.map go, e.off = true

variable {d : Document} {es : List (Entry σ)}

/-- The step: what goes for the children of a node goes for the node. -/
theorem apart_of_children {t : Tree} {id first : Nat} (hes : ∀ e ∈ es, e.Settled)
    (hchildren : ∀ es : List (Entry σ), (∀ e ∈ es, e.Settled) →
      Apart (Entry.throughAll d (id + 1) first t.children) es
        ((visitor d).walkTrees (id + 1) first t.children es)) :
    Apart (Entry.through d id first t) es ((visitor d).walkTree id first t es) := by
  have hentered : ∀ e ∈ es.map (·.enter d ⟨id, first, t⟩), e.Settled :=
    List.forall_mem_map.2 fun e he ↦ Entry.settled_enter (hes e he) _
  -- where all passes are switched off below the node, nobody sees that it is not left
  have hearly (hoff : ∀ e ∈ es,
        (Entry.throughAll d (id + 1) first t.children (e.enter d ⟨id, first, t⟩)).off = true) :
      Apart (Entry.through d id first t) es (false, es.map fun e ↦
        Entry.throughAll d (id + 1) first t.children (e.enter d ⟨id, first, t⟩)) := by
    have hsame := List.map_congr_left fun e he ↦ Entry.through_eq_of_off (hes e he) (hoff e he)
    exact ⟨hsame.symm, fun _ ↦ by rw [hsame]; exact List.forall_mem_map.2 hoff⟩
  obtain ⟨c, henter, rfl | ⟨rfl, hoff⟩⟩ := enter_visitor d ⟨id, first, t⟩ es
  · obtain ⟨heach, hoff⟩ := hchildren _ hentered
    rcases hwalk : (visitor d).walkTrees (id + 1) first t.children _ with ⟨_ | _, es'⟩
    all_goals rw [Visitor.walkTree_of_continue henter hwalk]
    · rw [hwalk, List.map_map] at heach
      obtain rfl : es' = _ := heach
      rw [hwalk, List.map_map] at hoff
      exact hearly (List.forall_mem_map.1 (hoff rfl))
    · rw [hwalk, List.map_map] at heach
      obtain rfl : es' = _ := heach
      refine ⟨?_, nofun⟩
      show List.map _ (List.map _ es) = _
      rw [List.map_map]
      exact List.map_congr_left fun e _ ↦ (Entry.through_eq id first t e).symm
  · have hidle : ∀ e ∈ es, Entry.throughAll d (id + 1) first t.children
        (e.enter d ⟨id, first, t⟩) = e.enter d ⟨id, first, t⟩ := fun e he ↦
      Entry.throughAll_of_off (hentered _ (List.mem_map_of_mem he))
        (hoff _ (List.mem_map_of_mem he)) ..
    rw [Visitor.walkTree_of_stop henter, ← List.map_congr_left hidle]
    refine hearly fun e he ↦ ?_
    rw [hidle e he]
    exact hoff _ (List.mem_map_of_mem he)

mutual

/-- This goes through trees and lists of trees alike. -/
theorem apart_walkTree : (t : Tree) → (id first : Nat) → {es : List (Entry σ)} →
    (∀ e ∈ es, e.Settled) →
    Apart (Entry.through d id first t) es ((visitor d).walkTree id first t es)
  | .leaf _, _, _, _, hes => apart_of_children hes fun es _ ↦ ⟨(List.map_id es).symm, nofun⟩
  | .node _ cs, id, first, _, hes =>
    apart_of_children hes fun _ hes ↦ apart_walkTrees cs (id + 1) first hes

/-- **One walk leads every pass through the trees**, each on its own. -/
theorem apart_walkTrees : (cs : List Tree) → (id first : Nat) → {es : List (Entry σ)} →
    (∀ e ∈ es, e.Settled) →
    Apart (Entry.throughAll d id first cs) es ((visitor d).walkTrees id first cs es)
  | [], _, _, es, _ => ⟨(List.map_id es).symm, nofun⟩
  | c :: cs, id, first, es, hes => by
    have hfirst : Apart (Entry.through d id first c) es _ := apart_walkTree c id first hes
    have hsettled : ∀ e ∈ es.map (Entry.through d id first c), e.Settled :=
      List.forall_mem_map.2 fun e he ↦ Entry.settled_through c id first (hes e he)
    rw [Visitor.walkTrees]
    rcases hwalk : (visitor d).walkTree id first c es with ⟨_ | _, es'⟩
    · -- the walk has ended in the first tree, and no pass would do anything in the others
      rw [hwalk] at hfirst
      obtain ⟨heach, hoff⟩ := hfirst
      obtain rfl : es' = _ := heach
      have hidle : ∀ e ∈ es, Entry.throughAll d id first (c :: cs) e =
          Entry.through d id first c e := fun e he ↦
        Entry.throughAll_of_off (hsettled _ (List.mem_map_of_mem he))
          (hoff rfl _ (List.mem_map_of_mem he)) ..
      rw [← List.map_congr_left hidle] at hoff ⊢
      exact ⟨rfl, hoff⟩
    · -- The walk goes on, and each pass stands where it would stand alone.
      rw [hwalk] at hfirst
      obtain rfl : es' = _ := hfirst.each
      have hothers : Apart (Entry.throughAll d (id + c.size) (first + c.width) cs) _ _ :=
        apart_walkTrees cs (id + c.size) (first + c.width) hsettled
      obtain ⟨heach, hoff⟩ := hothers
      rw [List.map_map] at heach hoff
      exact ⟨heach, hoff⟩

end

/-- **Every pass of a runner goes through a document as if it were the only one**, whatever kinds it
lists. -/
theorem entries_eq_map_led (r : Runner σ) (d : Document) :
    r.entries d = r.passes.map (Entry.led d) := by
  have hsettled : ∀ e ∈ r.passes.map fun p ↦ (Entry.ofRanked p).checkFile d, e.Settled :=
    List.forall_mem_map.2 fun p _ _ ↦ by rw [Entry.checkFile_ofRanked]
  rw [entries, Node.walk, (apart_walkTree d.root.tree _ _ hsettled).each, List.map_map]
  rfl

end Runner

/-! ### What is found under one code -/

namespace Entry

variable {d : Document} {e : Entry σ}

/-- A pass keeps its code and its severity on the way down, -/
theorem ranked_enter (n : Node) : (e.enter d n).ranked = e.ranked := by
  have hvisit (e : Entry σ) : (e.visit d n).ranked = e.ranked := by
    rw [visit]
    split
    next => rfl
    next =>
      rw [absorb]
      rcases (e.ranked.pass.visit d n e.state).outcome with (_ | _ | _) | _ | _ <;> rfl
  rw [enter]
  generalize List.replicate (e.ranked.pass.kinds.count n.kind) () = calls
  induction calls generalizing e with
  | nil => rfl
  | cons _ _ ih => rw [List.foldl_cons, ih, hvisit]

/-- on the way up, -/
theorem ranked_leave (n : Node) : (e.leave n).ranked = e.ranked := by
  rw [leave]
  split <;> rfl

mutual

/-- and so on a whole walk. -/
theorem ranked_through : (t : Tree) → (id first : Nat) → (e : Entry σ) →
    (through d id first t e).ranked = e.ranked
  | .leaf _, _, _, _ => by rw [through, ranked_leave, ranked_enter]
  | .node _ cs, _, _, _ => by rw [through, ranked_leave, ranked_throughAll cs, ranked_enter]

theorem ranked_throughAll : (cs : List Tree) → (id first : Nat) → (e : Entry σ) →
    (throughAll d id first cs e).ranked = e.ranked
  | [], _, _, _ => rfl
  | c :: cs, _, _, _ => by rw [throughAll, ranked_throughAll cs, ranked_through c]

end

/-- A pass stays what it is while it is led through a document. -/
theorem ranked_led (p : RankedPass σ) : (led d p).ranked = p := by
  rw [led, ranked_through, checkFile_ofRanked]

/-- What a pass finds has its code. -/
theorem code_of_mem_diagnostics_led {p : RankedPass σ} {x : Diagnostic}
    (h : x ∈ (led d p).diagnostics) : x.code = p.pass.code := by
  obtain ⟨f, -, rfl⟩ := List.mem_map.1 h
  exact congrArg (·.pass.code) (ranked_led p)

end Entry

/-- What is found under a code is what the passes of that code find, in the order of places. -/
theorem Runner.filter_code_run (r : Runner σ) (d : Document) (code : String) :
    (r.run d).filter (·.code = code) = Diagnostic.sorted
      ((r.passes.filter (·.pass.code = code)).flatMap fun p ↦ (Entry.led d p).diagnostics) := by
  rw [run, Diagnostic.filter_sorted, entries_eq_map_led, List.flatMap_map]
  refine congrArg _ ?_
  induction r.passes with
  | nil => rfl
  | cons p ps ih =>
    rw [List.flatMap_cons, List.filter_append, ih]
    by_cases hp : p.pass.code = code
    · rw [List.filter_cons_of_pos (by simpa using hp), List.flatMap_cons,
        List.filter_eq_self.2 fun x hx ↦ by simp [Entry.code_of_mem_diagnostics_led hx, hp]]
    · rw [List.filter_cons_of_neg (by simpa using hp),
        List.filter_eq_nil_iff.2 fun x hx ↦ by simp [Entry.code_of_mem_diagnostics_led hx, hp],
        List.nil_append]

/-- A pass without a state finds the same beside passes that have one. -/
theorem Pass.findings_visits_withState (p : Pass Unit) (d : Document) (ns : List Node) (i s : σ)
    (u : Unit) : ((p.withState i).visits d ns s).flatMap (·.2.findings) =
      (p.visits d ns u).flatMap (·.2.findings) := by
  fun_induction p.visits d ns u generalizing s with
  | case1 => rw [Pass.visits]; rfl
  | case2 n ns u answer ihGo ihSkip =>
    have hanswer : (p.withState i).visit d n s = ⟨answer.findings, answer.outcome, s⟩ := rfl
    rw [Pass.visits, hanswer, List.flatMap_cons, List.flatMap_cons]
    refine congrArg (answer.findings ++ ·) ?_
    rcases answer.outcome with (_ | _ | _) | _ | _
    · exact ihGo s
    · exact ihSkip s
    all_goals rfl

theorem Pass.findings_course_withState (p : Pass Unit) (d : Document) (i : σ) :
    ((p.withState i).course d).findings = (p.course d).findings := by
  have hfile : (p.withState i).checkFile d i =
      ⟨(p.checkFile d p.initial).findings, (p.checkFile d p.initial).outcome, i⟩ := rfl
  have hvisits : ((p.withState i).course d).visits.flatMap (·.2.findings) =
      (p.course d).visits.flatMap (·.2.findings) := by
    simp only [course]
    rw [show (p.withState i).initial = i from rfl, hfile]
    split
    next => rfl
    next => exact findings_visits_withState p d _ i _ _
  exact congrArg ((p.checkFile d ()).findings ++ ·) hvisits

/-! ### The diary of a pass -/

/-- A call of a pass. -/
inductive Call where
  /-- The call for the document as a whole. -/
  | file
  /-- The call at a node. -/
  | node (n : Node)

namespace Pass

/-- A pass that notes its calls in its state and is the given one otherwise. -/
def logged (p : Pass σ) : Pass (σ × List Call) where
  code := p.code
  kinds := p.kinds
  initial := (p.initial, [])
  checkFile d s :=
    let answer := p.checkFile d s.1
    ⟨answer.findings, answer.outcome, answer.state, s.2 ++ [.file]⟩
  visit d n s :=
    let answer := p.visit d n s.1
    ⟨answer.findings, answer.outcome, answer.state, s.2 ++ [.node n]⟩

/-- The calls in the course of a pass. -/
def Course.calls (c : Course σ) : List Call := .file :: c.visits.map fun v ↦ .node v.1

/-- What there is to be seen of a course: the calls and what was found. -/
def Course.record (c : Course σ) : List Call × List Finding := (c.calls, c.findings)

/-- Calls with a diary that begins with earlier ones. -/
def noted (log : List Call) : List (Node × Answer σ) → List (Node × Answer (σ × List Call))
  | [] => []
  | (n, answer) :: visits =>
    (n, ⟨answer.findings, answer.outcome, answer.state, log ++ [.node n]⟩) ::
      noted (log ++ [.node n]) visits

theorem flatMap_findings_noted (log : List Call) (visits : List (Node × Answer σ)) :
    (noted log visits).flatMap (·.2.findings) = visits.flatMap (·.2.findings) := by
  induction visits generalizing log with
  | nil => rfl
  | cons v visits ih => rw [noted, List.flatMap_cons, List.flatMap_cons, ih]

/-- The last state holds the whole diary. -/
theorem diary_noted (s : σ) (log : List Call) (visits : List (Node × Answer σ)) :
    (((noted log visits).getLast?.map (·.2.state)).getD (s, log)).2 =
      log ++ visits.map fun v ↦ .node v.1 := by
  induction visits generalizing s log with
  | nil => exact (List.append_nil log).symm
  | cons v visits ih =>
    have hlog := ih v.2.state (log ++ [.node v.1])
    rw [List.append_assoc, List.singleton_append] at hlog
    rw [List.map_cons, ← hlog, noted, List.getLast?_cons]
    cases (noted (log ++ [Call.node v.1]) visits).getLast? <;> rfl

/-- At each node the pass with a diary does what the pass does, and notes the call. -/
theorem visits_logged (p : Pass σ) (d : Document) (ns : List Node) (s : σ) (log : List Call) :
    p.logged.visits d ns (s, log) = noted log (p.visits d ns s) := by
  fun_induction p.visits d ns s generalizing log with
  | case1 s => rw [visits, noted]
  | case2 n ns s answer ihGo ihSkip =>
    rw [visits, noted]
    -- both answers have one outcome, so both courses go on alike
    refine congrArg (List.cons _) ?_
    have hanswer : p.logged.visit d n (s, log) =
      ⟨answer.findings, answer.outcome, answer.state, log ++ [.node n]⟩ := rfl
    rw [hanswer]
    rcases answer.outcome with (_ | _ | _) | _ | _
    · exact ihGo _
    · exact ihSkip _
    all_goals rfl

/-- **A diary changes nothing but itself**, and it holds the calls of the course. -/
theorem course_logged (p : Pass σ) (d : Document) :
    (p.logged.course d).findings = (p.course d).findings ∧
      (p.logged.course d).state.2 = (p.course d).calls := by
  have hvisits : (p.logged.course d).visits = noted [.file] (p.course d).visits := by
    rcases hfailed : (p.checkFile d p.initial).outcome.isFailure with - | -
    · have hdone : (p.course d).visits = p.visits d (d.root.preorder.filter (·.kind ∈ p.kinds))
          (p.checkFile d p.initial).state := if_neg (by simp [hfailed])
      rw [hdone, ← visits_logged]
      exact if_neg (by simp [logged, hfailed])
    · have hnone : (p.course d).visits = [] := if_pos hfailed
      rw [hnone]
      exact if_pos hfailed
  rw [Course.findings, Course.findings, Course.state, Course.calls, hvisits,
    flatMap_findings_noted]
  exact ⟨rfl, diary_noted _ [.file] _⟩

end Pass

/-! ### Isolation -/

/-- A pass that finds something at the first expression and breaks down there. -/
def Pass.crashing : Pass Unit where
  code := "Crashing"
  kinds := [.expression]
  initial := ()
  visit d n s := ⟨[.atNode d n "crash"], .crash, s⟩

namespace Runner

/-- A runner whose passes keep diaries. -/
def logged (r : Runner σ) : Runner (σ × List Call) :=
  ⟨r.passes.map fun p ↦ ⟨p.pass.logged, p.severity⟩⟩

/-- What there is to be seen of the passes of a runner in a document, pass by pass. -/
def records (r : Runner σ) (d : Document) : List (List Call × List Finding) :=
  (r.logged.entries d).map fun e ↦ (e.state.2, e.found)

variable {r : Runner σ}

/-- In company every pass has the record of its own course, -/
theorem records_eq (d : Document) (h : ∀ p ∈ r.passes, p.pass.kinds.Nodup) :
    r.records d = r.passes.map fun p ↦ (p.pass.course d).record := by
  rw [records, entries_eq_map_led, logged, List.map_map, List.map_map]
  refine List.map_congr_left fun p hp ↦ ?_
  obtain ⟨-, hfound, hstate⟩ := Entry.led_eq_course (d := d) ⟨p.pass.logged, p.severity⟩ (h p hp)
  obtain ⟨hfindings, hcalls⟩ := p.pass.course_logged d
  exact Prod.ext ((congrArg Prod.snd hstate).trans hcalls) (hfound.trans hfindings)

/-- and finds what it finds there. -/
theorem map_found_entries (d : Document) (h : ∀ p ∈ r.passes, p.pass.kinds.Nodup) :
    (r.entries d).map (·.found) = r.passes.map fun p ↦ (p.pass.course d).findings := by
  rw [entries_eq_map_led, List.map_map]
  exact List.map_congr_left fun p hp ↦ (Entry.led_eq_course p (h p hp)).2.1

/-- The results are sorted by place, and those at one place stand as the passes do. -/
theorem isStableSort_run (d : Document) (h : ∀ p ∈ r.passes, p.pass.kinds.Nodup) :
    Diagnostic.IsStableSort (r.passes.flatMap fun p ↦
      (p.pass.course d).findings.map (·.toDiagnostic p.pass.code p.severity)) (r.run d) := by
  have hdiagnostics : (r.entries d).flatMap (·.diagnostics) = r.passes.flatMap fun p ↦
      (p.pass.course d).findings.map (·.toDiagnostic p.pass.code p.severity) := by
    rw [entries_eq_map_led, List.flatMap_map]
    refine List.flatMap_congr fun p hp ↦ ?_
    obtain ⟨hranked, hfound, -⟩ := Entry.led_eq_course (d := d) p (h p hp)
    rw [Entry.diagnostics, hranked, hfound]
  rw [run, hdiagnostics]
  exact Diagnostic.isStableSort_sorted _

/-- **Passes do not interfere.** Each makes the calls of its course and finds what is found there,
in company as well as alone, and the results are what all of them find, in the order of places. -/
theorem passes_are_isolated (r : Runner σ) (d : Document)
    (h : ∀ p ∈ r.passes, p.pass.kinds.Nodup) :
    r.records d = r.passes.map (fun p ↦ (p.pass.course d).record) ∧
      (∀ p ∈ r.passes, records ⟨[p]⟩ d = [(p.pass.course d).record]) ∧
      (r.entries d).map (·.found) = r.passes.map (fun p ↦ (p.pass.course d).findings) ∧
      Diagnostic.IsStableSort (r.passes.flatMap fun p ↦
        (p.pass.course d).findings.map (·.toDiagnostic p.pass.code p.severity)) (r.run d) :=
  ⟨records_eq d h, fun p hp ↦ records_eq d (by simpa using h p hp), map_found_entries d h,
    isStableSort_run d h⟩

/-- Beside a pass that breaks down at the first expression, another one goes through all of them.
What the first had found stays found. -/
theorem crash_is_isolated :
    ∃ (r : Runner Unit) (d : Document),
      r = ⟨[⟨.crashing, .error⟩, ⟨IdenticalExpressions.pass 3, .warning⟩]⟩ ∧
      d = Document.ofText "Х=А=А;У=Б;" ∧ (∀ p ∈ r.passes, p.pass.kinds.Nodup) ∧
      (r.records d).map (fun c ↦ (c.1.length, c.2.length)) = [(2, 1), (3, 1)] ∧
      (r.run d).length = 2 := by
  obtain ⟨r, hr⟩ : ∃ r : Runner Unit, r = ⟨[⟨.crashing, .error⟩,
    ⟨IdenticalExpressions.pass 3, .warning⟩]⟩ := ⟨_, rfl⟩
  obtain ⟨d, hd⟩ : ∃ d, d = Document.ofText "Х=А=А;У=Б;" := ⟨_, rfl⟩
  -- What the theorem asks for is computed, and the findings are those of the two courses.
  have hkinds : ∀ p ∈ r.passes, p.pass.kinds.Nodup := by
    rw [hr]
    decide
  have hcourses : r.passes.map (fun p ↦ ((p.pass.course d).calls.length,
      (p.pass.course d).findings.length)) = [(2, 1), (3, 1)] := by
    rw [hr, hd, Document.ofText_eq_evaluated]
    decide +kernel
  obtain ⟨hrecords, -, -, hsort⟩ := passes_are_isolated r d hkinds
  refine ⟨r, d, hr, hd, hkinds, ?_, ?_⟩
  · rw [hrecords, List.map_map]
    exact hcourses
  · have hfindings := congrArg (fun c ↦ (c.map Prod.snd).sum) hcourses
    rw [List.map_map] at hfindings
    simp only [hsort.perm.length_eq, List.length_flatMap, List.length_map]
    exact hfindings

end Runner

end BslLint
