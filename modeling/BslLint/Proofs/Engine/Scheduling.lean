import BslLint.Engine.Pool
import BslLint.Proofs.Data.Attempts

/-!
# Tasks in any order

Tasks see nothing of each other but the mark. So how far the schedule has brought them, in whatever
order, is told by an invariant on each task and one on the mark (`Pool.Follows`): a task that has an
outcome has that of its own work, one without an outcome was skipped because the mark was set, and
the mark is set only if a task has failed, whose outcome is not lost.

A schedule that names every task often enough brings all of them to their end. Then the results
are those of one task after the other, or the failure of one of them (`Pool.results_of_complete`):
an outcome is missing only where another one is a failure.
-/

namespace BslLint

variable {ι ε α : Type}

namespace Stage

variable {o : Except ε α} {cancelled cancelled' : Bool} {s : Stage ε α}

/-- How many stages lie behind a task. -/
def rank : Stage ε α → Nat
  | waiting => 0
  | admitted => 1
  | worked _ => 2
  | told _ => 3
  | filed _ => 4

/-- The stages that a task comes to if its work has the outcome `o`. -/
inductive Reached (o : Except ε α) (cancelled : Bool) : Stage ε α → Prop where
  | waiting : Reached o cancelled .waiting
  | admitted : Reached o cancelled .admitted
  | worked : Reached o cancelled (.worked o)
  | told : Reached o cancelled (.told o)
  | filed : Reached o cancelled (.filed (some o))
  | skipped (h : cancelled = true) : Reached o cancelled (.filed none)

/-- The mark is never taken away, so stages that were reached stay in order. -/
theorem Reached.mono (h : s.Reached o cancelled) (hmark : cancelled = true → cancelled' = true) :
    s.Reached o cancelled' := by
  cases h with
  | skipped hset => exact .skipped (hmark hset)
  | waiting => exact .waiting
  | admitted => exact .admitted
  | worked => exact .worked
  | told => exact .told
  | filed => exact .filed

/-- The stage behind the setting of the mark, with a failure. -/
def HasFailed (o : Except ε α) (s : Stage ε α) : Prop :=
  isFailure o = true ∧ (s = .told o ∨ s = .filed (some o))

end Stage

namespace Pool

variable {work : ι → Except ε α} {items : List ι} {cancelled : Bool} {t : Task ι ε α}
  {p : Pool ι ε α} {done schedule : List Nat} {place : Nat}

/-- What the next stage of a task is, and what becomes of the mark. -/
structure Moves (o : Except ε α) (s : Stage ε α) (cancelled : Bool) (next : Bool × Stage ε α) :
    Prop where
  reached : next.2.Reached o next.1
  moved : min stages (s.rank + 1) ≤ next.2.rank
  kept : cancelled = true → next.1 = true
  cause : next.1 = true → cancelled = true ∨ next.2.HasFailed o
  failed : s.HasFailed o → next.2.HasFailed o

/-- **A task moves on to its next stage, and sets the mark only if it has failed.** -/
theorem moves_advance (h : t.stage.Reached (work t.item) cancelled) :
    Moves (work t.item) t.stage cancelled (advance (m := Id) work cancelled t) := by
  obtain ⟨i, s⟩ := t
  obtain ⟨o, ho⟩ : ∃ o, work i = o := ⟨_, rfl⟩
  replace h : s.Reached o cancelled := ho ▸ h
  change Moves (work i) s cancelled _
  rw [ho]
  -- One case for each stage, which is all that `advance` looks at besides the mark.
  cases h with
  | waiting =>
    cases cancelled with
    | true => exact ⟨.skipped rfl, Nat.min_le_left _ _, fun _ ↦ rfl, fun _ ↦ .inl rfl,
        fun h ↦ nomatch h.2⟩
    | false => exact ⟨.admitted, Nat.min_le_right _ _, nofun, nofun, fun h ↦ nomatch h.2⟩
  | admitted =>
    subst ho
    exact ⟨.worked, Nat.min_le_right _ _, id, .inl, fun h ↦ nomatch h.2⟩
  | worked =>
    refine ⟨.told, Nat.min_le_right _ _, fun h ↦ ?_, fun h ↦ ?_, fun h ↦ nomatch h.2⟩
    · exact Bool.or_eq_true_iff.2 (.inl h)
    · exact (Bool.or_eq_true_iff.1 h).imp_right fun hfailure ↦ ⟨hfailure, .inl rfl⟩
  | told => exact ⟨.filed, Nat.min_le_right _ _, id, .inl, fun h ↦ ⟨h.1, .inr rfl⟩⟩
  | filed => exact ⟨.filed, Nat.min_le_left _ _, id, .inl, id⟩
  | skipped hset => exact ⟨.skipped hset, Nat.min_le_left _ _, id, .inl, id⟩

/-- How far a schedule has brought tasks. -/
structure Follows (work : ι → Except ε α) (items : List ι) (done : List Nat) (p : Pool ι ε α) :
    Prop where
  /-- No task is lost. -/
  items_eq : p.tasks.toList.map (·.item) = items
  /-- Every task has come to one of its stages. -/
  reached : ∀ t ∈ p.tasks, t.stage.Reached (work t.item) p.cancelled
  /-- With each time that it is named, a task has moved on. -/
  moved : ∀ (i : Nat) t, p.tasks[i]? = some t → min stages (done.count i) ≤ t.stage.rank
  /-- If the mark is set, a task has failed. -/
  cause : p.cancelled = true → ∃ t ∈ p.tasks, t.stage.HasFailed (work t.item)

theorem follows_ofList (work : ι → Except ε α) (items : List ι) :
    Follows work items [] (ofList items) where
  items_eq := by simp [ofList, Function.comp_def]
  reached t ht := by
    obtain ⟨i, -, rfl⟩ : ∃ i ∈ items, (⟨i, .waiting⟩ : Task ι ε α) = t := by simpa [ofList] using ht
    exact .waiting
  moved i t _ := by simp
  cause h := nomatch h

theorem step_of_none (h : p.tasks[place]? = none) : step (m := Id) work p place = p := by
  rw [step, h]
  rfl

theorem step_of_some (h : p.tasks[place]? = some t) : step (m := Id) work p place =
    ⟨(advance (m := Id) work p.cancelled t).1, p.tasks.setIfInBounds place
      ⟨t.item, (advance (m := Id) work p.cancelled t).2⟩⟩ := by
  rw [step, h]
  rfl

/-- A step changes the stage of one task and nothing else of it. -/
theorem getElem?_step_self (work : ι → Except ε α) (h : p.tasks[place]? = some t) :
    (step (m := Id) work p place).tasks[place]? =
      some ⟨t.item, (advance (m := Id) work p.cancelled t).2⟩ := by
  obtain ⟨hbound, -⟩ := Array.getElem?_eq_some_iff.1 h
  rw [step_of_some h]
  exact Array.getElem?_setIfInBounds_self_of_lt hbound

theorem getElem?_step_of_ne {i : Nat} (hne : i ≠ place) :
    (step (m := Id) work p place).tasks[i]? = p.tasks[i]? := by
  cases hplace : p.tasks[place]? with
  | none => rw [step_of_none hplace]
  | some t =>
    rw [step_of_some hplace]
    exact Array.getElem?_setIfInBounds_ne hne.symm

theorem cancelled_step (work : ι → Except ε α) (h : p.tasks[place]? = some t) :
    (step (m := Id) work p place).cancelled = (advance (m := Id) work p.cancelled t).1 := by
  rw [step_of_some h]

theorem map_item_step (work : ι → Except ε α) (p : Pool ι ε α) (place : Nat) :
    (step (m := Id) work p place).tasks.toList.map (·.item) = p.tasks.toList.map (·.item) := by
  refine List.ext_getElem? fun i ↦ ?_
  rw [List.getElem?_map, List.getElem?_map, Array.getElem?_toList, Array.getElem?_toList]
  by_cases hne : i = place
  · subst hne
    cases hplace : p.tasks[i]? with
    | none => rw [step_of_none hplace, hplace]
    | some t => rw [getElem?_step_self work hplace, Option.map_some, Option.map_some]
  · rw [getElem?_step_of_ne hne]

/-- **A step keeps the invariant.** -/
theorem Follows.step (h : Follows work items done p) (place : Nat) :
    Follows work items (done ++ [place]) (step (m := Id) work p place) := by
  have hcount (i : Nat) (hne : i ≠ place) : (done ++ [place]).count i = done.count i := by
    rw [List.count_append, List.count_singleton, if_neg (by simpa using hne.symm), Nat.add_zero]
  -- A place where no task is changes nothing; what is counted for it counts for no other.
  cases hplace : p.tasks[place]? with
  | none =>
    rw [step_of_none hplace]
    refine { h with moved := fun i t ht ↦ ?_ }
    have hne : i ≠ place := by
      rintro rfl
      exact nomatch hplace.symm.trans ht
    rw [hcount i hne]
    exact h.moved i t ht
  | some t =>
    have hmoves := moves_advance (h.reached t (Array.mem_iff_getElem?.2 ⟨place, hplace⟩))
    have hself := getElem?_step_self work hplace
    have hmark := cancelled_step work hplace
    constructor
    · exact (map_item_step work p place).trans h.items_eq
    · intro t' ht'
      obtain ⟨i, hi⟩ := Array.mem_iff_getElem?.1 ht'
      rw [hmark]
      -- The task at the place has moved by `hmoves`, and all others are as they were.
      by_cases hne : i = place
      · subst hne
        obtain rfl := Option.some.inj (hself.symm.trans hi)
        exact hmoves.reached
      · rw [getElem?_step_of_ne hne] at hi
        exact (h.reached t' (Array.mem_iff_getElem?.2 ⟨i, hi⟩)).mono hmoves.kept
    · intro i t' hi
      by_cases hne : i = place
      · subst hne
        obtain rfl := Option.some.inj (hself.symm.trans hi)
        have hbefore := h.moved i t hplace
        have hafter := hmoves.moved
        rw [List.count_append, List.count_singleton_self]
        dsimp only at hafter ⊢
        omega
      · rw [getElem?_step_of_ne hne] at hi
        rw [hcount i hne]
        exact h.moved i t' hi
    · intro hset
      rw [hmark] at hset
      have hmem := Array.mem_iff_getElem?.2 ⟨place, hself⟩
      obtain hold | hfailed := hmoves.cause hset
      · -- The mark was set before; if the task at this place was the cause, it has failed all the
        -- same.
        obtain ⟨t', ht', hfailed⟩ := h.cause hold
        obtain ⟨i, hi⟩ := Array.mem_iff_getElem?.1 ht'
        by_cases hne : i = place
        · subst hne
          obtain rfl := Option.some.inj (hplace.symm.trans hi)
          exact ⟨_, hmem, hmoves.failed hfailed⟩
        · exact ⟨t', Array.mem_iff_getElem?.2 ⟨i, (getElem?_step_of_ne hne).trans hi⟩, hfailed⟩
      · exact ⟨_, hmem, hfailed⟩

/-- **A schedule keeps the invariant.** -/
theorem Follows.run (h : Follows work items done p) (schedule : List Nat) :
    Follows work items (done ++ schedule) (run (m := Id) work p schedule) := by
  induction schedule generalizing done p with
  | nil => rwa [List.append_nil]
  | cons place schedule ih =>
    rw [List.append_cons]
    exact ih (h.step place)

/-- The schedule names each of some tasks often enough for it to come to its end. -/
def IsComplete (tasks : Nat) (schedule : List Nat) : Prop :=
  ∀ i < tasks, stages ≤ schedule.count i

instance (tasks : Nat) (schedule : List Nat) : Decidable (IsComplete tasks schedule) :=
  inferInstanceAs (Decidable (∀ i < tasks, _))

/-- Tasks that are at their end have filed their outcomes, but for those that were skipped. -/
theorem Follows.filed (h : Follows work items schedule p)
    (hcomplete : IsComplete items.length schedule) (ht : t ∈ p.tasks) :
    t.stage = .filed (some (work t.item)) ∨ t.stage = .filed none ∧ p.cancelled = true := by
  obtain ⟨i, hi⟩ := Array.mem_iff_getElem?.1 ht
  have hlength : i < items.length := by
    rw [← h.items_eq, List.length_map, Array.length_toList]
    exact (Array.getElem?_eq_some_iff.1 hi).1
  have hrank : stages ≤ t.stage.rank :=
    Nat.le_trans (Nat.le_min.2 ⟨Nat.le_refl _, hcomplete i hlength⟩) (h.moved i t hi)
  have hreached := h.reached t ht
  generalize t.stage = s at hrank hreached
  cases hreached with
  | filed => exact .inl rfl
  | skipped hset => exact .inr ⟨rfl, hset⟩
  | waiting | admitted | worked | told => exact absurd hrank (by simp [stages, Stage.rank])

theorem Follows.outcome?_eq (h : Follows work items done p)
    (hcomplete : IsComplete items.length done) (ht : t ∈ p.tasks) :
    t.outcome? = some (work t.item) ∨ t.outcome? = none ∧ p.cancelled = true := by
  rw [Task.outcome?]
  obtain hfiled | ⟨hskipped, hset⟩ := h.filed hcomplete ht
  · exact .inl (by rw [hfiled])
  · exact .inr ⟨by rw [hskipped], hset⟩

/-- Without the mark no task is skipped. -/
theorem Follows.results_of_unmarked (h : Follows work items done p)
    (hcomplete : IsComplete items.length done) (hset : p.cancelled = false) :
    p.results = items.mapM work := by
  have hall : p.tasks.toList.filterMap (·.outcome?) = items.map work := by
    rw [← h.items_eq, List.map_map, ← List.filterMap_eq_map]
    refine List.filterMap_congr fun t ht ↦
      (h.outcome?_eq hcomplete (Array.mem_toList_iff.1 ht)).resolve_right ?_
    rw [hset]
    exact nofun
  rw [results, hall, List.mapM_map]
  rfl

/-- With the mark the outcome of a task that has failed is among the results. -/
theorem Follows.exists_failure (h : Follows work items done p)
    (hcomplete : IsComplete items.length done) (hset : p.cancelled = true) :
    ∃ i ∈ items, ∃ e, work i = .error e ∧ p.results = .error e := by
  obtain ⟨t, ht, hfailure, hstage⟩ := h.cause hset
  have hfiled : t.outcome? = some (work t.item) := by
    rw [Task.outcome?]
    obtain hfiled | ⟨hskipped, -⟩ := h.filed hcomplete ht
    · rw [hfiled]
    · rw [hskipped] at hstage
      exact nomatch hstage
  cases hresults : p.results with
  -- The results hold no failure, but that of the marked task is among the outcomes.
  | ok files =>
    obtain ⟨_, hok⟩ := forall_mem_of_mapM_ok hresults (work t.item)
      (List.mem_filterMap.2 ⟨t, Array.mem_toList_iff.2 ht, hfiled⟩)
    rw [show work t.item = _ from hok] at hfailure
    exact nomatch hfailure
  | error e =>
    obtain ⟨o, ho, rfl⟩ := exists_of_mapM_eq_error hresults
    obtain ⟨t', ht', houtcome⟩ := List.mem_filterMap.1 ho
    refine ⟨t'.item, h.items_eq ▸ List.mem_map_of_mem ht', e, ?_, rfl⟩
    obtain hfiled | ⟨hskipped, -⟩ := h.outcome?_eq hcomplete (Array.mem_toList_iff.1 ht')
    · exact Option.some.inj (hfiled.symm.trans houtcome)
    · exact nomatch hskipped.symm.trans houtcome

/-- **Where all tasks are at their end, the results are those of one task after the other, or the
failure of one of them.** -/
theorem results_of_complete (work : ι → Except ε α) (hcomplete : IsComplete items.length schedule) :
    (run (m := Id) work (ofList items) schedule).results = items.mapM work ∨
      ∃ i ∈ items, ∃ e, work i = .error e ∧
        (run (m := Id) work (ofList items) schedule).results = .error e := by
  have h := (follows_ofList work items).run schedule
  rw [List.nil_append] at h
  cases hset : (run (m := Id) work (ofList items) schedule).cancelled with
  | false => exact .inl (h.results_of_unmarked hcomplete hset)
  | true => exact .inr (h.exists_failure hcomplete hset)

/-- The schedule that takes a number of tasks at a time is one of those that end. -/
theorem isComplete_schedule (workers tasks : Nat) :
    IsComplete tasks (Pool.schedule workers tasks) := by
  intro i hi
  rw [Pool.schedule]
  generalize hw : max workers 1 = w
  have hpos : 0 < w := by omega
  -- the group in which the task is
  have hgroup : i / w ∈ List.range ((tasks + w - 1) / w) := by
    rw [List.mem_range, show tasks + w - 1 = tasks - 1 + w by omega, Nat.add_div_right _ hpos]
    exact Nat.lt_succ_of_le (Nat.div_le_div_right (by omega))
  have hplace : i ∈ (List.range w).map (i / w * w + ·) :=
    List.mem_map.2 ⟨i % w, List.mem_range.2 (Nat.mod_lt i hpos), Nat.div_add_mod' i w⟩
  have hcount : stages ≤
      (List.replicate stages ((List.range w).map (i / w * w + ·))).flatten.count i := by
    rw [List.count_flatten, List.map_replicate, List.sum_replicate_nat]
    exact Nat.le_mul_of_pos_right _ (List.count_pos_iff.2 hplace)
  rw [List.flatMap_def]
  refine Nat.le_trans hcount (List.Sublist.count_le i (List.sublist_flatten_of_mem ?_))
  exact List.mem_map.2 ⟨i / w, hgroup, rfl⟩

end Pool
end BslLint
