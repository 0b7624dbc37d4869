import BslLint.Engine.Batch
import BslLint.File.Tree
import BslLint.Proofs.Engine.Scheduling

/-!
# A batch of files

A file is analyzed, or that fails for a reason of its own: it cannot be read, or the analysis breaks
down. What comes of a batch depends on this and on the order of the files, and not on the order in
which workers come to them (`Engine.batch_does_not_depend_on_schedule`). `Engine.batch` leaves open
what comes of a file and in which order the files are worked on; what is run on a disk is a case of
it (`Engine.run_system`).
-/

namespace BslLint.Engine

variable (e : Engine) (attempt : String → Except String FileResult) (paths : List String)

/-- A file as it is named in results. -/
def shown (path : String) : String := (Path.below? e.options.workspace path).getD path

/-- What is said about a file for itself. One that failed counts as empty. -/
def alone (path : String) : FileResult :=
  match attempt path with
  | .ok file => file
  | .error _ => { path := e.shown path }

/-- What a file that was attempted means for the batch. -/
def settle (path : String) : Except Failure FileResult :=
  match attempt path with
  | .ok file => .ok file
  | .error reason =>
    if e.options.failFast then .error (.analysis path reason) else .ok (e.alone attempt path)

/-- Analyzes files in the order of a schedule. -/
def batch (schedule : List Nat) : Except Failure (List FileResult) :=
  (Pool.run (m := Id) (e.settle attempt) (Pool.ofList paths) schedule).results

/-- The attempt to analyze a file of a disk. -/
def attemptOn (disk : Disk) (path : String) : Except String FileResult :=
  match disk.read path with
  | .ok bytes => .ok (e.analyze (Text.decode bytes) (e.shown path))
  | .error error => .error error.message

/-! ### Batches on a disk -/

/-- Attempts leave the files as they are. -/
theorem analyzeFile_system (disk : Disk) (path : String) :
    (e.analyzeFile Disk.system path).run disk = pure (e.settle (e.attemptOn disk) path, disk) := by
  have hread : (Disk.system.readSource path).run disk =
      pure ((disk.read path).map Text.decode, disk) := rfl
  rw [analyzeFile, StateT.run_bind, hread, pure_bind, settle, attemptOn, alone, attemptOn, shown]
  cases disk.read path with
  | ok bytes => rfl
  | error error =>
    dsimp only [Except.map]
    split <;> rfl

theorem run_pool_system (disk : Disk) (schedule : List Nat)
    (p : Pool String Failure FileResult) :
    (Pool.run (e.analyzeFile Disk.system) p schedule).run disk =
      pure (Pool.run (m := Id) (e.settle (e.attemptOn disk)) p schedule, disk) := by
  have hadvance (cancelled : Bool) (t : Task String Failure FileResult) :
      (Pool.advance (e.analyzeFile Disk.system) cancelled t).run disk =
        pure (Pool.advance (m := Id) (e.settle (e.attemptOn disk)) cancelled t, disk) := by
    obtain ⟨path, stage⟩ := t
    cases stage with
    | admitted =>
      rw [Pool.advance, StateT.run_bind, analyzeFile_system, pure_bind]
      rfl
    | _ => rfl
  have hstep (p : Pool String Failure FileResult) (place : Nat) :
      (Pool.step (e.analyzeFile Disk.system) p place).run disk =
        pure (Pool.step (m := Id) (e.settle (e.attemptOn disk)) p place, disk) := by
    rw [Pool.step, Pool.step]
    cases p.tasks[place]? with
    | none => rfl
    | some t =>
      dsimp only
      rw [StateT.run_bind, hadvance, pure_bind]
      rfl
  -- A disk that is only read is carried along unchanged, step by step.
  induction schedule generalizing p with
  | nil => rfl
  | cons place schedule ih =>
    rw [Pool.run, List.foldlM_cons, StateT.run_bind, hstep, pure_bind]
    exact ih _

theorem isDirectory_system (disk : Disk) (path : String) :
    ∃ b, (Disk.system.isDirectory path).run disk = pure (b, disk) := by
  simp only [Disk.system, StateT.run_bind, StateT.run_get, pure_bind]
  split <;> exact ⟨_, rfl⟩

/-- Looking for the sources leaves the files as they are. -/
theorem sourceDirectory_system (disk : Disk) :
    ((e.sourceDirectory Disk.system).run disk).2 = disk := by
  rw [sourceDirectory, StateT.run_bind]
  obtain ⟨b, hb⟩ := isDirectory_system disk e.options.workspace
  rw [hb, pure_bind]
  dsimp only
  split
  · rfl
  · split
    · rfl
    · obtain ⟨b', hb'⟩ :=
        isDirectory_system disk (Path.join e.options.workspace e.options.source)
      rw [StateT.run_bind, hb', pure_bind]
      dsimp only
      split <;> rfl

theorem sourceFiles_system (disk : Disk) (source : String) (extensions : List String) :
    ((Disk.system.sourceFiles source extensions).run disk).2 = disk := by
  have hfiles : ∃ files, (Disk.system.files source).run disk = pure (files, disk) := by
    simp only [Disk.system, StateT.run_bind, StateT.run_get, pure_bind]
    split <;> exact ⟨_, rfl⟩
  obtain ⟨files, hfiles⟩ := hfiles
  rw [FileSystem.sourceFiles, StateT.run_bind, hfiles]
  rfl

/-- The paths of the source files on a disk, in the order of paths. -/
def sourcesOn (disk : Disk) (source : String) : List String :=
  ((Disk.system.sourceFiles source (e.options.extensions e.config)).run disk).1

/-- What is run on a disk is a batch, with one of the schedules that there are. -/
theorem run_system {disk : Disk} {source : String}
    (h : ((e.sourceDirectory Disk.system).run disk).1 = .ok source) :
    (e.run Disk.system).run disk = ((e.batch (e.attemptOn disk) (e.sourcesOn disk source)
      (Pool.schedule (e.options.workers.getD 1) (e.sourcesOn disk source).length)).map fun files ↦
        { source, files }, disk) := by
  have hsource : (e.sourceDirectory Disk.system).run disk = pure (.ok source, disk) :=
    Prod.ext h (e.sourceDirectory_system disk)
  have hpaths : (Disk.system.sourceFiles source (e.options.extensions e.config)).run disk =
      pure (e.sourcesOn disk source, disk) := Prod.ext rfl (sourceFiles_system disk source _)
  rw [run, StateT.run_bind, hsource, pure_bind]
  dsimp only
  rw [StateT.run_bind, hpaths, pure_bind, StateT.run_bind, analyzeFiles, StateT.run_bind,
    run_pool_system, pure_bind]
  rfl

/-! ### Any schedule -/

variable {e attempt paths}

/-- A file that is attempted means a file for itself, unless it ends the batch. -/
theorem settle_eq_ok_iff {path : String} {file : FileResult} :
    e.settle attempt path = .ok file ↔
      e.alone attempt path = file ∧ (e.options.failFast = true → ∃ f, attempt path = .ok f) := by
  rw [settle, alone]
  cases attempt path with
  | ok f => simp
  | error reason => cases e.options.failFast <;> simp

theorem settle_eq_error_iff {path : String} {failure : Failure} :
    e.settle attempt path = .error failure ↔ e.options.failFast = true ∧
      ∃ reason, attempt path = .error reason ∧ .analysis path reason = failure := by
  rw [settle]
  cases attempt path with
  | ok f => simp
  | error reason => cases e.options.failFast <;> simp

/-- **What comes of a batch does not depend on the schedule**, if every task comes to its end: files
are told in their order, each as it is for itself. If a file that fails is to end the batch, then it
is ended by the failure of a file that does fail if there is one, and no file is missing otherwise.
What is run on a disk has such a schedule, whatever the number of workers. -/
theorem batch_does_not_depend_on_schedule (e : Engine)
    (attempt : String → Except String FileResult) (paths : List String) (schedule : List Nat)
    (h : Pool.IsComplete paths.length schedule) :
    (e.options.failFast = false →
      e.batch attempt paths schedule = .ok (paths.map (e.alone attempt))) ∧
    (e.options.failFast = true → (∀ path ∈ paths, ∃ file, attempt path = .ok file) →
      e.batch attempt paths schedule = .ok (paths.map (e.alone attempt))) ∧
    (e.options.failFast = true → (∃ path ∈ paths, ∃ reason, attempt path = .error reason) →
      ∃ path ∈ paths, ∃ reason, attempt path = .error reason ∧
        e.batch attempt paths schedule = .error (.analysis path reason)) ∧
    (∀ files, e.batch attempt paths schedule = .ok files → files = paths.map (e.alone attempt)) ∧
    ∀ disk source, ((e.sourceDirectory Disk.system).run disk).1 = .ok source →
      ∃ schedule, Pool.IsComplete (e.sourcesOn disk source).length schedule ∧
        (e.run Disk.system).run disk = ((e.batch (e.attemptOn disk) (e.sourcesOn disk source)
          schedule).map fun files ↦ { source, files }, disk) := by
  have hresult : e.batch attempt paths schedule = paths.mapM (e.settle attempt) ∨
      ∃ path ∈ paths, ∃ failure, e.settle attempt path = .error failure ∧
        e.batch attempt paths schedule = .error failure := Pool.results_of_complete _ h
  have hok (hall : ∀ path ∈ paths, e.settle attempt path = .ok (e.alone attempt path)) :
      e.batch attempt paths schedule = .ok (paths.map (e.alone attempt)) := by
    obtain hresult | ⟨path, hpath, failure, hfailure, -⟩ := hresult
    · rw [hresult, mapM_eq_ok_map hall]
    · exact nomatch (hall path hpath).symm.trans hfailure
  -- One part each for a batch that goes on, one without failures, one with a failure, and a disk.
  refine ⟨fun hslow ↦ hok fun path _ ↦ ?_, fun _ hall ↦ hok fun path hpath ↦ ?_,
    fun hfast hfails ↦ ?_, fun files hfiles ↦ ?_, fun disk source hsource ↦ ?_⟩
  · exact settle_eq_ok_iff.2 ⟨rfl, fun hfast ↦ nomatch hslow.symm.trans hfast⟩
  · exact settle_eq_ok_iff.2 ⟨rfl, fun _ ↦ hall path hpath⟩
  · have hends : ∃ path ∈ paths, ∃ failure, e.settle attempt path = .error failure ∧
        e.batch attempt paths schedule = .error failure := by
      refine hresult.elim (fun hresult ↦ ?_) id
      rw [hresult]
      cases hfiles : paths.mapM (e.settle attempt) with
      | error failure =>
        obtain ⟨path, hpath, hfailure⟩ := exists_of_mapM_eq_error hfiles
        exact ⟨path, hpath, failure, hfailure, rfl⟩
      | ok files =>
        obtain ⟨path, hpath, reason, hreason⟩ := hfails
        obtain ⟨file, hfile⟩ := forall_mem_of_mapM_ok hfiles path hpath
        obtain ⟨f, hf⟩ := (settle_eq_ok_iff.1 hfile).2 hfast
        -- If nothing had failed, the file that does fail would have been settled.
        exact nomatch hf.symm.trans hreason
    obtain ⟨path, hpath, failure, hfailure, hbatch⟩ := hends
    obtain ⟨-, reason, hreason, rfl⟩ := settle_eq_error_iff.1 hfailure
    exact ⟨path, hpath, reason, hreason, hbatch⟩
  · obtain hresult | ⟨path, hpath, failure, -, hbatch⟩ := hresult
    · have hall := mapM_eq_ok_iff.1 (hresult.symm.trans hfiles)
      refine (List.forall₂_eq_eq_eq ▸ List.forall₂_map_left_iff.2 (hall.imp fun path file hfile ↦
        (settle_eq_ok_iff.1 hfile).1) : paths.map (e.alone attempt) = files).symm
    · exact nomatch hfiles.symm.trans hbatch
  · exact ⟨_, Pool.isComplete_schedule _ _, e.run_system hsource⟩

/-- The second of three files fails while the first one is worked on, and the third one is skipped.
-/
theorem failing_file_ends_batch :
    ∃ (e : Engine) (attempt : String → Except String FileResult) (paths : List String)
      (schedule : List Nat), e.options.failFast = true ∧ paths = ["а.bsl", "б.bsl", "в.bsl"] ∧
      schedule = [0, 1, 1, 1, 0, 2, 0, 0, 1, 2, 2, 2] ∧ Pool.IsComplete paths.length schedule ∧
      e.batch attempt paths schedule = .error (.analysis "б.bsl" "panic during analysis") := by
  obtain ⟨attempt, hattempt⟩ : ∃ f : String → Except String FileResult, f = fun path ↦
    if path = "б.bsl" then .error "panic during analysis" else .ok { path } := ⟨_, rfl⟩
  have hcomplete : Pool.IsComplete 3 [0, 1, 1, 1, 0, 2, 0, 0, 1, 2, 2, 2] := by decide
  refine ⟨⟨{ failFast := true }, .standard, ⟨[]⟩⟩, attempt, _, _, rfl, rfl, rfl, hcomplete, ?_⟩
  obtain ⟨-, -, hfails, -⟩ := batch_does_not_depend_on_schedule
    ⟨{ failFast := true }, .standard, ⟨[]⟩⟩ attempt ["а.bsl", "б.bsl", "в.bsl"] _ hcomplete
  obtain ⟨path, -, reason, hreason, hbatch⟩ := hfails rfl
    ⟨"б.bsl", by decide, "panic during analysis", by rw [hattempt]; rfl⟩
  rw [hbatch]
  rw [hattempt] at hreason
  dsimp only at hreason
  split at hreason
  next hpath => rw [hpath, Except.error.inj hreason]
  next => exact nomatch hreason

end BslLint.Engine
