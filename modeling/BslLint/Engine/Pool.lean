/-!
# Tasks that are worked on at the same time

A `Pool` holds tasks, each of which goes through the same stages, and a mark that all of them can
see. A task looks at the mark, works, sets the mark if it has failed, and files its outcome. A task
that finds the mark set does not begin.

Nothing is said about the order in which the tasks move on: a schedule is any list of tasks, and
each time a task is named in it, it moves on by one stage. `Pool.schedule` is the one that is used.
It takes a number of tasks at a time and moves them on in turn.
-/

namespace BslLint

/-- How far a task has come. -/
inductive Stage (ε α : Type) where
  /-- It has not begun. -/
  | waiting
  /-- It has found that the mark is not set. -/
  | admitted
  /-- It has an outcome. -/
  | worked (outcome : Except ε α)
  /-- It has an outcome, and the mark is set if it has failed. -/
  | told (outcome : Except ε α)
  /-- It has filed its outcome, or has none since the mark was set before it began. -/
  | filed (outcome : Option (Except ε α))

/-- Something that has to be done. -/
structure Task (ι ε α : Type) where
  /-- What it is done with. -/
  item : ι
  /-- How far it has come. -/
  stage : Stage ε α := .waiting

/-- The outcome that a task has filed. -/
def Task.outcome? {ι ε α : Type} (t : Task ι ε α) : Option (Except ε α) :=
  match t.stage with
  | .filed outcome => outcome
  | _ => none

/-- Whether an outcome is a failure. -/
def isFailure {ε α : Type} : Except ε α → Bool
  | .error _ => true
  | .ok _ => false

/-- Tasks with a mark that says whether one of them has failed. -/
structure Pool (ι ε α : Type) where
  /-- The mark. -/
  cancelled : Bool := false
  /-- The tasks. -/
  tasks : Array (Task ι ε α)

namespace Pool

variable {ι ε α : Type}

/-- Tasks that have not begun. -/
def ofList (items : List ι) : Pool ι ε α := { tasks := (items.map fun i ↦ ⟨i, .waiting⟩).toArray }

/-- Moves a task on by one stage, given the mark. The answer has the mark and the stage. -/
def advance {m : Type → Type} [Monad m] (work : ι → m (Except ε α)) (cancelled : Bool)
    (t : Task ι ε α) : m (Bool × Stage ε α) :=
  match t.stage with
  | .waiting => return (cancelled, if cancelled then .filed none else .admitted)
  | .admitted => return (cancelled, .worked (← work t.item))
  | .worked outcome => return (cancelled || isFailure outcome, .told outcome)
  | .told outcome => return (cancelled, .filed (some outcome))
  | .filed outcome => return (cancelled, .filed outcome)

/-- Moves the task at a place on by one stage. -/
def step {m : Type → Type} [Monad m] (work : ι → m (Except ε α)) (p : Pool ι ε α) (place : Nat) :
    m (Pool ι ε α) :=
  match p.tasks[place]? with
  | none => return p
  | some t => do
    let (cancelled, stage) ← advance work p.cancelled t
    return ⟨cancelled, p.tasks.setIfInBounds place { t with stage }⟩

/-- Moves tasks on as a schedule says. -/
def run {m : Type → Type} [Monad m] (work : ι → m (Except ε α)) (p : Pool ι ε α)
    (schedule : List Nat) : m (Pool ι ε α) :=
  schedule.foldlM (step work) p

/-- The results in the order of the tasks, or the first failure. -/
def results (p : Pool ι ε α) : Except ε (List α) := (p.tasks.toList.filterMap (·.outcome?)).mapM id

/-- The number of stages that a task goes through. -/
def stages : Nat := 4

/-- The schedule that moves tasks on in turn, a number of them at a time. -/
def schedule (workers tasks : Nat) : List Nat :=
  let workers := max workers 1
  (List.range ((tasks + workers - 1) / workers)).flatMap fun group ↦
    (List.replicate stages ((List.range workers).map (group * workers + ·))).flatten

end Pool

end BslLint
