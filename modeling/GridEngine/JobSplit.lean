import GridEngine.RangeMove
import GridEngine.JobTasks

/-!
# Splitting the job list by state

`split_jobs` gives every enrolled task to the first requested result list whose test it passes,
and the ids without a task to the list for waiting, pending or held ids. What has no requested
list stays with the job. A job is reused for its first target and copied for the others; both are
the job without its task lists here, with the tasks and ids of the target put in.
-/

namespace GridEngine
open Segments

/-- The constants `SPLIT_FIRST` to `SPLIT_LAST`. -/
inductive Split
  | pending
  | pendingExcluded
  | pendingExcludedInstances
  | suspended
  | waitingDueToPredecessor
  | hold
  | error
  | waitingDueToTime
  | running
  | finished
  | notStarted
  | deferred
deriving DecidableEq, Repr

/-- The order of the loops from `SPLIT_FIRST` to `SPLIT_LAST`. -/
def Split.order : List Split :=
  [.pending, .pendingExcluded, .pendingExcludedInstances, .suspended, .waitingDueToPredecessor,
    .hold, .error, .waitingDueToTime, .running, .finished, .notStarted, .deferred]

def jIdle : ℕ := 0x00000000
def jSuspended : ℕ := 0x00000100
def jSuspendedOnSubordinate : ℕ := 0x00002000
def jSuspendedOnSlotwiseSubordinate : ℕ := 0x00004000
def jError : ℕ := 0x00008000
def jSuspendedOnThreshold : ℕ := 0x00010000
def jFinished : ℕ := 0x00010000
def jDeferredReq : ℕ := 0x00100000

/-- A `JAT_Type` element; `attrs` are the fields the split does not look at. -/
structure SplitTask (β : Type*) where
  taskNumber : ℕ
  status : ℕ
  state : ℕ
  hold : ℕ
  attrs : β
deriving DecidableEq

/-- A `JB_Type` element; `attrs` are the fields the split does not look at. -/
structure SplitJob (α β : Type*) where
  jobNumber : ℕ
  executionTime : ℕ
  jidPredecessorList : Option (List ℕ)
  jaTaskConcurrency : ℕ
  idLists : IdList → Option (List Range)
  jaTasks : List (SplitTask β)
  attrs : α

/-- The tasks of one job by target, and the ones left in its list. -/
structure TargetTasks (β : Type*) where
  target : Split → List (SplitTask β)
  left : List (SplitTask β)

/-- `target_for_ids`, `target_ids` and what remains in `n_h_ids`. -/
structure TargetIds where
  target : Option Split
  targetIds : Option (List Range)
  nHIds : Option (List Range)

/-- What becomes of one job: an element for each result list and one for the input list. -/
structure SplitOut (α β : Type*) where
  piece : Split → Option (SplitJob α β)
  left : Option (SplitJob α β)

variable {α β : Type*} (srt : PSortList Range Range.min) (fuel : ℕ)
variable (requested : Split → Bool) (clock : SplitJob α β → Option (SplitTask β) → ℕ)
variable (maxAjInstances : ℕ) (doCopy : Bool)

/-- The chain of tests on an enrolled task, at the time `sge_get_gmt` gives for it. -/
def taskTarget (job : SplitJob α β) (t : SplitTask β) : Option Split :=
  if requested .deferred ∧ t.status &&& jDeferredReq ≠ 0 then some .deferred
  else if requested .finished ∧ t.status &&& jFinished ≠ 0 then some .finished
  else if requested .error ∧ t.state &&& jError ≠ 0 then some .error
  else if requested .waitingDueToTime ∧ clock job (some t) < job.executionTime ∧
      t.status = jIdle then some .waitingDueToTime
  else if requested .waitingDueToPredecessor ∧ job.jidPredecessorList ≠ none ∧
      t.status = jIdle then some .waitingDueToPredecessor
  else if requested .pending ∧ t.status = jIdle ∧ t.hold &&& minusHTgtAll = 0 then some .pending
  else if requested .suspended ∧ (t.state &&& jSuspended ≠ 0 ∨
      t.state &&& jSuspendedOnThreshold ≠ 0 ∨ t.state &&& jSuspendedOnSubordinate ≠ 0 ∨
      t.state &&& jSuspendedOnSlotwiseSubordinate ≠ 0) then some .suspended
  else if requested .running ∧ t.status ≠ jIdle then some .running
  else if requested .hold ∧ t.hold &&& minusHTgtAll ≠ 0 then some .hold
  else none

/-- Moves, or copies, a task into its target list. -/
def putTask (job : SplitJob α β) (acc : TargetTasks β) (t : SplitTask β) : TargetTasks β :=
  match taskTarget requested clock job t with
  | some d => ⟨Function.update acc.target d (acc.target d ++ [t]),
      if doCopy then acc.left ++ [t] else acc.left⟩
  | none => ⟨acc.target, acc.left ++ [t]⟩

def splitTasks (job : SplitJob α β) : TargetTasks β :=
  job.jaTasks.foldl (putTask requested clock doCopy job) ⟨fun _ => [], []⟩

/-- `max_aj_conc_instances`. -/
def ajLimit (job : SplitJob α β) : ℕ :=
  if 0 < job.jaTaskConcurrency ∧
      (job.jaTaskConcurrency < maxAjInstances ∨ maxAjInstances = 0) then job.jaTaskConcurrency
  else maxAjInstances

/-- The list for the ids without hold, and the ids that stay pending. -/
def splitIds (job : SplitJob α β) : Option TargetIds :=
  if requested .waitingDueToPredecessor ∧ job.jidPredecessorList ≠ none then
    some ⟨some .waitingDueToPredecessor, job.idLists .jaNHIds, none⟩
  else if requested .waitingDueToTime ∧ clock job none < job.executionTime then
    some ⟨some .waitingDueToTime, job.idLists .jaNHIds, none⟩
  else if requested .pendingExcludedInstances then
    if job.jaTasks.length < ajLimit maxAjInstances job then
      (rangeListMoveFirstNIds srt fuel (job.idLists .jaNHIds) none
        (ajLimit maxAjInstances job - job.jaTasks.length)).map
          (fun p => ⟨some .pendingExcludedInstances, p.1, p.2⟩)
    else some ⟨some .pendingExcludedInstances, job.idLists .jaNHIds, none⟩
  else some ⟨none, none, job.idLists .jaNHIds⟩

/-- The job without its tasks and ids. -/
def SplitJob.bare (job : SplitJob α β) : SplitJob α β :=
  { job with
    idLists := fun _ => none
    jaTasks := [] }

/-- Ids in one of the four hold lists. -/
def SplitJob.Held (job : SplitJob α β) : Prop :=
  job.idLists .jaUHIds ≠ none ∨ job.idLists .jaOHIds ≠ none ∨ job.idLists .jaSHIds ≠ none ∨
    job.idLists .jaAHIds ≠ none

instance (job : SplitJob α β) : Decidable job.Held := by
  unfold SplitJob.Held
  infer_instance

/-- The job gets an element in the result list `d`. -/
def Wanted (job : SplitJob α β) (tasks : TargetTasks β) (split : TargetIds) (d : Split) : Prop :=
  requested d = true ∧ (tasks.target d ≠ [] ∨ (split.target = some d ∧ split.targetIds ≠ none) ∨
    (d = .pending ∧ split.nHIds ≠ none) ∨ (d = .hold ∧ job.Held))

instance [DecidableEq β] (job : SplitJob α β) (tasks : TargetTasks β) (split : TargetIds)
    (d : Split) : Decidable (Wanted requested job tasks split d) := by
  unfold Wanted
  infer_instance

/-- The id lists of the element in the result list `d`. -/
def pieceIds (job : SplitJob α β) (split : TargetIds) (d : Split) :
    IdList → Option (List Range)
  | .jaNHIds =>
      if split.target = some d then split.targetIds
      else if d = .pending then split.nHIds
      else none
  | kind => if d = .hold then job.idLists kind else none

/-- The id lists that go back to the input list. -/
def leftIds (job : SplitJob α β) (split : TargetIds) : IdList → Option (List Range)
  | .jaNHIds => if requested .pending then none else split.nHIds
  | kind => if requested .hold then none else job.idLists kind

/-- The test for remaining tasks; its last comparison is `a_h_ids == NULL` in the source. -/
def Remaining (job : SplitJob α β) (tasks : TargetTasks β) (split : TargetIds) : Prop :=
  tasks.left ≠ [] ∨ (requested .pending = false ∧ split.nHIds ≠ none) ∨
    (requested .hold = false ∧ (job.idLists .jaUHIds ≠ none ∨ job.idLists .jaOHIds ≠ none ∨
      job.idLists .jaSHIds ≠ none ∨ job.idLists .jaAHIds = none))

instance [DecidableEq β] (job : SplitJob α β) (tasks : TargetTasks β) (split : TargetIds) :
    Decidable (Remaining requested job tasks split) := by
  unfold Remaining
  infer_instance

variable [DecidableEq β]

/-- The body of the loop over the jobs. A job that was moved away and has nothing left to keep
is not put back into the input list. -/
def splitJob (job : SplitJob α β) : Option (SplitOut α β) :=
  (splitIds srt fuel requested clock maxAjInstances job).map fun split =>
    let tasks := splitTasks requested clock doCopy job
    { piece := fun d =>
        if Wanted requested job tasks split d then
          some { job.bare with
            idLists := pieceIds job split d
            jaTasks := tasks.target d }
        else none
      left :=
        if Remaining requested job tasks split then
          some { job.bare with
            idLists := leftIds requested job split
            jaTasks := tasks.left }
        else if (∃ d ∈ Split.order, Wanted requested job tasks split d) ∧ doCopy = false then none
        else some job.bare }

/-- `split_jobs` on `job_list` and the result lists. -/
def splitJobs (jobs : List (SplitJob α β)) (results : Split → List (SplitJob α β)) :
    Option (List (SplitJob α β) × (Split → List (SplitJob α β))) :=
  jobs.foldlM (fun acc job =>
    (splitJob srt fuel requested clock maxAjInstances doCopy job).map fun out =>
      (acc.1 ++ out.left.toList, fun d => acc.2 d ++ (out.piece d).toList)) ([], results)

end GridEngine
