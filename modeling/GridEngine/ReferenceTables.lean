import GridEngine.JobTasks

/-!
# The reference tables of the ticket calculation

`sge_calc_tickets` first counts the tasks that take part, for the sizes of the `job_ref` array and
of the task reference table, and then fills both while it walks over the jobs again. The counters
are 32 bit numbers with and without a sign; the table of an earlier run is kept when its size fits.
The lists of a job have fewer than `2 ^ 31` elements.
-/

namespace GridEngine.ReferenceTables

def jIdle : ℕ := 0x00000000
def jMigrating : ℕ := 0x00000020
def jRunning : ℕ := 0x00000080
def jSuspended : ℕ := 0x00000100
def jTransfering : ℕ := 0x00000200
def jSuspendedOnThreshold : ℕ := 0x00010000

/-- A job with the `JAT_status` of its enrolled tasks, by task number. -/
structure EeJob extends Job where
  jatStatus : ℕ → ℕ

/-- `job_is_active`. -/
def jobIsActive (job : EeJob) (jaTask : JaTask) : Bool :=
  let jobStatus := job.jatStatus jaTask.taskNumber
  (jobStatus = jIdle ||
      jobStatus &&& (jRunning ||| jMigrating ||| jQueued ||| jTransfering) ≠ 0) &&
    !(jaTask.state &&& (jSuspended ||| jSuspendedOnThreshold) ≠ 0)

/-- The conversion to `int`. -/
def toInt (x : ℤ) : ℤ := Int.bmod x (2 ^ 32)

/-- The conversion to `u_long32`. -/
def toUlong (x : ℤ) : ℕ := (x % 2 ^ 32).toNat

section Counting

/-- `num_jobs`, `num_queued_jobs` and `num_unenrolled_tasks`. -/
structure Counts where
  numJobs : ℤ
  numQueuedJobs : ℤ
  numUnenrolledTasks : ℕ

/-- The loop over the enrolled tasks, with the value of `task_cnt` behind it. -/
def countEnrolled (job : EeJob) (max : ℕ) : List JaTask → ℕ → Counts → ℕ × Counts
  | [], taskCnt, counts => (taskCnt, counts)
  | jaTask :: jaTasks, taskCnt, counts =>
      if max < taskCnt + 1 then (taskCnt + 1, counts)
      else
        countEnrolled job max jaTasks (taskCnt + 1)
          (if jobIsActive job jaTask then
            { counts with
              numJobs := toInt (counts.numJobs + 1)
              numQueuedJobs := toInt (counts.numQueuedJobs + 1) }
          else counts)

/-- Counts the tasks of a queued job. -/
def countQueued (srt : PSortList Range Range.min) (fuel max : ℕ) (counts : Counts) (job : EeJob) :
    Option Counts :=
  match countEnrolled job max job.jaTasks 0 counts with
  | (taskCnt, counts) =>
      if ¬ max < taskCnt then
        (jobGetNotEnrolledJaTasks srt fuel job.toJob).map fun (notEnrolled : ℕ) =>
          let space := toInt (max - taskCnt)
          let tasks := toInt notEnrolled
          let numUnenrolledTasksForJob := toUlong (min space tasks)
          { numJobs := toInt (counts.numJobs + numUnenrolledTasksForJob)
            numQueuedJobs := toInt (counts.numQueuedJobs + numUnenrolledTasksForJob)
            numUnenrolledTasks := wadd counts.numUnenrolledTasks numUnenrolledTasksForJob }
      else some counts

/-- Counts the active tasks of a running job. -/
def countRunning (counts : Counts) (job : EeJob) : Counts :=
  job.jaTasks.foldl (fun counts jaTask =>
    if jobIsActive job jaTask then { counts with numJobs := toInt (counts.numJobs + 1) }
    else counts) counts

end Counting

section Table

/-- `task_ref_initialize_table`, on `task_ref_entries`. -/
def taskRefInitializeTable (taskRefEntries numberOfTasks : ℕ) : ℕ :=
  if taskRefEntries ≠ numberOfTasks ∧ 0 < numberOfTasks then numberOfTasks else taskRefEntries

end Table

section Filling

/-- An access to one of the tables. -/
inductive Access
  | jobRef (index : ℕ)
  | taskRef (index : ℕ)

/-- The next indices, and the accesses so far. -/
structure Filled where
  jobNdx : ℕ
  jaTaskNdx : ℕ
  accesses : List Access

/-- An enrolled task gets the next reference. -/
def Filled.addTask (filled : Filled) : Filled :=
  { filled with
    jobNdx := filled.jobNdx + 1
    accesses := filled.accesses ++ [.jobRef filled.jobNdx] }

/-- A task that is not enrolled gets the next reference and the next entry of the table. -/
def Filled.addUnenrolled (filled : Filled) : Filled where
  jobNdx := filled.jobNdx + 1
  jaTaskNdx := filled.jaTaskNdx + 1
  accesses := filled.accesses ++ [.jobRef filled.jobNdx, .taskRef filled.jaTaskNdx]

/-- The references of a running job. -/
def fillRunning (filled : Filled) (job : EeJob) : Filled :=
  job.jaTasks.foldl (fun filled jaTask =>
    if jobIsActive job jaTask then filled.addTask else filled) filled

/-- The loop over the enrolled tasks of a queued job. -/
def fillEnrolled (job : EeJob) (max : ℕ) (state : ℕ × Filled) (jaTask : JaTask) : ℕ × Filled :=
  (state.1 + 1,
    if max < state.1 + 1 || !jobIsActive job jaTask then state.2 else state.2.addTask)

/-- The loop over the ids of a range. -/
def fillIds (max : ℕ) (range : Range) (taskCnt id : ℕ) (filled : Filled) : ℕ × Filled :=
  if id ≤ range.max then
    if max < taskCnt + 1 then (taskCnt + 1, filled)
    else fillIds max range (taskCnt + 1) (wadd id range.step) filled.addUnenrolled
  else (taskCnt, filled)
termination_by max - taskCnt

/-- The loops of a queued job. -/
def fillQueued (max : ℕ) (filled : Filled) (job : EeJob) : Filled :=
  let state := job.jaTasks.foldl (fillEnrolled job max) (0, filled)
  (((job.idLists .jaNHIds).getD []).foldl
    (fun state range => fillIds max range state.1 range.min state.2) state).2

end Filling

section Calls

/-- What a call of `sge_calc_tickets` depends on here. -/
structure Call where
  running : List EeJob
  queued : List EeJob
  maxPendingTasksPerJob : ℕ
  freeQslots : ℕ

/-- `MIN(max_pending_tasks_per_job, free_qslots+1)`. -/
def Call.max (call : Call) : ℕ := min call.maxPendingTasksPerJob (wadd call.freeQslots 1)

/-- What a call leaves behind. -/
structure Outcome where
  counts : Counts
  taskRefEntries : ℕ
  filled : Filled

variable (srt : PSortList Range Range.min) (fuel : ℕ)

/-- The counting and the filling pass, with the size of the table from earlier runs. -/
def sgeCalcTickets (taskRefEntries : ℕ) (call : Call) : Option Outcome := do
  let counts ← call.queued.foldlM (countQueued srt fuel call.max) ⟨0, 0, 0⟩
  let counts := call.running.foldl countRunning counts
  let taskRefEntries :=
    if 0 < counts.numUnenrolledTasks then
      taskRefInitializeTable taskRefEntries counts.numUnenrolledTasks
    else taskRefEntries
  let filled := call.running.foldl fillRunning ⟨0, 0, []⟩
  let filled := call.queued.foldl (fillQueued call.max) filled
  some ⟨counts, taskRefEntries, filled⟩

/-- The calls of the scheduler thread, one after the other. -/
def schedulingRuns (taskRefEntries : ℕ) : List Call → Option (List Outcome)
  | [] => some []
  | call :: calls => do
      let outcome ← sgeCalcTickets srt fuel taskRefEntries call
      let outcomes ← schedulingRuns outcome.taskRefEntries calls
      some (outcome :: outcomes)

/-- Every access is to an existing element: the array has as many elements as were counted. -/
def Outcome.Safe (outcome : Outcome) : Prop :=
  ∀ access ∈ outcome.filled.accesses,
    match access with
    | .jobRef index => (index : ℤ) < outcome.counts.numJobs
    | .taskRef index => index < outcome.taskRefEntries

end Calls

end GridEngine.ReferenceTables
