import GridEngine.JobSplit
import GridEngine.Ledger

/-!
# The usage of users and projects

What `sge_calc_tickets` of `libs/sched/sgeee.c` does with the usage of the jobs when `do_usage` is
set: the finished jobs first, then every reference of the job reference array. The decayed usage
and the tickets are left out, and amounts are exact.
-/

namespace GridEngine
open Ledger

/-- A list of `UA_Type` elements. -/
abbrev UaList := Counters String ℚ

/-- The names that `usage_list_arith` sums up. -/
def usageCounted (name : String) : Bool :=
  name ∈ ["cpu", "io", "iow", "vmem", "mem", "finished_jobs"] ||
    "acct_".isPrefixOf name || "ru_".isPrefixOf name

/-- `usage_list_sum` -/
def usageListSum (usageList1 usageList2 : UaList) : UaList :=
  usageList2.list.foldl (fun l usage =>
    if usageCounted usage.name then (l.ensure usage.name).add usage.name usage.value else l)
    usageList1

/-- `usage_list_sub` -/
def usageListSub (usageList1 usageList2 : UaList) : UaList :=
  usageList2.list.foldl (fun l usage =>
    if usageCounted usage.name then
      if usage.name ∈ l.list.map Counter.name then
        l.set usage.name (max 0 (l.amount usage.name - usage.value))
      else l.ensure usage.name
    else l) usageList1

/-- `build_usage_list` without an old list -/
def buildUsageList : UaList := ((Counters.empty.ensure "cpu").ensure "mem").ensure "io"

def jMigrating : ℕ := 0x00000020
def jRunning : ℕ := 0x00000080
def jTransfering : ℕ := 0x00000200

/-- A `JAT_Type` element. `taskList` holds the `PET_scaled_usage` of its parallel tasks. -/
structure UsageTask where
  taskNumber : ℕ
  status : ℕ
  state : ℕ
  scaledUsageList : UaList
  taskList : List UaList
deriving DecidableEq

/-- A `JB_Type` element. `jaStructure` tells whether the job has the list of that name. -/
structure UsageJob where
  jobNumber : ℕ
  owner : String
  project : Option String
  jaStructure : Bool
  jaTasks : List UsageTask
deriving DecidableEq

/-- `job_is_active` -/
def jobIsActive (jaTask : UsageTask) : Bool :=
  (jaTask.status = jIdle ∨
    jaTask.status &&& (jRunning ||| jMigrating ||| jQueued ||| jTransfering) ≠ 0) ∧
  jaTask.state &&& (jSuspended ||| jSuspendedOnThreshold) = 0

/-- A `UU_Type` or `PR_Type` element: the long term usage, the one in each project of `UU_project`,
and `UPU_old_usage_list` by job number. -/
structure UserPrj where
  longTermUsage : Option UaList
  projects : String → Option UaList
  debitedJobUsage : ℕ → Option UaList

/-- The user list and the project list. -/
structure UserPrjLists where
  users : String → Option UserPrj
  projects : String → Option UserPrj

/-- `sge_ref_t`. `jaTask` is the place of the task in `JB_ja_tasks`. -/
structure SgeRef where
  job : UsageJob
  jaTask : Option ℕ

/-- `sum_job_usage` -/
def sumJobUsage (job : UsageJob) : UaList :=
  job.jaTasks.foldl (fun usageList jbtask =>
    jbtask.taskList.foldl usageListSum (usageListSum usageList jbtask.scaledUsageList))
    Counters.empty

namespace UserPrjLists
variable (lists : UserPrjLists) (job : UsageJob)

/-- The project of the job, if it is in the project list. -/
def projectName? : Option String := job.project.filter fun p => (lists.projects p).isSome

/-- Changes the user of the job, if there is one. -/
def modifyUser (f : UserPrj → UserPrj) : UserPrjLists :=
  { lists with users := Function.update lists.users job.owner ((lists.users job.owner).map f) }

/-- Changes the project of the job, if there is one. -/
def modifyProject (f : UserPrj → UserPrj) : UserPrjLists :=
  match job.project with
  | none => lists
  | some p =>
      { lists with projects := Function.update lists.projects p ((lists.projects p).map f) }

/-- `copy_or_init_oldusage` -/
def copyOrInitOldusage : UaList :=
  match lists.users job.owner with
  | some user => (user.debitedJobUsage job.jobNumber).getD buildUsageList
  | none =>
      match job.project.bind lists.projects with
      | some project => (project.debitedJobUsage job.jobNumber).getD buildUsageList
      | none => buildUsageList

/-- Puts the list in the place of `UPU_old_usage_list`. -/
def setDebited (usageList : Option UaList) (userprj : UserPrj) : UserPrj :=
  { userprj with
    debitedJobUsage := Function.update userprj.debitedJobUsage job.jobNumber usageList }

/-- `save_oldusage` -/
def saveOldusage (usageList : UaList) : UserPrjLists :=
  if (lists.users job.owner).isSome then lists.modifyUser job (setDebited job (some usageList))
  else lists.modifyProject job (setDebited job (some usageList))

/-- `delete_debited_job_usage` -/
def deleteDebitedJobUsage : UserPrjLists :=
  (lists.modifyUser job (setDebited job none)).modifyProject job (setDebited job none)

/-- What `update_userprj_usage` adds to one long term usage list, which it makes first if it is
not there. -/
def debitUsage (jobUsageList oldUsageList : UaList) (usageList : Option UaList) : UaList :=
  jobUsageList.list.foldl (fun l jobUsage =>
    (l.ensure jobUsage.name).add jobUsage.name
      (max (jobUsage.value - oldUsageList.amount jobUsage.name) 0))
    (usageList.getD buildUsageList)

/-- `update_userprj_usage` -/
def updateUserprjUsage (jobUsageList oldUsageList : UaList) : UserPrjLists :=
  let debit := debitUsage jobUsageList oldUsageList
  let updateUser (user : UserPrj) : UserPrj :=
    match lists.projectName? job with
    | some p => { user with
        projects := Function.update user.projects p (some (debit (user.projects p))) }
    | none => { user with longTermUsage := some (debit user.longTermUsage) }
  (lists.modifyUser job updateUser).modifyProject job fun project =>
    { project with longTermUsage := some (debit project.longTermUsage) }

end UserPrjLists

/-- `decay_and_sum_usage`. There is no share tree node without a user or a project. -/
def decayAndSumUsage (lists : UserPrjLists) (ref : SgeRef) (runningPart : Option UsageJob) :
    UserPrjLists :=
  let job := ref.job
  if (lists.users job.owner).isNone ∧ (lists.projectName? job).isNone then lists
  else if ref.jaTask ≠ some 0 then lists
  else
    let finUsageList := sumJobUsage job
    let jobUsageList :=
      match runningPart with
      | some running => usageListSum finUsageList (sumJobUsage running)
      | none => finUsageList
    let oldUsageList := lists.copyOrInitOldusage job
    let lists := lists.updateUserprjUsage job jobUsageList oldUsageList
    let jobUsageList :=
      match runningPart with
      | some _ => usageListSub jobUsageList finUsageList
      | none => jobUsageList
    lists.saveOldusage job jobUsageList

/-- What one scheduling run is given. `maxPending` is
`MIN(max_pending_tasks_per_job, free_qslots+1)`. -/
structure SchedulingRun where
  runningJobs : List UsageJob
  finishedJobs : List UsageJob
  queuedJobs : List UsageJob
  maxPending : ℕ

/-- Sets the usage value `finished_jobs` if it is not there. -/
def UsageTask.setFinished (jaTask : UsageTask) : UsageTask :=
  if "finished_jobs" ∈ jaTask.scaledUsageList.list.map Counter.name then jaTask
  else { jaTask with
    scaledUsageList := (jaTask.scaledUsageList.ensure "finished_jobs").add "finished_jobs" 1 }

def UsageJob.setFinished (job : UsageJob) : UsageJob :=
  { job with jaTasks := job.jaTasks.map UsageTask.setFinished }

/-- The job of `running_jobs` with the tasks of a finished job that are still running. -/
def SchedulingRun.runningJob? (run : SchedulingRun) (job : UsageJob) : Option UsageJob :=
  if job.jaStructure then run.runningJobs.find? fun r => r.jobNumber = job.jobNumber else none

/-- The handling of one finished job. -/
def finishedJob (run : SchedulingRun) (lists : UserPrjLists) (job : UsageJob) : UserPrjLists :=
  let job := job.setFinished
  let jref : SgeRef := ⟨job, if job.jaTasks = [] then none else some 0⟩
  match run.runningJob? job with
  | some running => decayAndSumUsage lists jref (some running)
  | none => (decayAndSumUsage lists jref none).deleteDebitedJobUsage job

/-- The references to the first `limit` tasks of a job, as far as they are active. A task that is
not enrolled has no place in `JB_ja_tasks`, and its reference no effect on the usage. -/
def jobRefs (limit : ℕ) (job : UsageJob) : List SgeRef :=
  ((job.jaTasks.zipIdx.take limit).filter fun ja => jobIsActive ja.1).map fun ja =>
    ⟨job, some ja.2⟩

/-- The job reference array, with the enrolled tasks. -/
def SchedulingRun.jobRef (run : SchedulingRun) : List SgeRef :=
  run.runningJobs.flatMap (fun job => jobRefs job.jaTasks.length job) ++
    run.queuedJobs.flatMap (jobRefs run.maxPending)

/-- `sge_calc_tickets` -/
def sgeCalcTickets (lists : UserPrjLists) (run : SchedulingRun) : UserPrjLists :=
  run.jobRef.foldl (fun lists ref => decayAndSumUsage lists ref none)
    (run.finishedJobs.foldl (finishedJob run) lists)

end GridEngine
