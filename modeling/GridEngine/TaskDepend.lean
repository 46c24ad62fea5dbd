import GridEngine.JobSplit
import GridEngine.TaskBookkeeping

/-!
# Array task dependencies

With `-hold_jid_ad` a task of a successor job waits for some tasks of each job in
`JB_ja_ad_predecessor_list`. The hold bit `MINUS_H_TGT_JA_AD` caches whether it waits. The cache
is filled by `sge_task_depend_init`, and when a predecessor task or job goes away
`sge_commit_job` and `sge_bury_job` recalculate it for the tasks they take to be concerned.
-/

namespace GridEngine

/-- The part of a `JB_Type` element that array dependencies read. `JAT_status` and the `PET_id`s
of `JAT_task_list` are given for the enrolled tasks, by task number. -/
structure DependJob where
  jobNumber : ℕ
  isArray : Bool
  job : Job
  jatStatus : ℕ → ℕ
  jatTaskList : ℕ → List String
  jaAdRequestList : List String
  jaAdPredecessorList : List ℕ
  jaAdSuccessorList : List ℕ

/-- The master job list, as `job_list_locate` reads it. -/
abbrev MasterJobList : Type := ℕ → Option DependJob

/-- `job_get_submit_task_ids`. -/
def jobGetSubmitTaskIds (job : DependJob) : Range :=
  match job.job.jaStructure.getD [] with
  | [] => ⟨1, 1, 1⟩
  | r :: _ => ⟨r.min, r.max, if r.step ≠ 0 then r.step else 1⟩

/-- `sge_task_depend_is_same_range`. -/
def sgeTaskDependIsSameRange (preJep sucJep : DependJob) : Bool :=
  preJep.isArray && sucJep.isArray &&
    decide ((jobGetSubmitTaskIds preJep).min = (jobGetSubmitTaskIds sucJep).min) &&
    decide ((jobGetSubmitTaskIds preJep).max = (jobGetSubmitTaskIds sucJep).max)

/-- `nearest_index_in_A`. -/
def nearestIndexInA (i t0 sa : ℕ) : ℕ := wadd t0 (wmul (wsub i t0 / sa) sa)

/-- `task_depend`, with the two bounds it stores. -/
def taskDepend (t0 sa sb stepBId : ℕ) : ℕ × ℕ :=
  (nearestIndexInA stepBId t0 sa, nearestIndexInA (wsub (wadd stepBId sb) 1) t0 sa)

/-- `sge_task_depend_get_range`; `none` is `STATUS_EUNKNOWN`. -/
def sgeTaskDependGetRange (preJep sucJep : DependJob) (taskId : ℕ) : Option Range :=
  let a := jobGetSubmitTaskIds preJep
  let b := jobGetSubmitTaskIds sucJep
  let bounds := taskDepend a.min a.step b.step taskId
  if !sgeTaskDependIsSameRange preJep sucJep then none
  else if taskId < b.min ∨ wsub taskId b.min % b.step ≠ 0 then none
  else if bounds.1 < a.min ∨ a.max < bounds.2 then none
  else some (rangeSetAllIds bounds.1 bounds.2 a.step)

/-- `task_depend_is_finished`. An element of `JAT_task_list` has no field `JB_ja_tasks`, so that
the look at it aborts: `none`. -/
def taskDependIsFinished (job : DependJob) (taskId : ℕ) : Option Bool :=
  if !jobIsEnrolled job.job taskId then some false
  else
    match jobSearchTask job.job taskId with
    | none => some true
    | some _ =>
        if job.jatStatus taskId ≠ jFinished then some false
        else if job.jatTaskList taskId = [] then some true
        else none

variable (srt : PSortList Range Range.min) (fuel : ℕ)

/-- Whether a task in the range `r` of `predJep` is not finished. -/
def dependsInRange (predJep : DependJob) (r : Range) : Option Bool := do
  let ids ← forIds fuel r.min r.max r.step
  ids.foldlM (fun depend id => (taskDependIsFinished predJep id).map (fun f => depend || !f)) false

/-- The loop over the predecessor list in `sge_task_depend_update`: the value of `Depend`. -/
def dependsOnList (jobs : MasterJobList) (jep : DependJob) (taskId : ℕ) : List ℕ → Option Bool
  | [] => some false
  | pre :: rest =>
      match jobs pre with
      | none => dependsOnList jobs jep taskId rest
      | some predJep =>
          match sgeTaskDependGetRange predJep jep taskId with
          | none => some true
          | some r => do
              if ← dependsInRange fuel predJep r then return true
              else dependsOnList jobs jep taskId rest

/-- The hold state with or without `MINUS_H_TGT_JA_AD`. -/
def adHoldState (depend : Bool) (holdState : ℕ) : ℕ :=
  if depend then holdState ||| minusHTgtJaAd
  else holdState &&& (uLong32Max ^^^ minusHTgtJaAd)

/-- `sge_task_depend_update`. -/
def sgeTaskDependUpdate (jobs : MasterJobList) (jep : DependJob) (taskId : ℕ) :
    Option DependJob := do
  if ← taskDependIsFinished jep taskId then return jep
  else
    let depend ← dependsOnList fuel jobs jep taskId jep.jaAdPredecessorList
    let holdState := jobGetHoldState jep.job taskId
    let newState := adHoldState depend holdState
    if newState ≠ holdState then
      return { jep with job := jobSetHoldState srt jep.job taskId newState }
    else return jep

/-- Takes `MINUS_H_TGT_JA_AD` out of the hold state of a task. -/
def clearJaAd (job : Job) (id : ℕ) : Job :=
  jobSetHoldState srt job id (adHoldState false (jobGetHoldState job id))

/-- The part of `sge_task_depend_flush` about `JB_ja_a_h_ids`. -/
def flushNotEnrolled (job : Job) : Option Job :=
  match job.idLists .jaAHIds with
  | none => some job
  | some aHIds => do
      let job ← aHIds.foldlM (fun job r =>
        (forIds fuel r.min r.max r.step).map (fun ids => ids.foldl (clearJaAd srt) job)) job
      return { job with idLists := Function.update job.idLists .jaAHIds none }

/-- The part of `sge_task_depend_flush` about `JB_ja_tasks`. -/
def flushEnrolled (job : Job) : Job :=
  (job.jaTasks.map JaTask.taskNumber).foldl (fun job id =>
    if jobGetHoldState job id &&& minusHTgtJaAd ≠ 0 then clearJaAd srt job id else job) job

/-- `sge_task_depend_flush`. -/
def sgeTaskDependFlush (jep : DependJob) : Option DependJob :=
  if 0 < jep.jaAdRequestList.length ∧ jep.jaAdPredecessorList.length = 0 then
    (flushNotEnrolled srt fuel jep.job).map (fun job => { jep with job := flushEnrolled srt job })
  else some jep

/-- Changes the element of a job in the master list. -/
def modifyJob (jobs : MasterJobList) (n : ℕ) (f : DependJob → Option DependJob) :
    Option MasterJobList :=
  match jobs n with
  | none => some jobs
  | some jep => (f jep).map (fun jep' => Function.update jobs n (some jep'))

/-- `sge_task_depend_init` for the job `n` of the master list. -/
def sgeTaskDependInit (jobs : MasterJobList) (n : ℕ) : Option MasterJobList :=
  match jobs n with
  | none => some jobs
  | some jep =>
      if 0 < jep.jaAdRequestList.length then
        if jep.jaAdPredecessorList.length = 0 then modifyJob jobs n (sgeTaskDependFlush srt fuel)
        else do
          let b := jobGetSubmitTaskIds jep
          let ids ← forIds fuel b.min b.max b.step
          ids.foldlM (fun jobs id => modifyJob jobs n (fun jep =>
            sgeTaskDependUpdate srt fuel jobs jep id)) jobs
      else some jobs

/-- `release_successor_tasks_ad`. -/
def releaseSuccessorTasksAd (jobs : MasterJobList) (jep : DependJob) (taskId : ℕ) :
    Option MasterJobList :=
  jep.jaAdSuccessorList.foldlM (fun jobs jid =>
    match jobs jid with
    | none => some jobs
    | some sucJep =>
        match sgeTaskDependGetRange sucJep jep taskId with
        | none => some jobs
        | some sucRange => do
            let ids ← forIds fuel sucRange.min sucRange.max sucRange.step
            ids.foldlM (fun jobs id => modifyJob jobs jid (fun sucJep =>
              sgeTaskDependUpdate srt fuel jobs sucJep id)) jobs) jobs

/-- `release_successor_jobs_ad`; `lDelSubUlong` refuses the number 0. -/
def releaseSuccessorJobsAd (jobs : MasterJobList) (jep : DependJob) : Option MasterJobList :=
  jep.jaAdSuccessorList.foldlM (fun jobs jid => modifyJob jobs jid (fun sucJep =>
    if jep.jobNumber = 0 then some sucJep
    else sgeTaskDependFlush srt fuel { sucJep with
      jaAdPredecessorList := sucJep.jaAdPredecessorList.erase jep.jobNumber })) jobs

/-- Takes a task out of its job, as `sge_bury_job` does. -/
def removeJaTask (job : Job) (taskId : ℕ) : Job :=
  if jobIsEnrolled job taskId then
    { job with jaTasks := job.jaTasks.eraseP (fun t => t.taskNumber == taskId) }
  else jobDeleteNotEnrolledJaTask job taskId

/-- `sge_bury_job`. -/
def sgeBuryJob (jobs : MasterJobList) (jep : DependJob) (taskId : ℕ) : Option MasterJobList := do
  if (← jobGetJaTasks srt fuel jep.job) = 1 then
    let jobs ← releaseSuccessorJobsAd srt fuel jobs jep
    return Function.update jobs jep.jobNumber none
  else
    let jep' := { jep with job := removeJaTask jep.job taskId }
    releaseSuccessorTasksAd srt fuel (Function.update jobs jep.jobNumber (some jep')) jep' taskId

/-- The modes of `sge_commit_job` that end a task. -/
inductive CommitMode
  | finishedFailed
  | finishedFailedEE
  | debitedEE
deriving DecidableEq, Repr

/-- Whether no task of the job is left to finish. -/
def allTasksFinished (jep : DependJob) : Option Bool :=
  (jobGetNotEnrolledJaTasks srt fuel jep.job).map (fun n => decide (n = 0) &&
    jep.job.jaTasks.all (fun t => jep.jatStatus t.taskNumber == jFinished))

/-- `sge_commit_job` in mode `COMMIT_ST_FINISHED_FAILED_EE`. -/
def commitFinishedFailedEE (jobs : MasterJobList) (jep : DependJob) (taskId : ℕ) :
    Option MasterJobList := do
  let jep' := { jep with jatStatus := Function.update jep.jatStatus taskId jFinished }
  let jobs := Function.update jobs jep.jobNumber (some jep')
  let jobs ← if taskId ≠ 0 then releaseSuccessorTasksAd srt fuel jobs jep' taskId else some jobs
  let jobs ← modifyJob jobs jep.jobNumber (fun jep =>
    some { jep with job := jobEnroll jep.job taskId })
  match jobs jep.jobNumber with
  | none => return jobs
  | some jep =>
      if ← allTasksFinished srt fuel jep then releaseSuccessorJobsAd srt fuel jobs jep
      else return jobs

/-- `sge_commit_job` for the task `taskId` of `jep`. -/
def sgeCommitJob (jobs : MasterJobList) (jep : DependJob) (taskId : ℕ) :
    CommitMode → Option MasterJobList
  | .finishedFailedEE => commitFinishedFailedEE srt fuel jobs jep taskId
  | .finishedFailed | .debitedEE => sgeBuryJob srt fuel jobs jep taskId

/-- A call of `sge_commit_job`. -/
structure DependEvent where
  job : ℕ
  task : ℕ
  mode : CommitMode
deriving DecidableEq, Repr

/-- A call is about a task that its job has, and only an enrolled task finishes. -/
def DependEvent.Admissible (e : DependEvent) (jep : DependJob) : Prop :=
  if jobIsEnrolled jep.job e.task then (jobSearchTask jep.job e.task).isSome = true
  else e.mode ≠ .finishedFailedEE

instance (e : DependEvent) (jep : DependJob) : Decidable (e.Admissible jep) :=
  inferInstanceAs (Decidable (if jobIsEnrolled jep.job e.task
    then (jobSearchTask jep.job e.task).isSome = true else e.mode ≠ .finishedFailedEE))

def DependEvent.Step (jobs : MasterJobList) (e : DependEvent) (jobs' : MasterJobList) : Prop :=
  ∃ jep, jobs e.job = some jep ∧ e.Admissible jep ∧
    sgeCommitJob srt fuel jobs jep e.task e.mode = some jobs'

end GridEngine

/-!
## The tasks a task depends on

For two jobs with the same bounds `sge_task_depend_get_range` returns the tasks whose blocks meet
the block of the given task. Asked with the jobs exchanged it returns the tasks that depend on the
given one, as long as neither call fails.
-/

namespace GridEngine
open Segments

section Loops
variable {fuel : ℕ} {r : Range} {is : List ℕ}

theorem mem_forIds_aux {a e s x : ℕ} (hs : 1 ≤ s) (hs' : s < 2 ^ 31)
    (hlt : ∀ x ∈ segment a e s, x < 2 ^ 31) (h : forIds fuel a e s = some is) :
    x ∈ is ↔ x ∈ segment a e s := by
  induction fuel generalizing a is with
  | zero => simp [forIds] at h
  | succ fuel ih =>
      rw [forIds] at h
      by_cases hle : a ≤ e
      · have hmem : a ∈ segment a e s := ⟨left_mem_grid, hle⟩
        have ha := hlt a hmem
        have hcut := segment_cut hmem
        rw [if_pos hle, Option.map_eq_some_iff, wadd_eq (by omega)] at h
        obtain ⟨js, hjs, rfl⟩ := h
        have hrest := ih (fun x hx => hlt x (hcut ▸ Or.inr hx)) hjs
        rw [List.mem_cons, hrest, hcut, segment_self]
        rfl
      · rw [if_neg hle, Option.some.injEq] at h
        rw [← h, segment_eq_empty (by omega)]
        simp

/-- The ids that the loop over a range visits. -/
theorem mem_forIds {x : ℕ} (hr : r.Valid) (h : forIds fuel r.min r.max r.step = some is) :
    x ∈ is ↔ x ∈ r.ids :=
  mem_forIds_aux hr.step_pos hr.step_lt hr.ids_lt h

end Loops

/-- A job with valid submit bounds whose task lists spell out some places. -/
structure DependJob.Ok (jep : DependJob) : Prop where
  submit : (jobGetSubmitTaskIds jep).Valid
  min_pos : 1 ≤ (jobGetSubmitTaskIds jep).min
  places : ∃ p, Refines (jobGetSubmitTaskIds jep).ids jep.job p

section GetRange
variable {a b : DependJob} {r : Range} {t x : ℕ}

theorem nearestIndexInA_eq {i t0 sa : ℕ} (h : t0 ≤ i) (hi : i < 2 ^ 32) :
    nearestIndexInA i t0 sa = blockStart t0 sa i := by
  have hdiv := Nat.div_mul_le_self (i - t0) sa
  rw [nearestIndexInA, wsub_eq h hi, wmul_eq (by omega), wadd_eq (by omega), blockStart]

theorem sgeTaskDependIsSameRange_iff : sgeTaskDependIsSameRange a b = true ↔
    a.isArray = true ∧ b.isArray = true ∧
      (jobGetSubmitTaskIds a).min = (jobGetSubmitTaskIds b).min ∧
      (jobGetSubmitTaskIds a).max = (jobGetSubmitTaskIds b).max := by
  simp [sgeTaskDependIsSameRange, and_assoc]

theorem mem_submit_lt (hb : (jobGetSubmitTaskIds b).Valid) (ht : t ∈ (jobGetSubmitTaskIds b).ids) :
    (jobGetSubmitTaskIds b).min ≤ t ∧ t < 2 ^ 31 :=
  ⟨(segment_le ht).1, hb.ids_lt t ht⟩

/-- A range that was found holds the tasks whose blocks meet the block of `t`. -/
theorem sgeTaskDependGetRange_spec (ha : (jobGetSubmitTaskIds a).Valid)
    (hb : (jobGetSubmitTaskIds b).Valid) (ht : t ∈ (jobGetSubmitTaskIds b).ids)
    (h : sgeTaskDependGetRange a b t = some r) :
    r.Ok ∧ ∀ x, x ∈ r.ids ↔ x ∈ (jobGetSubmitTaskIds a).ids ∧
      BlocksMeet x (jobGetSubmitTaskIds a).step t (jobGetSubmitTaskIds b).step := by
  obtain ⟨htmin, htlt⟩ := mem_submit_lt hb ht
  have hsa := ha.step_pos
  have hsb := hb.step_pos
  have hsb' := hb.step_lt
  simp only [sgeTaskDependGetRange] at h
  split_ifs at h with hsame hfirst hbounds
  obtain ⟨-, -, hmin, hmax⟩ := sgeTaskDependIsSameRange_iff.mp (by simpa using hsame)
  have hlow : (taskDepend (jobGetSubmitTaskIds a).min (jobGetSubmitTaskIds a).step
      (jobGetSubmitTaskIds b).step t).1 =
      blockStart (jobGetSubmitTaskIds a).min (jobGetSubmitTaskIds a).step t :=
    nearestIndexInA_eq (by omega) (by omega)
  have hup : (taskDepend (jobGetSubmitTaskIds a).min (jobGetSubmitTaskIds a).step
      (jobGetSubmitTaskIds b).step t).2 =
      blockStart (jobGetSubmitTaskIds a).min (jobGetSubmitTaskIds a).step
        (t + (jobGetSubmitTaskIds b).step - 1) := by
    rw [taskDepend, wadd_eq (by omega), wsub_eq (by omega) (by omega)]
    exact nearestIndexInA_eq (by omega) (by omega)
  rw [hlow, hup] at hbounds h
  obtain ⟨-, hend⟩ := not_or.mp hbounds
  have hendmem : blockStart (jobGetSubmitTaskIds a).min (jobGetSubmitTaskIds a).step
      (t + (jobGetSubmitTaskIds b).step - 1) ∈ (jobGetSubmitTaskIds a).ids :=
    ⟨blockStart_mem_grid, not_lt.mp hend⟩
  have hle : blockStart (jobGetSubmitTaskIds a).min (jobGetSubmitTaskIds a).step t ≤
      blockStart (jobGetSubmitTaskIds a).min (jobGetSubmitTaskIds a).step
        (t + (jobGetSubmitTaskIds b).step - 1) :=
    (le_blockStart_iff hsa (by omega) blockStart_mem_grid).mpr
      ((blockStart_le (by omega)).trans (by omega))
  obtain rfl := Option.some.inj h
  refine ⟨rangeSetAllIds_ok (grid_of_le blockStart_mem_grid blockStart_mem_grid hle)
    (ha.ids_lt _ hendmem) hsa ha.step_lt, fun x => ?_⟩
  rw [rangeSetAllIds_ids, mem_segment_blocks_iff hsa hsb (by omega)]
  constructor
  · rintro ⟨hgrid, hmeet⟩
    have hxend := (segment_le ((mem_segment_blocks_iff hsa hsb (by omega)).mpr ⟨hgrid, hmeet⟩)).2
    exact ⟨⟨hgrid, hxend.trans (not_lt.mp hend)⟩, hmeet⟩
  · rintro ⟨hx, hmeet⟩
    exact ⟨hx.1, hmeet⟩

/-- Where both calls find a range, asking with the jobs exchanged finds the dependent tasks. -/
theorem sgeTaskDependGetRange_swap {q : Range} (ha : (jobGetSubmitTaskIds a).Valid)
    (hb : (jobGetSubmitTaskIds b).Valid) (ht : t ∈ (jobGetSubmitTaskIds b).ids)
    (hx : x ∈ (jobGetSubmitTaskIds a).ids) (hr : sgeTaskDependGetRange a b t = some r)
    (hq : sgeTaskDependGetRange b a x = some q) : x ∈ r.ids ↔ t ∈ q.ids := by
  rw [(sgeTaskDependGetRange_spec ha hb ht hr).2, (sgeTaskDependGetRange_spec hb ha hx hq).2,
    blocksMeet_comm]
  simp [hx, ht]

theorem sgeTaskDependGetRange_congr {a' b' : DependJob} (ha : a'.isArray = a.isArray)
    (hb : b'.isArray = b.isArray) (ha' : jobGetSubmitTaskIds a' = jobGetSubmitTaskIds a)
    (hb' : jobGetSubmitTaskIds b' = jobGetSubmitTaskIds b) :
    sgeTaskDependGetRange a' b' t = sgeTaskDependGetRange a b t := by
  unfold sgeTaskDependGetRange sgeTaskDependIsSameRange
  rw [ha, hb, ha', hb']

end GetRange

end GridEngine
