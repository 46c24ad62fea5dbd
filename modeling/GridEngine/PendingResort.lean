import GridEngine.CullSortOrder
import GridEngine.PeSlots
import GridEngine.RangeSets

/-!
# The order of the pending jobs

`sgeee_sort_jobs` sorts the pending jobs by falling priority, then by submission time and job
number. When a task of the first job was dispatched `sgeee_resort_pending_jobs` updates the
template of the job from the reference table of its next task and puts the job where it now
belongs. A job without an enrolled task that the table does not know stays first, which is where
it belongs only if its template still has the priority for it.
-/

namespace GridEngine.PendingOrder
open Comparators CullSort

variable {P : Type}

/-- What the sort and the update of the priority use of a `JAT_Type` element. -/
structure JaTask (P : Type) where
  taskNumber : ℕ
  state : ℕ
  masterQueue : Option String
  tix : P
  fticket : P
  sticket : P
  oticket : P
  share : P
  fshare : ℕ
  ntix : P
  prio : P
deriving DecidableEq

/-- What they use of a `JB_Type` element; the template is the first element of its list. -/
structure PendingJob (P : Type) where
  jobNumber : ℕ
  submissionTime : ℕ
  jobName : Option String
  owner : Option String
  nurg : P
  nppri : P
  jaNHIds : Option (List Range)
  jaTasks : List (JaTask P)
  jaTemplate : JaTask P
deriving DecidableEq

section FullSort

/-- `SGEJ_Type`. -/
structure SgejElem (P : Type) where
  priority : P
  jobNumber : ℕ
  jobName : Option String
  owner : Option String
  state : ℕ
  masterQueue : Option String
  jobReference : PendingJob P
  submissionTime : ℕ

/-- The fields of `SGEJ_Type` that a sort can name. -/
inductive SgejField
  | priority | jobNumber | jobName | owner | state | masterQueue | submissionTime
deriving DecidableEq

/-- The task that stands for the job: the first enrolled one, else the template. -/
def PendingJob.firstTask (job : PendingJob P) : JaTask P := job.jaTasks.head?.getD job.jaTemplate

/-- The element of the temporary list; the texts and the state are set only for other orders. -/
def sgejElem (byField : SgejField) (job : PendingJob P) : SgejElem P :=
  let full := byField ≠ .priority
  { priority := job.firstTask.prio
    jobNumber := job.jobNumber
    jobName := if full then job.jobName else none
    owner := if full then job.owner else none
    state := if full then job.firstTask.state else 0
    masterQueue := if full then job.firstTask.masterQueue else none
    jobReference := job
    submissionTime := job.submissionTime }

variable [LinearOrder P]

/-- The compare function of a field of `SGEJ_Type`. -/
def sgejCmp (strcmp : String → String → ℤ) : SgejField → SgejElem P → SgejElem P → ℤ
  | .priority, a, b => numbercmp a.priority b.priority
  | .jobNumber, a, b => numbercmp a.jobNumber b.jobNumber
  | .jobName, a, b => sgeStrnullcmp strcmp a.jobName b.jobName
  | .owner, a, b => sgeStrnullcmp strcmp a.owner b.owner
  | .state, a, b => numbercmp a.state b.state
  | .masterQueue, a, b => sgeStrnullcmp strcmp a.masterQueue b.masterQueue
  | .submissionTime, a, b => numbercmp a.submissionTime b.submissionTime

/-- The format for the two flags. The last branch is never reached. -/
def sortorder (fieldSortDirection jobnumSortDirection : Bool) : List Char :=
  if fieldSortDirection && jobnumSortDirection then
    ['%', 'I', '+', ' ', '%', 'I', '+', ' ', '%', 'I', '+']
  else if !fieldSortDirection then
    ['%', 'I', '-', ' ', '%', 'I', '+', ' ', '%', 'I', '+']
  else if !jobnumSortDirection then
    ['%', 'I', '+', ' ', '%', 'I', '-', ' ', '%', 'I', '-']
  else ['%', 'I', '-', ' ', '%', 'I', '-', ' ', '%', 'I', '-']

variable (qsort : Qsort (SgejElem P)) (strcmp : String → String → ℤ)

/-- `sgeee_sort_jobs_by`. -/
def sgeeeSortJobsBy (byField : SgejField) (fieldSortDirection jobnumSortDirection : Bool)
    (jobs : List (PendingJob P)) : List (PendingJob P) :=
  (lPSortList qsort (sgejCmp strcmp) (sortorder fieldSortDirection jobnumSortDirection)
    [byField, .submissionTime, .jobNumber] (jobs.map (sgejElem byField))).map
      SgejElem.jobReference

/-- `sgeee_sort_jobs`, with `SGEJ_sort_decending` for the priority and `SGEJ_sort_ascending`. -/
def sgeeeSortJobs (jobs : List (PendingJob P)) : List (PendingJob P) :=
  sgeeeSortJobsBy qsort strcmp .priority false true jobs

end FullSort

section Reinsertion

/-- `sge_task_ref_t`. -/
structure TaskRef (P : Type) where
  jobNumber : ℕ
  jaTaskNumber : ℕ
  jaTaskFticket : P
  jaTaskSticket : P
  jaTaskOticket : P
  jaTaskTicket : P
  jaTaskShare : P
  jaTaskFshare : ℕ

/-- The thread's reference table and ticket range, and the scheduler configuration. -/
structure TicketState (P : Type) where
  taskRefTable : List (TaskRef P)
  minTix : P
  maxTix : P
  reportPjobTickets : Bool
  weightUrgency : P
  weightPriority : P
  weightTicket : P

/-- `task_ref_get_first`. -/
def taskRefGetFirst (table : List (TaskRef P)) (jobNumber jaTaskNumber : ℕ) : Option (TaskRef P) :=
  table.find? fun tref => tref.jobNumber = jobNumber && tref.jaTaskNumber = jaTaskNumber

/-- `task_ref_copy_to_ja_task`. -/
def taskRefCopyToJaTask (tref : TaskRef P) (task : JaTask P) : JaTask P :=
  { task with
    taskNumber := tref.jaTaskNumber
    tix := tref.jaTaskTicket
    fticket := tref.jaTaskFticket
    sticket := tref.jaTaskSticket
    oticket := tref.jaTaskOticket
    share := tref.jaTaskShare
    fshare := tref.jaTaskFshare }

variable [LinearOrder P] [Zero P] [Add P] [Sub P] [Mul P] [Div P] [OfScientific P]

/-- `sge_normalize_value`; the bound is `SGE_EPSILON`. -/
def sgeNormalizeValue (value rangeMin rangeMax : P) : P :=
  if rangeMax - rangeMin < 0.00001 then 0.5 else (value - rangeMin) / (rangeMax - rangeMin)

/-- `recompute_prio`. -/
def recomputePrio (st : TicketState P) (tref : TaskRef P) (task : JaTask P) (nurg npri : P) :
    JaTask P :=
  let ntix := sgeNormalizeValue tref.jaTaskTicket st.minTix st.maxTix
  { task with
    ntix := ntix
    prio := st.weightUrgency * nurg + st.weightPriority * npri + st.weightTicket * ntix }

/-- The entry of the first task that is not enrolled. -/
def nextTaskRef (st : TicketState P) (job : PendingJob P) : Option (TaskRef P) :=
  taskRefGetFirst st.taskRefTable job.jobNumber (rangeListGetFirstId (job.jaNHIds.getD []))

/-- Updates the template from its entry. -/
def updateTemplate (st : TicketState P) (tref : TaskRef P) (job : PendingJob P) : PendingJob P :=
  let doNurg := st.weightUrgency ≠ 0 ∨ st.reportPjobTickets
  let doNpri := st.weightPriority ≠ 0 ∨ st.reportPjobTickets
  let nurg := if doNurg then job.nurg else 0.5
  let npri := if doNpri then job.nppri else 0.5
  { job with
    jaTemplate := recomputePrio st tref (taskRefCopyToJaTask tref job.jaTemplate) nurg npri }

/-- The job and the task by which it is inserted, if it is inserted at all. -/
def nextTask (st : TicketState P) (job : PendingJob P) : PendingJob P × Option (JaTask P) :=
  match job.jaTasks.head? with
  | some task => (job, some task)
  | none =>
      match nextTaskRef st job with
      | some tref =>
          let job := updateTemplate st tref job
          (job, some job.jaTemplate)
      | none => (job, none)

/-- The loop that looks for the job to insert behind. -/
def insertJob (nextJob : PendingJob P) (prio : P) : List (PendingJob P) → List (PendingJob P)
  | [] => [nextJob]
  | jep :: jobs =>
      let prio2 := jep.firstTask.prio
      if prio > prio2 ∨ (prio = prio2 ∧ (nextJob.submissionTime < jep.submissionTime ∨
          (nextJob.submissionTime = jep.submissionTime ∧ nextJob.jobNumber < jep.jobNumber))) then
        nextJob :: jep :: jobs
      else jep :: insertJob nextJob prio jobs

/-- `sgeee_resort_pending_jobs`. -/
def sgeeeResortPendingJobs (st : TicketState P) : List (PendingJob P) → List (PendingJob P)
  | [] => []
  | nextJob :: jobs =>
      match nextTask st nextJob with
      | (nextJob, some task) => insertJob nextJob task.prio jobs
      | (nextJob, none) => nextJob :: jobs

/-- What `job_move_first_pending_to_running` leaves of the pending job. -/
def moveFirstPending (job : PendingJob P) : PendingJob P :=
  match job.jaTasks with
  | _ :: tasks => { job with jaTasks := tasks }
  | [] =>
      let id := rangeListGetFirstId (job.jaNHIds.getD [])
      { job with
        jaNHIds := (rangeListRemoveId job.jaNHIds id).map rangeListCompress
        jaTemplate := { job.jaTemplate with taskNumber := id } }

end Reinsertion

section Keys

/-- Falling priority, then submission time, then job number. -/
def jobKey (job : PendingJob P) : Pᵒᵈ ×ₗ ℕ ×ₗ ℕ :=
  toLex (OrderDual.toDual job.firstTask.prio, toLex (job.submissionTime, job.jobNumber))

/-- The key of an element of the temporary list. -/
def elemKey (elem : SgejElem P) : Pᵒᵈ ×ₗ ℕ ×ₗ ℕ :=
  toLex (OrderDual.toDual elem.priority, toLex (elem.submissionTime, elem.jobNumber))

theorem elemKey_sgejElem (byField : SgejField) (job : PendingJob P) :
    elemKey (sgejElem byField job) = jobKey job := rfl

theorem jobNumber_eq_of_jobKey_eq {a b : PendingJob P} (h : jobKey a = jobKey b) :
    a.jobNumber = b.jobNumber := by
  unfold jobKey at h
  rw [toLex_inj, Prod.mk.injEq, toLex_inj, Prod.mk.injEq] at h
  exact h.2.2

variable [LinearOrder P]

theorem jobKey_lt_iff (a b : PendingJob P) : jobKey a < jobKey b ↔
    a.firstTask.prio > b.firstTask.prio ∨ (a.firstTask.prio = b.firstTask.prio ∧
      (a.submissionTime < b.submissionTime ∨
        (a.submissionTime = b.submissionTime ∧ a.jobNumber < b.jobNumber))) := by
  unfold jobKey
  rw [Prod.Lex.toLex_lt_toLex, Prod.Lex.toLex_lt_toLex, OrderDual.toDual_lt_toDual,
    OrderDual.toDual_inj]

theorem parse_sortorder : lParseSortOrder (sortorder false true)
    [SgejField.priority, .submissionTime, .jobNumber] =
      some [(.priority, -1), (.submissionTime, 1), (.jobNumber, 1)] := by
  decide

theorem lSortCompare_elemKey (strcmp : String → String → ℤ) :
    ComparesBy (lSortCompare (sgejCmp (P := P) strcmp)
      [(.priority, -1), (.submissionTime, 1), (.jobNumber, 1)]) elemKey := by
  have hprio : ComparesBy (sgejCmp (P := P) strcmp .priority) SgejElem.priority :=
    numbercmp_compares.pullback SgejElem.priority
  have htime : ComparesBy (sgejCmp (P := P) strcmp .submissionTime) SgejElem.submissionTime :=
    numbercmp_compares.pullback SgejElem.submissionTime
  have hnumber : ComparesBy (sgejCmp (P := P) strcmp .jobNumber) SgejElem.jobNumber :=
    numbercmp_compares.pullback SgejElem.jobNumber
  have hall := hprio.descending.orElse (htime.ascending.orElse
    (hnumber.ascending.orElse ComparesBy.zero))
  apply hall.of_lt_iff
  intro a b
  simp only [elemKey, Prod.Lex.toLex_lt_toLex, lt_self_iff_false, and_false, or_false]

/-- The jobs in the order of their keys; two jobs never have the same number. -/
theorem pairwise_lt_of_le {jobs : List (PendingJob P)}
    (hle : jobs.Pairwise (fun a b => jobKey a ≤ jobKey b))
    (hids : (jobs.map PendingJob.jobNumber).Nodup) :
    jobs.Pairwise (fun a b => jobKey a < jobKey b) := by
  rw [List.Nodup, List.pairwise_map] at hids
  apply (hle.and hids).imp
  intro a b h
  exact lt_of_le_of_ne h.1 fun heq => h.2 (jobNumber_eq_of_jobKey_eq heq)

end Keys

section SortedJobs
variable [LinearOrder P] (qsort : Qsort (SgejElem P)) (strcmp : String → String → ℤ)
  {jobs l : List (PendingJob P)}

theorem sgeeeSortJobs_perm (jobs : List (PendingJob P)) :
    (sgeeeSortJobs qsort strcmp jobs).Perm jobs := by
  have h := (lPSortList_perm qsort (sgejCmp strcmp) (sortorder false true)
    [.priority, .submissionTime, .jobNumber] (jobs.map (sgejElem .priority))).map
      SgejElem.jobReference
  rw [List.map_map] at h
  exact h.trans (List.Perm.of_eq (List.map_id jobs))

theorem sgeeeSortJobs_sorted (jobs : List (PendingJob P)) :
    (sgeeeSortJobs qsort strcmp jobs).Pairwise (fun a b => jobKey a ≤ jobKey b) := by
  have hsorted := lPSortList_sorted qsort (jobs.map (sgejElem .priority)) parse_sortorder
    (lSortCompare_elemKey (P := P) strcmp)
  have hperm := lPSortList_perm qsort (sgejCmp strcmp) (sortorder false true)
    [.priority, .submissionTime, .jobNumber] (jobs.map (sgejElem .priority))
  -- Every element of the temporary list still has the key of the job it refers to.
  have hkey : ∀ elem ∈ lPSortList qsort (sgejCmp strcmp) (sortorder false true)
      [.priority, .submissionTime, .jobNumber] (jobs.map (sgejElem .priority)),
      elemKey elem = jobKey elem.jobReference := by
    intro elem helem
    obtain ⟨job, -, rfl⟩ := List.mem_map.mp (hperm.mem_iff.mp helem)
    exact elemKey_sgejElem .priority job
  unfold sgeeeSortJobs sgeeeSortJobsBy
  rw [List.pairwise_map]
  apply hsorted.imp_of_mem
  intro a b ha hb hab
  rwa [hkey a ha, hkey b hb] at hab

theorem sgeeeSortJobs_eq_iff (hids : (jobs.map PendingJob.jobNumber).Nodup) (hperm : l.Perm jobs) :
    l = sgeeeSortJobs qsort strcmp jobs ↔ l.Pairwise (fun a b => jobKey a < jobKey b) := by
  have hsorted := sgeeeSortJobs_sorted qsort strcmp jobs
  have hperm' := sgeeeSortJobs_perm qsort strcmp jobs
  constructor
  · rintro rfl
    exact pairwise_lt_of_le hsorted ((hperm'.map _).nodup_iff.mpr hids)
  · intro hlt
    exact (eq_of_perm_of_sorted (hperm'.trans hperm.symm) hsorted hlt).symm

/-- The list of the first job and a sorted rest is the sorted list, or the second job is ahead. -/
theorem cons_eq_sort_iff {job : PendingJob P} {rest : List (PendingJob P)}
    (hids : ((job :: rest).map PendingJob.jobNumber).Nodup)
    (hrest : rest.Pairwise (fun a b => jobKey a < jobKey b)) :
    job :: rest = sgeeeSortJobs qsort strcmp (job :: rest) ↔
    ∀ second ∈ rest.head?, jobKey job < jobKey second := by
  rw [sgeeeSortJobs_eq_iff qsort strcmp hids (List.Perm.refl _), List.pairwise_cons]
  cases rest with
  | nil => simp
  | cons second rest =>
      simp only [List.head?_cons, Option.mem_some_iff, forall_eq']
      constructor
      · intro h
        exact h.1 second List.mem_cons_self
      · intro hlt
        refine ⟨fun other hother => ?_, hrest⟩
        rcases List.mem_cons.mp hother with rfl | hother
        · exact hlt
        · exact hlt.trans ((List.pairwise_cons.mp hrest).1 other hother)

theorem sorted_tail {job : PendingJob P} {rest : List (PendingJob P)}
    (hids : (jobs.map PendingJob.jobNumber).Nodup)
    (hsorted : sgeeeSortJobs qsort strcmp jobs = job :: rest) :
    ((job :: rest).map PendingJob.jobNumber).Nodup ∧
      (job :: rest).Pairwise (fun a b => jobKey a < jobKey b) := by
  have hperm := sgeeeSortJobs_perm qsort strcmp jobs
  rw [hsorted] at hperm
  have hnodup : ((job :: rest).map PendingJob.jobNumber).Nodup :=
    (hperm.map PendingJob.jobNumber).nodup_iff.mpr hids
  exact ⟨hnodup, (sgeeeSortJobs_eq_iff qsort strcmp hids hperm).mp hsorted.symm⟩

end SortedJobs

section Insert
variable [LinearOrder P] {nextJob : PendingJob P} {prio : P} {jobs : List (PendingJob P)}

theorem insertJob_perm (nextJob : PendingJob P) (prio : P) (jobs : List (PendingJob P)) :
    (insertJob nextJob prio jobs).Perm (nextJob :: jobs) := by
  induction jobs with
  | nil => exact List.Perm.refl _
  | cons jep jobs ih =>
      rw [insertJob]
      split_ifs
      · exact List.Perm.refl _
      · exact (ih.cons jep).trans (List.Perm.swap nextJob jep jobs)

theorem insertJob_cons (hprio : nextJob.firstTask.prio = prio) (jep : PendingJob P) :
    insertJob nextJob prio (jep :: jobs) =
      if jobKey nextJob < jobKey jep then nextJob :: jep :: jobs
      else jep :: insertJob nextJob prio jobs := by
  simp only [insertJob, jobKey_lt_iff, hprio]

theorem insertJob_sorted (hprio : nextJob.firstTask.prio = prio)
    (hjobs : jobs.Pairwise (fun a b => jobKey a < jobKey b))
    (hids : ((nextJob :: jobs).map PendingJob.jobNumber).Nodup) :
    (insertJob nextJob prio jobs).Pairwise (fun a b => jobKey a < jobKey b) := by
  induction jobs with
  | nil => exact List.pairwise_singleton _ _
  | cons jep jobs ih =>
      rw [insertJob_cons hprio]
      rw [List.map_cons, List.map_cons, List.nodup_cons, List.nodup_cons, List.mem_cons,
        not_or] at hids
      obtain ⟨hjep, hrest⟩ := List.pairwise_cons.mp hjobs
      split_ifs with hlt
      · apply List.pairwise_cons.mpr ⟨_, hjobs⟩
        intro job hjob
        rcases List.mem_cons.mp hjob with rfl | hjob
        · exact hlt
        · exact hlt.trans (hjep job hjob)
      · have hne : jobKey jep ≠ jobKey nextJob := fun heq =>
          hids.1.1 (jobNumber_eq_of_jobKey_eq heq).symm
        apply List.pairwise_cons.mpr
        constructor
        · intro job hjob
          rcases List.mem_cons.mp ((insertJob_perm nextJob prio jobs).mem_iff.mp hjob) with rfl | hjob
          · exact lt_of_le_of_ne (not_lt.mp hlt) hne
          · exact hjep job hjob
        · apply ih hrest
          rw [List.map_cons, List.nodup_cons]
          exact ⟨hids.1.2, hids.2.2⟩

end Insert

section Resorted
variable [LinearOrder P] [Zero P] [Add P] [Sub P] [Mul P] [Div P] [OfScientific P]
  (qsort : Qsort (SgejElem P)) (strcmp : String → String → ℤ) (st : TicketState P)
  {job nextJob : PendingJob P} {task : JaTask P} {jobs rest : List (PendingJob P)}

theorem nextTask_jobNumber (job : PendingJob P) :
    (nextTask st job).1.jobNumber = job.jobNumber := by
  unfold nextTask
  split
  · rfl
  · split <;> rfl

/-- A job that is inserted is inserted by the task that stands for it. -/
theorem nextTask_some (h : nextTask st job = (nextJob, some task)) : nextJob.firstTask = task := by
  unfold nextTask at h
  unfold PendingJob.firstTask
  cases htask : job.jaTasks.head? with
  | some first =>
      rw [htask] at h
      simp only [Prod.mk.injEq, Option.some.injEq] at h
      obtain ⟨rfl, rfl⟩ := h
      rw [htask, Option.getD_some]
  | none =>
      rw [htask] at h
      cases htref : nextTaskRef st job with
      | some tref =>
          rw [htref] at h
          simp only [Prod.mk.injEq, Option.some.injEq] at h
          obtain ⟨rfl, rfl⟩ := h
          have hempty : (updateTemplate st tref job).jaTasks.head? = none := htask
          rw [hempty, Option.getD_none]
      | none =>
          rw [htref] at h
          simp only [Prod.mk.injEq, reduceCtorEq, and_false] at h

theorem nextTask_none_iff (job : PendingJob P) :
    (nextTask st job).2 = none ↔ job.jaTasks = [] ∧ nextTaskRef st job = none := by
  unfold nextTask
  cases htasks : job.jaTasks with
  | cons first tasks => simp
  | nil => cases htref : nextTaskRef st job <;> simp

theorem nextTask_of_none (hempty : job.jaTasks = []) (htref : nextTaskRef st job = none) :
    nextTask st job = (job, none) := by
  rw [nextTask, hempty, List.head?_nil, htref]

/-- The list after the change, with the template as the function leaves it. -/
def recomputed (st : TicketState P) (job : PendingJob P) : PendingJob P := (nextTask st job).1

theorem sgeeeResortPendingJobs_perm (job : PendingJob P) (rest : List (PendingJob P)) :
    (sgeeeResortPendingJobs st (job :: rest)).Perm (recomputed st job :: rest) := by
  rw [sgeeeResortPendingJobs, recomputed]
  cases nextTask st job with
  | mk nextJob task =>
      cases task with
      | some task => exact insertJob_perm nextJob task.prio rest
      | none => exact List.Perm.refl _

variable (hids : ((job :: rest).map PendingJob.jobNumber).Nodup)
  (hrest : rest.Pairwise (fun a b => jobKey a < jobKey b))
include hids hrest

theorem resort_of_task (h : nextTask st job = (nextJob, some task)) :
    sgeeeResortPendingJobs st (job :: rest) = sgeeeSortJobs qsort strcmp (nextJob :: rest) := by
  have hnumber := nextTask_jobNumber st job
  rw [h] at hnumber
  have hids' : ((nextJob :: rest).map PendingJob.jobNumber).Nodup := by
    rwa [List.map_cons, hnumber]
  rw [sgeeeResortPendingJobs, h]
  apply (sgeeeSortJobs_eq_iff qsort strcmp hids' (insertJob_perm _ _ _)).mpr
  exact insertJob_sorted (by rw [nextTask_some st h]) hrest hids'

theorem resort_of_none (h : nextTask st job = (job, none)) :
    sgeeeResortPendingJobs st (job :: rest) = sgeeeSortJobs qsort strcmp (job :: rest) ↔
      ∀ second ∈ rest.head?, jobKey job < jobKey second := by
  rw [sgeeeResortPendingJobs, h]
  exact cons_eq_sort_iff qsort strcmp hids hrest

theorem resort_eq_sort_iff :
    sgeeeResortPendingJobs st (job :: rest) =
        sgeeeSortJobs qsort strcmp (recomputed st job :: rest) ↔
      job.jaTasks ≠ [] ∨ (nextTaskRef st job).isSome ∨
        ∀ second ∈ rest.head?, jobKey job < jobKey second := by
  have hnone := nextTask_none_iff st job
  by_cases htask : (nextTask st job).2 = none
  · obtain ⟨hempty, htref⟩ := hnone.mp htask
    have h := nextTask_of_none st hempty htref
    rw [recomputed, h, resort_of_none qsort strcmp st hids hrest h, hempty, htref]
    simp
  · obtain ⟨task, htask'⟩ := Option.ne_none_iff_exists'.mp htask
    have h : nextTask st job = ((nextTask st job).1, some task) := Prod.ext rfl htask'
    rw [recomputed, ← resort_of_task qsort strcmp st hids hrest h]
    simp only [true_iff]
    rw [hnone, not_and_or, ← ne_eq, ← ne_eq (nextTaskRef st job), Option.ne_none_iff_isSome] at htask
    exact htask.imp_right Or.inl

end Resorted

section Dispatched
variable [LinearOrder P] [Zero P] [Add P] [Sub P] [Mul P] [Div P] [OfScientific P]
  (qsort : Qsort (SgejElem P)) (strcmp : String → String → ℤ) (st : TicketState P)
  {job : PendingJob P} {jobs rest : List (PendingJob P)}

/-- Whatever became of the tasks and the template of the first job, it is put where the sort puts
it exactly if it has an enrolled task, or the table has its next task, or it belongs there. -/
theorem sgeeeResortPendingJobs_sorts_iff (hids : (jobs.map PendingJob.jobNumber).Nodup)
    (hsorted : sgeeeSortJobs qsort strcmp jobs = job :: rest) (tasks : List (JaTask P))
    (template : JaTask P) (ids : Option (List Range)) :
    let changed := { job with jaTasks := tasks, jaTemplate := template, jaNHIds := ids }
    (sgeeeResortPendingJobs st (changed :: rest) =
          sgeeeSortJobs qsort strcmp (recomputed st changed :: rest) ∧
        (sgeeeResortPendingJobs st (changed :: rest)).Perm (recomputed st changed :: rest)) ↔
      tasks ≠ [] ∨ (nextTaskRef st changed).isSome ∨
        ∀ second ∈ rest.head?, jobKey changed < jobKey second := by
  intro changed
  obtain ⟨hnodup, hlt⟩ := sorted_tail qsort strcmp hids hsorted
  have hchanged : ((changed :: rest).map PendingJob.jobNumber).Nodup := hnodup
  rw [and_iff_left (sgeeeResortPendingJobs_perm st changed rest)]
  exact resort_eq_sort_iff qsort strcmp st hchanged (List.pairwise_cons.mp hlt).2

/-- With `max_pending_tasks_per_job` at 1 the table has no entry for a job with an enrolled task. -/
def onePerJob : TicketState ℚ := ⟨[⟨2, 1, 0, 3, 0, 3, 0, 0⟩], 0, 1, false, 0, 0, 1⟩

/-- A task whose priority is all its ticket. -/
def taskOf (number : ℕ) (prio : ℚ) : JaTask ℚ := ⟨number, 0, none, prio, 0, 0, prio, 0, 0, prio, prio⟩

/-- Task 1 was rescheduled, so it is enrolled and the priority of the template is an old one. -/
def rescheduled : PendingJob ℚ :=
  ⟨1, 100, none, none, 0, 0, some [⟨2, 9, 1⟩], [taskOf 1 5], taskOf 1 0⟩

def waiting : PendingJob ℚ := ⟨2, 200, none, none, 0, 0, some [⟨1, 1, 1⟩], [], taskOf 1 3⟩

def noStrcmp : String → String → ℤ := fun _ _ => 0

theorem rescheduled_sorted : sgeeeSortJobs (Qsort.stable _) noStrcmp [rescheduled, waiting] =
    [rescheduled, waiting] := by
  apply Eq.symm
  apply (cons_eq_sort_iff _ _ (by decide) (List.pairwise_singleton _ _)).mpr
  intro second hsecond
  cases hsecond
  rw [jobKey_lt_iff]
  decide

theorem rescheduled_sorts_iff :
    (sgeeeResortPendingJobs onePerJob [moveFirstPending rescheduled, waiting] =
          sgeeeSortJobs (Qsort.stable _) noStrcmp
            [recomputed onePerJob (moveFirstPending rescheduled), waiting] ∧
        (sgeeeResortPendingJobs onePerJob [moveFirstPending rescheduled, waiting]).Perm
          [recomputed onePerJob (moveFirstPending rescheduled), waiting]) ↔
      (moveFirstPending rescheduled).jaTasks ≠ [] ∨
        (nextTaskRef onePerJob (moveFirstPending rescheduled)).isSome ∨
        ∀ second ∈ [waiting].head?, jobKey (moveFirstPending rescheduled) < jobKey second :=
  sgeeeResortPendingJobs_sorts_iff (Qsort.stable _) noStrcmp onePerJob (by decide)
    rescheduled_sorted [] rescheduled.jaTemplate rescheduled.jaNHIds

/-- The job whose only enrolled task was dispatched stays ahead of a job of higher priority. -/
theorem lastEnrolled_staysFirst :
    ¬ ∀ (qsort : Qsort (SgejElem ℚ)) (strcmp : String → String → ℤ) (st : TicketState ℚ)
        (jobs : List (PendingJob ℚ)) (job : PendingJob ℚ) (rest : List (PendingJob ℚ)),
      (jobs.map PendingJob.jobNumber).Nodup → sgeeeSortJobs qsort strcmp jobs = job :: rest →
        sgeeeResortPendingJobs st (moveFirstPending job :: rest) =
          sgeeeSortJobs qsort strcmp (recomputed st (moveFirstPending job) :: rest) := by
  intro h
  have heq := h (Qsort.stable _) noStrcmp onePerJob [rescheduled, waiting] rescheduled [waiting]
    (by decide) rescheduled_sorted
  rw [resort_eq_sort_iff _ _ _ (by decide) (List.pairwise_singleton _ _)] at heq
  rcases heq with htasks | htref | hfirst
  · exact htasks rfl
  · simp [nextTaskRef, taskRefGetFirst, onePerJob, rescheduled, moveFirstPending] at htref
  · have hlt := hfirst waiting rfl
    rw [jobKey_lt_iff] at hlt
    revert hlt
    decide

end Dispatched

end GridEngine.PendingOrder
