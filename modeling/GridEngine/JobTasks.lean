import GridEngine.RangeSets

/-!
# Array task bookkeeping

A job keeps the ids of its tasks without an element of their own in five range lists, one for
tasks without hold and one for each kind of hold, and the tasks that were dispatched in
`JB_ja_tasks`. The five lists are a function of their attribute, so that the loops of the source
over an attribute array become one definition for all attributes.
-/

namespace GridEngine

/-- The attributes `JB_ja_n_h_ids`, `JB_ja_u_h_ids`, `JB_ja_o_h_ids`, `JB_ja_s_h_ids` and
`JB_ja_a_h_ids`. -/
inductive IdList
  | jaNHIds
  | jaUHIds
  | jaOHIds
  | jaSHIds
  | jaAHIds
deriving DecidableEq, Repr

def minusHTgtUser : ℕ := 1
def minusHTgtOperator : ℕ := 2
def minusHTgtSystem : ℕ := 4
def minusHTgtJaAd : ℕ := 8
def minusHTgtAll : ℕ := 15

def jHeld : ℕ := 0x00000010
def jQueued : ℕ := 0x00000040
def jWaiting : ℕ := 0x00000800

/-- A `JAT_Type` element. -/
structure JaTask where
  taskNumber : ℕ
  state : ℕ
  hold : ℕ
deriving DecidableEq, Repr

/-- The part of a `JB_Type` element that the task lists live in. -/
structure Job where
  jaStructure : Option (List Range)
  idLists : IdList → Option (List Range)
  jaTasks : List JaTask
  /-- The one element of `JB_ja_template`. -/
  jaTemplate : JaTask

namespace IdList

/-- The `mask` array of `job_set_hold_state`. -/
def mask : IdList → ℕ
  | jaNHIds => minusHTgtAll
  | jaUHIds => minusHTgtUser
  | jaOHIds => minusHTgtOperator
  | jaSHIds => minusHTgtSystem
  | jaAHIds => minusHTgtJaAd

end IdList

variable (srt : PSortList Range Range.min) (fuel : ℕ)

/-- `job_initialize_id_lists` with its return value. -/
def jobInitializeIdLists (job : Job) : Job × ℤ :=
  match job.jaStructure with
  | none => (job, -1)
  | some l => ({ job with idLists := fun attr =>
      if attr = .jaNHIds then some l else none }, 0)

/-- `job_is_ja_task_defined`. -/
def jobIsJaTaskDefined (job : Job) (id : ℕ) : Bool :=
  rangeListIsIdWithin (job.jaStructure.getD []) id

def inIdList (job : Job) (attr : IdList) (id : ℕ) : Bool :=
  rangeListIsIdWithin ((job.idLists attr).getD []) id

/-- `job_is_enrolled`: the id is in none of the five lists. -/
def jobIsEnrolled (job : Job) (id : ℕ) : Bool :=
  !(inIdList job .jaNHIds id || inIdList job .jaUHIds id || inIdList job .jaOHIds id ||
    inIdList job .jaSHIds id || inIdList job .jaAHIds id)

/-- `job_search_task`. -/
def jobSearchTask (job : Job) (id : ℕ) : Option JaTask :=
  job.jaTasks.find? (fun t => t.taskNumber == id)

/-- `object_delete_range_id`. -/
def objectDeleteRangeId (job : Job) (attr : IdList) (id : ℕ) : Job :=
  { job with
    idLists := Function.update job.idLists attr
      ((rangeListRemoveId (job.idLists attr) id).map rangeListCompress) }

/-- `job_delete_not_enrolled_ja_task`. -/
def jobDeleteNotEnrolledJaTask (job : Job) (id : ℕ) : Job :=
  [IdList.jaNHIds, .jaUHIds, .jaOHIds, .jaSHIds, .jaAHIds].foldl
    (fun job attr => objectDeleteRangeId job attr id) job

/-- The `if_function` array of `job_set_hold_state`. -/
def ifFunction (attr : IdList) : Option (List Range) → ℕ → Option (List Range) :=
  if attr = .jaNHIds then rangeListRemoveId else rangeListInsertIdOpt srt

/-- The `else_function` array of `job_set_hold_state`. -/
def elseFunction (attr : IdList) : Option (List Range) → ℕ → Option (List Range) :=
  if attr = .jaNHIds then rangeListInsertIdOpt srt else rangeListRemoveId

/-- One round of the loop in `job_set_hold_state`. -/
def setHoldList (attr : IdList) (newHoldState id : ℕ) (l : Option (List Range)) :
    Option (List Range) :=
  (if newHoldState &&& attr.mask ≠ 0 then ifFunction srt attr l id
    else elseFunction srt attr l id).map rangeListCompress

/-- The element of an enrolled task after a change of its hold state. -/
def JaTask.setHold (newHoldState : ℕ) (t : JaTask) : JaTask :=
  { t with
    hold := newHoldState
    state := if newHoldState ≠ 0 then t.state ||| jHeld else t.state &&& (uLong32Max ^^^ jHeld) }

/-- Changes the first task with a number. -/
def updateTask (f : JaTask → JaTask) (id : ℕ) : List JaTask → List JaTask
  | [] => []
  | t :: rest => if t.taskNumber = id then f t :: rest else t :: updateTask f id rest

def setHoldAttr (job : Job) (attr : IdList) (newHoldState id : ℕ) : Job :=
  { job with
    idLists := Function.update job.idLists attr
      (setHoldList srt attr newHoldState id (job.idLists attr)) }

/-- `job_set_hold_state`. -/
def jobSetHoldState (job : Job) (id newHoldState : ℕ) : Job :=
  if !jobIsEnrolled job id then
    [IdList.jaNHIds, .jaUHIds, .jaOHIds, .jaSHIds, .jaAHIds].foldl
      (fun job attr => setHoldAttr srt job attr newHoldState id) job
  else { job with jaTasks := updateTask (JaTask.setHold newHoldState) id job.jaTasks }

/-- `job_get_hold_state`. -/
def jobGetHoldState (job : Job) (id : ℕ) : ℕ :=
  if jobIsEnrolled job id then
    match jobSearchTask job id with
    | some t => t.hold &&& minusHTgtAll
    | none => 0
  else
    [IdList.jaUHIds, .jaOHIds, .jaSHIds, .jaAHIds].foldl
      (fun ret attr => if inIdList job attr id then ret ||| attr.mask else ret) 0

/-- `job_get_ja_task_template_pending` writes into the template. -/
def jobGetJaTaskTemplatePending (job : Job) (id : ℕ) : Job :=
  { job with jaTemplate := { job.jaTemplate with
      state := jQueued ||| jWaiting
      taskNumber := id } }

/-- `job_enroll`. -/
def jobEnroll (job : Job) (id : ℕ) : Job :=
  let job := objectDeleteRangeId job .jaNHIds id
  match jobSearchTask job id with
  | some _ => job
  | none =>
      let job := jobGetJaTaskTemplatePending job id
      { job with jaTasks := job.jaTasks ++ [job.jaTemplate] }

/-- `job_get_not_enrolled_ja_tasks`. -/
def jobGetNotEnrolledJaTasks (job : Job) : Option ℕ := do
  let uo ← rangeListCalculateUnionSet srt fuel (job.idLists .jaUHIds) (job.idLists .jaOHIds)
  let uos ← rangeListCalculateUnionSet srt fuel uo (job.idLists .jaSHIds)
  let uosa ← rangeListCalculateUnionSet srt fuel uos (job.idLists .jaAHIds)
  return wadd (rangeListGetNumberOfIds ((job.idLists .jaNHIds).getD []))
    (rangeListGetNumberOfIds (uosa.getD []))

/-- `job_get_enrolled_ja_tasks`. -/
def jobGetEnrolledJaTasks (job : Job) : ℕ := job.jaTasks.length

/-- `job_get_ja_tasks`. -/
def jobGetJaTasks (job : Job) : Option ℕ :=
  (jobGetNotEnrolledJaTasks srt fuel job).map (fun n => wadd n (jobGetEnrolledJaTasks job))

/-- The calls that change the task lists of a job. -/
inductive JobOp
  | setHoldState (id newHoldState : ℕ)
  | deleteNotEnrolled (id : ℕ)
  | enroll (id : ℕ)
deriving DecidableEq, Repr

namespace JobOp

def id : JobOp → ℕ
  | setHoldState id _ => id
  | deleteNotEnrolled id => id
  | enroll id => id

def apply (job : Job) : JobOp → Job
  | setHoldState id newHoldState => jobSetHoldState srt job id newHoldState
  | deleteNotEnrolled id => jobDeleteNotEnrolledJaTask job id
  | enroll id => jobEnroll job id

/-- A call is about a defined task, and only tasks without hold are enrolled. -/
def Admissible (job : Job) (op : JobOp) : Prop :=
  jobIsJaTaskDefined job op.id = true ∧
    ∀ id, op = enroll id → ∀ attr, attr ≠ .jaNHIds → inIdList job attr id = false

def Step (job : Job) (op : JobOp) (job' : Job) : Prop :=
  op.Admissible job ∧ job' = op.apply srt job

end JobOp

end GridEngine
