import Mathlib.Data.BitVec
import GridEngine.ResourceRebuild

/-!
# Queuewise suspend on subordinate

A queue instance suspends its subordinates when its used slots reach their threshold. A counter in
each queue instance says how many queue instances suspend it. It is changed when jobs start and
end, and when the list of subordinates changes.
-/

namespace GridEngine

/-- An `SO_Type` element. -/
structure Subordinate where
  name : String
  threshold : ℕ
  slotsSum : ℕ
  seqNo : ℕ
  action : ℕ
deriving DecidableEq, Repr

/-- `QU_subordinate_list`. Its elements are all queuewise or all slotwise. -/
structure SubordinateList where
  list : List Subordinate
  uniform : ∀ a ∈ list, ∀ b ∈ list, a.slotsSum = 0 → b.slotsSum = 0
deriving DecidableEq

/-- The attributes of a queue instance that suspending on subordinate reads. -/
structure QueueSlots where
  jobSlots : ℕ
  slotsReserved : ℕ
  slotsUsed : ℕ
  subordinateList : SubordinateList
  manualSuspended : Bool
  calSuspended : Bool
deriving DecidableEq

/-- `QU_suspended_on_subordinate` and the state bit. -/
structure SosCounter where
  suspendedOnSubordinate : BitVec 32
  suspOnSub : Bool
deriving DecidableEq

/-- The queue instances by their full names, and the granted queues of the running tasks. -/
structure SosState (cluster : ClusterConfig) where
  queues : String → QueueSlots
  counters : String → SosCounter
  running : List (GrantedList cluster)

variable (cluster : ClusterConfig)

section Thresholds

/-- `tst_sos`: a threshold of zero stands for a full queue. -/
def tstSos (used total : ℕ) (so : Subordinate) : Bool :=
  if so.threshold = 0 then total ≤ used else so.threshold ≤ used

/-- What `so_list_add` does with an element that exists. -/
def Subordinate.replace (elem so : Subordinate) : Subordinate where
  name := elem.name
  threshold :=
    if so.threshold ≠ 0 ∧ so.threshold < elem.threshold then so.threshold else elem.threshold
  slotsSum := if so.slotsSum ≠ 0 ∧ so.slotsSum < elem.slotsSum then so.slotsSum else elem.slotsSum
  seqNo := if so.seqNo ≠ 0 ∧ elem.seqNo < so.seqNo then so.seqNo else elem.seqNo
  action := if so.action ≠ elem.action then so.action else elem.action

/-- `so_list_add`. -/
def soListAdd : List Subordinate → Subordinate → List Subordinate
  | [], so => [so]
  | elem :: l, so =>
      if elem.name = so.name then elem.replace so :: l else elem :: soListAdd l so

/-- The queue instance of a cluster queue at a host: `cqueue_list_locate` and
`cqueue_locate_qinstance`. -/
def cqueueLocateQinstance (cqueueName hostname : String) : Option QueueInstance :=
  match cluster.cqueueList.find? fun cqueue => cqueue.name = cqueueName with
  | some cqueue =>
      cqueue.qinstances.find? fun qi =>
        sgeHostcmp cluster.toRqsContext qi.qhostname.name hostname
  | none => none

/-- `so_list_resolve` without the name of a cluster queue. -/
def soListResolve (soList : List Subordinate) (hostname : String) : List Subordinate :=
  soList.foldl (fun resolved so =>
    match cqueueLocateQinstance cluster so.name hostname with
    | some qinstance => soListAdd resolved { so with name := qinstance.fullName }
    | none => resolved) []

/-- `get_slotwise_sos_threshold`. -/
def getSlotwiseSosThreshold (q : QueueSlots) : ℕ :=
  (q.subordinateList.list.head?.map Subordinate.slotsSum).getD 0

end Thresholds

section Suspending

/-- `qinstance_x_on_subordinate`, with its return value. `delivered` says whether `sge_signal_queue`
succeeds. -/
def qinstanceXOnSubordinate (q : QueueSlots) (delivered suspend : Bool) (c : SosCounter) :
    SosCounter × Bool :=
  let sosCounter := if suspend then c.suspendedOnSubordinate + 1 else c.suspendedOnSubordinate - 1
  let sendQinstanceSignal := !(q.manualSuspended || q.calSuspended)
  let doAction : Bool := if suspend then sosCounter = 1 else sosCounter = 0
  if doAction then
    (⟨sosCounter, suspend⟩, if sendQinstanceSignal then delivered else true)
  else (⟨sosCounter, c.suspOnSub⟩, true)

/-- Suspends or unsuspends the queue instance with a name, when it exists. -/
def xOnSubordinate (queues : String → QueueSlots) (delivered : String → Bool) (suspend : Bool)
    (soQueueName : String) (counters : String → SosCounter) : (String → SosCounter) × Bool :=
  match cqueueListLocateQinstance cluster soQueueName with
  | none => (counters, true)
  | some soQueue =>
      let result := qinstanceXOnSubordinate (queues soQueue.fullName) (delivered soQueue.fullName)
        suspend (counters soQueue.fullName)
      (Function.update counters soQueue.fullName result.1, result.2)

/-- The queuewise part of a round of `cqueue_list_x_on_subordinate_gdil`. -/
def xOnSubordinateGdi (queues : String → QueueSlots) (delivered : String → Bool) (suspend : Bool)
    (counters : String → SosCounter) (gdi : Granted) : String → SosCounter :=
  match cqueueListLocateQinstance cluster gdi.qname with
  | none => counters
  | some qinstance =>
      let q := queues qinstance.fullName
      if q.subordinateList.list.any fun so => so.slotsSum = 0 then
        (soListResolve cluster q.subordinateList.list gdi.qhostname.name).foldl (fun counters so =>
          if gdi.qname = so.name then counters
          else if !tstSos (q.slotsUsed - gdi.slots) q.jobSlots so &&
              tstSos q.slotsUsed q.jobSlots so then
            (xOnSubordinate cluster queues delivered suspend so.name counters).1
          else counters) counters
      else counters

/-- `cqueue_list_x_on_subordinate_gdil`. -/
def cqueueListXOnSubordinateGdil (queues : String → QueueSlots) (delivered : String → Bool)
    (suspend : Bool) (gdil : List Granted) (counters : String → SosCounter) :
    String → SosCounter :=
  gdil.foldl (xOnSubordinateGdi cluster queues delivered suspend) counters

/-- `cqueue_list_x_on_subordinate_so`, which ends when a signal is not delivered. -/
def cqueueListXOnSubordinateSo (queues : String → QueueSlots) (delivered : String → Bool)
    (suspend : Bool) : List Subordinate → (String → SosCounter) → String → SosCounter
  | [], counters => counters
  | so :: resolved, counters =>
      let result := xOnSubordinate cluster queues delivered suspend so.name counters
      if result.2 then cqueueListXOnSubordinateSo queues delivered suspend resolved result.1
      else result.1

/-- `qinstance_find_suspended_subordinates`. -/
def qinstanceFindSuspendedSubordinates (qinstance : QueueInstance) (q : QueueSlots) :
    List Subordinate :=
  if getSlotwiseSosThreshold q = 0 then
    (soListResolve cluster q.subordinateList.list qinstance.qhostname.name).filter fun so =>
      tstSos q.slotsUsed q.jobSlots so
  else []

/-- `lDiffListStr` with `SO_name`: removes the names that both lists have. -/
def lDiffListStr : List Subordinate → List Subordinate → List Subordinate × List Subordinate
  | [], l2 => ([], l2)
  | ep :: l1, l2 =>
      if l2.any fun so => so.name = ep.name then
        lDiffListStr l1 (l2.eraseP fun so => so.name = ep.name)
      else
        let result := lDiffListStr l1 l2
        (ep :: result.1, result.2)

/-- The queue instance with another list of subordinates. -/
def QueueSlots.withSubordinates (q : QueueSlots) (newValue : SubordinateList) : QueueSlots :=
  { q with
    subordinateList := newValue }

/-- The subordinates that become suspended, and those that become unsuspended, when the list of
subordinates changes. -/
def subordinateChanges (qinstance : QueueInstance) (q : QueueSlots) (newValue : SubordinateList) :
    List Subordinate × List Subordinate :=
  lDiffListStr (qinstanceFindSuspendedSubordinates cluster qinstance (q.withSubordinates newValue))
    (qinstanceFindSuspendedSubordinates cluster qinstance q)

end Suspending

section Events

inductive SosEvent (cluster : ClusterConfig)
  /-- A job starts. -/
  | start (gdil : GrantedList cluster) (delivered : String → Bool)
  /-- The running job at a place ends. -/
  | finish (i : ℕ) (delivered : String → Bool)
  /-- `qinstance_modify_attribute` with `CQ_job_slots`. -/
  | jobSlots (qinstance : QueueInstance) (newValue : ℕ)
  /-- `qinstance_modify_attribute` with `CQ_subordinate_list`. -/
  | subordinateList (qinstance : QueueInstance) (newValue : SubordinateList)
      (delivered : String → Bool)
  /-- A queue instance is suspended or unsuspended by a manager or its calendar. -/
  | suspendStates (qinstance : QueueInstance) (manualSuspended calSuspended : Bool)

variable {cluster}

/-- The slots that a job has in a queue instance. -/
def grantedSlots (gdil : List Granted) (name : String) : ℕ :=
  ((gdil.filter fun ep => ep.qname = name).map Granted.slots).sum

/-- Debiting the slots of the granted queues. -/
def debitSlotsUsed (gdil : List Granted) (queues : String → QueueSlots) : String → QueueSlots :=
  fun name =>
    { queues name with
      slotsUsed := (queues name).slotsUsed + grantedSlots gdil name }

/-- Undebiting the slots of the granted queues. -/
def undebitSlotsUsed (gdil : List Granted) (queues : String → QueueSlots) : String → QueueSlots :=
  fun name =>
    { queues name with
      slotsUsed := (queues name).slotsUsed - grantedSlots gdil name }

/-- A job was started: it is debited, and then the subordinates are suspended. -/
def SosState.start (gdil : GrantedList cluster) (delivered : String → Bool)
    (s : SosState cluster) : SosState cluster :=
  let queues := debitSlotsUsed gdil.list s.queues
  { queues
    counters := cqueueListXOnSubordinateGdil cluster queues delivered true gdil.list s.counters
    running := s.running ++ [gdil] }

/-- A job releases its resources: the subordinates are unsuspended, and then it is undebited. -/
def SosState.finish (i : ℕ) (gdil : GrantedList cluster) (delivered : String → Bool)
    (s : SosState cluster) : SosState cluster where
  queues := undebitSlotsUsed gdil.list s.queues
  counters := cqueueListXOnSubordinateGdil cluster s.queues delivered false gdil.list s.counters
  running := s.running.eraseIdx i

/-- `CQ_job_slots` in `qinstance_modify_attribute`. -/
def SosState.modifyJobSlots (qinstance : QueueInstance) (newValue : ℕ) (s : SosState cluster) :
    SosState cluster :=
  let q := s.queues qinstance.fullName
  if newValue < q.slotsReserved then s
  else
    { s with
      queues := Function.update s.queues qinstance.fullName
        { q with
          jobSlots := newValue } }

/-- `CQ_subordinate_list` in `qinstance_modify_attribute`, for a list that makes no loop in the
slotwise tree. -/
def SosState.modifySubordinateList (qinstance : QueueInstance) (newValue : SubordinateList)
    (delivered : String → Bool) (s : SosState cluster) : SosState cluster :=
  let q := s.queues qinstance.fullName
  if q.subordinateList = newValue then s
  else
    let queues := Function.update s.queues qinstance.fullName (q.withSubordinates newValue)
    let (suspendedSo, unsuspendedSo) := subordinateChanges cluster qinstance q newValue
    let counters := cqueueListXOnSubordinateSo cluster queues delivered false unsuspendedSo s.counters
    { s with
      queues
      counters := cqueueListXOnSubordinateSo cluster queues delivered true suspendedSo counters }

def SosState.modifySuspendStates (qinstance : QueueInstance) (manualSuspended calSuspended : Bool)
    (s : SosState cluster) : SosState cluster :=
  { s with
    queues := Function.update s.queues qinstance.fullName
      { s.queues qinstance.fullName with
        manualSuspended
        calSuspended } }

variable (cluster) in
/-- The queue instances of all cluster queues. -/
def qinstances : List QueueInstance := cluster.cqueueList.flatMap ClusterQueue.qinstances

/-- No element names the cluster queue itself, as `cqueue_verify_subordinate_list` makes sure. -/
def NotItself (qinstance : QueueInstance) (soList : SubordinateList) : Prop :=
  ∀ so ∈ soList.list, so.name ≠ (cqueueNameSplit qinstance.fullName).1

inductive SosStep : SosState cluster → SosEvent cluster → SosState cluster → Prop
  | start {s} (gdil delivered) : SosStep s (.start gdil delivered) (s.start gdil delivered)
  | finish {s i gdil} (delivered) : s.running[i]? = some gdil →
      SosStep s (.finish i delivered) (s.finish i gdil delivered)
  | jobSlots {s qinstance} (newValue) : qinstance ∈ qinstances cluster →
      SosStep s (.jobSlots qinstance newValue) (s.modifyJobSlots qinstance newValue)
  | subordinateList {s qinstance newValue} (delivered) : qinstance ∈ qinstances cluster →
      NotItself qinstance newValue →
      SosStep s (.subordinateList qinstance newValue delivered)
        (s.modifySubordinateList qinstance newValue delivered)
  | suspendStates {s qinstance} (manualSuspended calSuspended) :
      qinstance ∈ qinstances cluster →
      SosStep s (.suspendStates qinstance manualSuspended calSuspended)
        (s.modifySuspendStates qinstance manualSuspended calSuspended)

end Events

end GridEngine
