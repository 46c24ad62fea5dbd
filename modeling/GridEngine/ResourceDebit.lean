import Mathlib.Algebra.Ring.Rat
import GridEngine.Ledger
import GridEngine.RqsFilters

/-!
# Debiting consumable resources

What a task uses is debited at the global host, at its hosts and queue instances, and at the first
matching rule of each resource quota set. The objects are known by their primary keys, and their
usage lists are kept in one table. All amounts are exact.
-/

namespace GridEngine
open Ledger

inductive Consumable
  | no
  | yes
  | job
deriving DecidableEq, Repr

inductive RelOp
  | eq
  | ge
  | gt
  | lt
  | le
  | ne
  | excl
deriving DecidableEq, Repr

/-- The values of `CE_valtype`. -/
inductive ValueType
  | int | str | tim | mem | boo | cstr | host | double | restr | unknown
deriving DecidableEq

/-- A `CE_Type` element of the complex. -/
structure Centry where
  name : String
  shortcut : String
  consumable : Consumable
  relop : RelOp
  default : Option String
deriving DecidableEq, Repr

/-- A `CE_Type` element of a list of configured values. -/
structure ConfiguredValue where
  name : String
  doubleval : ℚ
  stringval : String
deriving DecidableEq

/-- A `CE_Type` element of a resource request. -/
structure ResourceRequest where
  name : String
  stringval : Option String
deriving DecidableEq, Repr

/-- The attributes of a job that debiting reads. -/
structure DebitedJob where
  owner : String
  group : Option String
  project : Option String
  ar : ℕ
  hardResourceList : List ResourceRequest
  softResourceList : List ResourceRequest
deriving DecidableEq, Repr

/-- A `JG_Type` element. -/
structure Granted where
  qname : String
  qhostname : HostName
  slots : ℕ
deriving DecidableEq

structure ExecHost where
  name : String
  consumableConfigList : List ConfiguredValue
deriving DecidableEq

/-- A `QU_Type` element. `qinstance_create` configures the slots. -/
structure QueueInstance where
  qhostname : HostName
  fullName : String
  jobSlots : ℕ
  consumableConfigList : List ConfiguredValue
  slotsConfigured : "slots" ∈ consumableConfigList.map ConfiguredValue.name
deriving DecidableEq

structure ClusterQueue where
  name : String
  qinstances : List QueueInstance
  plain : '@' ∉ name.toList
  fullNames : ∀ queue ∈ qinstances, queue.fullName = name ++ "@" ++ queue.qhostname.name
deriving DecidableEq

structure AdvanceReservation where
  id : ℕ
  reservedQueues : List QueueInstance
deriving DecidableEq

/-- An `RQR_Type` object with the names of its limits. -/
structure LimitRule extends RqsRule where
  limit : List String
deriving DecidableEq, Repr

structure ResourceQuotaSet where
  name : String
  enabled : Bool
  rule : List LimitRule
deriving DecidableEq, Repr

/-- The lists of `RUE_Type` elements: of a host, of a queue instance, of a reserved queue, and of a
limit in a rule of a resource quota set. -/
inductive Account
  | host (name : String)
  | qinstance (fullName : String)
  | reservedQueue (ar : ℕ) (fullName : String)
  | limit (rqs : String) (rule : ℕ) (name : String)
deriving DecidableEq, Repr

/-- `RUE_utilized_now` and `RUE_utilized_now_nonexclusive` of each element. -/
abbrev UsageList := Counters String (ℚ × ℚ)

abbrev UsageTable := Account → UsageList

/-- `sge_hostcmp` for equality. -/
def sgeHostcmp (ctx : RqsContext) (h1 h2 : String) : Bool :=
  (ctx.sgeHostcpy h1).toList.map Char.toLower = (ctx.sgeHostcpy h2).toList.map Char.toLower

/-- The configuration. `parseUlongVal` reads the number in a value string. The names of the cluster
queues and the hosts of a cluster queue are keys, and the queue instances can be counted. -/
structure ClusterConfig extends RqsContext where
  parseUlongVal : Option String → Option ℚ
  centryList : List Centry
  exechostList : List ExecHost
  cqueueList : List ClusterQueue
  arList : List AdvanceReservation
  rqsList : List ResourceQuotaSet
  cqueueNames : (cqueueList.map ClusterQueue.name).Nodup
  qinstanceHosts : ∀ cqueue ∈ cqueueList, cqueue.qinstances.Pairwise fun a b =>
    ¬ sgeHostcmp toRqsContext a.qhostname.name b.qhostname.name
  qinstanceCount : (cqueueList.flatMap ClusterQueue.qinstances).length < 2 ^ 32

variable (cluster : ClusterConfig)

section Lookup

/-- `centry_list_locate`. -/
def centryListLocate (name : String) : Option Centry :=
  (cluster.centryList.find? fun ce => ce.name = name).or
    (cluster.centryList.find? fun ce => ce.shortcut = name)

/-- `host_list_locate`. -/
def hostListLocate (hostname : String) : Option ExecHost :=
  cluster.exechostList.find? fun host => sgeHostcmp cluster.toRqsContext host.name hostname

/-- `cqueue_name_split`: what stands before and after the first `@`. -/
def cqueueNameSplit (name : String) : String × String :=
  let domain := (name.toList.dropWhile (· ≠ '@')).drop 1
  (String.ofList (name.toList.takeWhile (· ≠ '@')),
    if domain = ['@'] then "" else String.ofList domain)

/-- `cqueue_get_name_from_qinstance`. -/
def cqueueGetNameFromQinstance (queueInstance : String) : String :=
  String.ofList (queueInstance.toList.takeWhile (· ≠ '@'))

/-- `cqueue_list_locate_qinstance`. -/
def cqueueListLocateQinstance (fullName : String) : Option QueueInstance :=
  let (cqueueName, hostname) := cqueueNameSplit fullName
  match cluster.cqueueList.find? fun cqueue => cqueue.name = cqueueName with
  | some cqueue => cqueue.qinstances.find? fun qi =>
      sgeHostcmp cluster.toRqsContext qi.qhostname.name hostname
  | none => none

/-- `job_get_request`. -/
def jobGetRequest (job : DebitedJob) (name : String) : Option ResourceRequest :=
  (job.hardResourceList.find? fun ce => ce.name = name).or
    (job.softResourceList.find? fun ce => ce.name = name)

/-- `job_get_contribution`: `none` when the value cannot be parsed. -/
def jobGetContribution (job : DebitedJob) (name : String) (implicitCentry : Centry) : Option ℚ :=
  cluster.parseUlongVal
    (((jobGetRequest job name).bind ResourceRequest.stringval).or implicitCentry.default)

end Lookup

section Debit

/-- The slots that count for a consumable: only the master task is debited for a job consumable,
which is not multiplied with the slots. -/
def debitSlots (consumable : Consumable) (slots : ℤ) (isMasterTask : Bool) : Option ℤ :=
  match consumable with
  | .no => none
  | .yes => some slots
  | .job =>
      if isMasterTask then some (if slots > 0 then 1 else if slots < 0 then -1 else slots)
      else none

/-- Adds what the job takes of a consumable. A job that does not request an exclusive consumable
counts as a non-exclusive user of it. -/
def debitContribution (job : DebitedJob) (name : String) (centry : Centry) (debitSlots : ℤ)
    (key : String) (usage : UsageList) : UsageList :=
  let dval := (jobGetContribution cluster job name centry).getD 0
  if dval ≠ 0 then usage.add key (debitSlots * dval, 0)
  else if centry.relop = .excl then usage.add key (0, debitSlots)
  else usage

/-- The loop of `rc_debit_consumable` without `just_check`. It ends at a value that is not in the
complex. -/
def rcDebitConsumable (job : Option DebitedJob) (slots : ℤ) (isMasterTask : Bool) :
    List ConfiguredValue → UsageList → UsageList
  | [], usage => usage
  | crConfig :: configList, usage =>
      match centryListLocate cluster crConfig.name with
      | none => usage
      | some dcep =>
          rcDebitConsumable job slots isMasterTask configList <|
            match debitSlots dcep.consumable slots isMasterTask with
            | none => usage
            | some debitSlots =>
                let usage := usage.ensure crConfig.name
                match job with
                | none => usage
                | some job =>
                    debitContribution cluster job crConfig.name dcep debitSlots crConfig.name usage

/-- One round of `rqs_debit_rule_usage`. An element without usage does not stay. -/
def debitLimit (job : DebitedJob) (slots : ℤ) (isMasterTask : Bool) (centryName rueName : String)
    (usage : UsageList) : UsageList :=
  match centryListLocate cluster centryName with
  | none => usage
  | some rawCentry =>
      match debitSlots rawCentry.consumable slots isMasterTask with
      | none => usage
      | some debitSlots =>
          (debitContribution cluster job centryName rawCentry debitSlots rueName
            (usage.ensure rueName)).dropZero rueName

/-- Work on one of the usage lists. -/
def UsageTable.modify (table : UsageTable) (a : Account) (f : UsageList → UsageList) : UsageTable :=
  Function.update table a (f (table a))

/-- `debit_host_consumable` at the host with a name. -/
def debitHostConsumable (job : DebitedJob) (hostname : String) (slots : ℤ) (isMasterTask : Bool)
    (table : UsageTable) : UsageTable :=
  match hostListLocate cluster hostname with
  | none => table
  | some host =>
      table.modify (.host host.name)
        (rcDebitConsumable cluster (some job) slots isMasterTask host.consumableConfigList)

/-- `qinstance_debit_consumable` at the list of the queue instance. -/
def qinstanceDebitConsumable (job : DebitedJob) (a : Account) (queue : QueueInstance) (slots : ℤ)
    (isMasterTask : Bool) (table : UsageTable) : UsageTable :=
  table.modify a
    (rcDebitConsumable cluster (some job) slots isMasterTask queue.consumableConfigList)

/-- `rqs_debit_rule_usage`. -/
def rqsDebitRuleUsage (job : DebitedJob) (rqs : String) (i : ℕ) (rule : LimitRule)
    (rueName : String) (slots : ℤ) (isMasterTask : Bool) (table : UsageTable) : UsageTable :=
  rule.limit.foldl (fun table centryName => table.modify (.limit rqs i centryName)
    (debitLimit cluster job slots isMasterTask centryName rueName)) table

/-- What matching a rule reads of the job and its task. -/
def DebitedJob.rqsJob (job : DebitedJob) (grantedPe : Option String) : RqsJob where
  user := job.owner
  group := job.group
  project := job.project
  pe := grantedPe

/-- The rule of a set that counts for a granted queue, with its place and the name of the
counter. -/
def rqsDebitedRule (job : DebitedJob) (grantedPe : Option String) (granted : Granted)
    (rqs : ResourceQuotaSet) : Option (ℕ × LimitRule × String) :=
  if !rqs.enabled then none
  else
    let qname := cqueueGetNameFromQinstance granted.qname
    let rqsJob := job.rqsJob grantedPe
    match rqsGetMatchingRule cluster.toRqsContext rqsJob (rqs.rule.map LimitRule.toRqsRule)
        granted.qhostname qname with
    | none => none
    | some i =>
        (rqs.rule[i]?).map fun rule =>
          (i, rule, rqsGetRueString cluster.toRqsContext rqsJob rule.toRqsRule granted.qhostname qname)

/-- `rqs_debit_consumable`. -/
def rqsDebitConsumable (job : DebitedJob) (grantedPe : Option String) (granted : Granted)
    (slots : ℤ) (isMasterTask : Bool) (rqs : ResourceQuotaSet) (table : UsageTable) : UsageTable :=
  match rqsDebitedRule cluster job grantedPe granted rqs with
  | none => table
  | some (i, rule, rueName) =>
      rqsDebitRuleUsage cluster job rqs.name i rule rueName slots isMasterTask table

/-- The queue of the advance reservation, with its account. -/
def reservedQueue (ar : Option AdvanceReservation) (qname : String) :
    Option (Account × QueueInstance) :=
  ar.bind fun ar => (ar.reservedQueues.find? fun queue => queue.fullName = qname).map fun queue =>
    (.reservedQueue ar.id queue.fullName, queue)

/-- The body of the loops over the granted queues in `sge_commit_job` and
`sge_clear_granted_resources`, which debit with opposite signs. -/
def debitGranted (job : DebitedJob) (grantedPe : Option String) (granted : Granted) (slots : ℤ)
    (masterTask : Bool) (table : UsageTable) : UsageTable :=
  let ar := cluster.arList.find? fun ar => ar.id = job.ar
  match cqueueListLocateQinstance cluster granted.qname with
  | none => table
  | some queue =>
      if job.ar ≠ 0 ∧ ar = none then table
      else
        let table := debitHostConsumable cluster job "global" slots masterTask table
        let table := debitHostConsumable cluster job queue.qhostname.name slots masterTask table
        let table := qinstanceDebitConsumable cluster job (.qinstance queue.fullName) queue slots
          masterTask table
        if job.ar = 0 then
          cluster.rqsList.foldl (fun table rqs =>
            rqsDebitConsumable cluster job grantedPe granted slots masterTask rqs table) table
        else
          match reservedQueue ar granted.qname with
          | none => table
          | some (a, queue) =>
              qinstanceDebitConsumable cluster job a queue slots masterTask table

/-- The loop over the granted queues. The first one is the master task. -/
def debitGdil (job : DebitedJob) (grantedPe : Option String) (tmpSlot : Granted → ℤ) :
    Bool → List Granted → UsageTable → UsageTable
  | _, [], table => table
  | masterTask, ep :: gdil, table =>
      debitGdil job grantedPe tmpSlot false gdil
        (debitGranted cluster job grantedPe ep (tmpSlot ep) masterTask table)

end Debit

end GridEngine
