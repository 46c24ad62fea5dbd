import GridEngine.ResourceDebit

/-!
# What a granted task uses

Debiting posts the usage of a granted queue to the accounts. The usage of the other sign is the
negative one, so that releasing the granted queue takes back what it was debited.
-/

namespace GridEngine
open Ledger

variable (cluster : ClusterConfig) (job : DebitedJob)

/-- The balances of all usage lists. -/
def UsageTable.balance (table : UsageTable) : Account → String → ℚ × ℚ :=
  balances Counters.amount table

section Usage

/-- What a number of slots takes of a consumable: usage, and usage by jobs that do not request the
exclusive consumable. -/
def contribution (name : String) (centry : Centry) (debitSlots : ℤ) : ℚ × ℚ :=
  let dval := (jobGetContribution cluster job name centry).getD 0
  if dval ≠ 0 then (debitSlots * dval, 0)
  else if centry.relop = .excl then (0, debitSlots)
  else 0

/-- What a granted queue takes of the consumable with a name. -/
def consumableUsage (slots : ℤ) (isMasterTask : Bool) (name : String) : ℚ × ℚ :=
  match centryListLocate cluster name with
  | none => 0
  | some centry =>
      match debitSlots centry.consumable slots isMasterTask with
      | none => 0
      | some debitSlots => contribution cluster job name centry debitSlots

/-- The configured consumables up to the first one that is not in the complex. -/
def knownConsumables (configList : List ConfiguredValue) : List String :=
  (configList.map ConfiguredValue.name).takeWhile fun name =>
    (centryListLocate cluster name).isSome

/-- What a granted queue takes of the consumables of a host or a queue instance. -/
def containerUsage (slots : ℤ) (isMasterTask : Bool) (configList : List ConfiguredValue) :
    String → ℚ × ℚ :=
  ((knownConsumables cluster configList).map fun name =>
    Pi.single name (consumableUsage cluster job slots isMasterTask name)).sum

def hostUsage (hostname : String) (slots : ℤ) (isMasterTask : Bool) : Account → String → ℚ × ℚ :=
  match hostListLocate cluster hostname with
  | none => 0
  | some host => Pi.single (.host host.name)
      (containerUsage cluster job slots isMasterTask host.consumableConfigList)

def queueUsage (a : Account) (queue : QueueInstance) (slots : ℤ) (isMasterTask : Bool) :
    Account → String → ℚ × ℚ :=
  Pi.single a (containerUsage cluster job slots isMasterTask queue.consumableConfigList)

/-- What a granted queue takes of the limits of the rule that counts for it. -/
def quotaUsage (grantedPe : Option String) (granted : Granted) (slots : ℤ) (isMasterTask : Bool)
    (rqs : ResourceQuotaSet) : Account → String → ℚ × ℚ :=
  match rqsDebitedRule cluster job grantedPe granted rqs with
  | none => 0
  | some (i, rule, rueName) => (rule.limit.map fun centryName =>
      Pi.single (.limit rqs.name i centryName)
        (Pi.single rueName (consumableUsage cluster job slots isMasterTask centryName))).sum

/-- What a granted queue takes of the queue of an advance reservation. -/
def reservedUsage (ar : Option AdvanceReservation) (qname : String) (slots : ℤ)
    (isMasterTask : Bool) : Account → String → ℚ × ℚ :=
  match reservedQueue ar qname with
  | none => 0
  | some (a, queue) => queueUsage cluster job a queue slots isMasterTask

/-- What a granted queue takes: at the global host, the host and the queue instance, and of the
resource quotas or the advance reservation. -/
def grantedUsage (grantedPe : Option String) (granted : Granted) (slots : ℤ) (masterTask : Bool) :
    Account → String → ℚ × ℚ :=
  let ar := cluster.arList.find? fun ar => ar.id = job.ar
  match cqueueListLocateQinstance cluster granted.qname with
  | none => 0
  | some queue =>
      if job.ar ≠ 0 ∧ ar = none then 0
      else
        hostUsage cluster job "global" slots masterTask +
        hostUsage cluster job queue.qhostname.name slots masterTask +
        queueUsage cluster job (.qinstance queue.fullName) queue slots masterTask +
        if job.ar = 0 then
          (cluster.rqsList.map fun rqs =>
            quotaUsage cluster job grantedPe granted slots masterTask rqs).sum
        else
          reservedUsage cluster job ar granted.qname slots masterTask

/-- What the granted queues of a task take. The first one is the master task. -/
def gdilUsage (grantedPe : Option String) : Bool → List Granted → Account → String → ℚ × ℚ
  | _, [] => 0
  | masterTask, ep :: gdil =>
      grantedUsage cluster job grantedPe ep ep.slots masterTask + gdilUsage grantedPe false gdil

end Usage

section Postings
variable {cluster job} {slots : ℤ} {isMasterTask : Bool}

theorem amount_debitContribution {name key : String} {centry : Centry} {debitSlots : ℤ}
    {usage : UsageList} (hkey : key ∈ usage.list.map Counter.name) :
    (debitContribution cluster job name centry debitSlots key usage).amount =
      usage.amount + Pi.single key (contribution cluster job name centry debitSlots) := by
  simp only [debitContribution, contribution]
  split
  · exact Counters.amount_add hkey _
  · split
    · exact Counters.amount_add hkey _
    · rw [Pi.single_zero, add_zero]

theorem posts_debitContribution (name key : String) (centry : Centry) (debitSlots : ℤ) :
    Posts Counters.amount (fun usage : UsageList =>
        debitContribution cluster job name centry debitSlots key (usage.ensure key))
      (Pi.single key (contribution cluster job name centry debitSlots)) := by
  intro usage
  rw [amount_debitContribution Counters.mem_ensure, Counters.posts_ensure key usage, add_zero]

theorem posts_rcDebitConsumable (configList : List ConfiguredValue) :
    Posts Counters.amount (rcDebitConsumable cluster (some job) slots isMasterTask configList)
      (containerUsage cluster job slots isMasterTask configList) := by
  induction configList with
  | nil => exact posts_id
  | cons crConfig configList ih =>
      intro usage
      cases hname : centryListLocate cluster crConfig.name with
      | none =>
          simp only [rcDebitConsumable, containerUsage, knownConsumables, hname, List.map_cons,
            List.takeWhile_cons, Option.isSome_none, Bool.false_eq_true, if_false, List.map_nil,
            List.sum_nil, add_zero]
      | some dcep =>
          have husage : containerUsage cluster job slots isMasterTask (crConfig :: configList) =
              Pi.single crConfig.name
                (consumableUsage cluster job slots isMasterTask crConfig.name) +
              containerUsage cluster job slots isMasterTask configList := by
            simp only [containerUsage, knownConsumables, hname, List.map_cons,
              List.takeWhile_cons, Option.isSome_some, if_true, List.sum_cons]
          simp only [rcDebitConsumable, hname]
          rw [ih, husage, ← add_assoc]
          congr 1
          cases hslots : debitSlots dcep.consumable slots isMasterTask with
          | none => simp only [consumableUsage, hname, hslots, Pi.single_zero, add_zero]
          | some n =>
              simp only [consumableUsage, hname, hslots]
              exact posts_debitContribution _ _ _ _ usage

theorem posts_rcDebitConsumable_none (configList : List ConfiguredValue) :
    Posts Counters.amount (rcDebitConsumable cluster none slots isMasterTask configList) 0 := by
  induction configList with
  | nil => exact posts_id
  | cons crConfig configList ih =>
      intro usage
      simp only [rcDebitConsumable]
      cases centryListLocate cluster crConfig.name with
      | none => exact (add_zero _).symm
      | some dcep =>
          rw [ih]
          cases debitSlots dcep.consumable slots isMasterTask with
          | none => rfl
          | some n => rw [Counters.posts_ensure crConfig.name usage, add_zero]

theorem posts_debitLimit (centryName rueName : String) :
    Posts Counters.amount (debitLimit cluster job slots isMasterTask centryName rueName)
      (Pi.single rueName (consumableUsage cluster job slots isMasterTask centryName)) := by
  intro usage
  simp only [debitLimit, consumableUsage]
  cases centryListLocate cluster centryName with
  | none => rw [Pi.single_zero, add_zero]
  | some rawCentry =>
      dsimp only
      cases debitSlots rawCentry.consumable slots isMasterTask with
      | none => rw [Pi.single_zero, add_zero]
      | some n =>
          exact ((posts_debitContribution centryName rueName rawCentry n).comp
            (Counters.posts_dropZero rueName) usage).trans (by rw [add_zero])

theorem posts_debitHostConsumable (hostname : String) :
    Posts UsageTable.balance (debitHostConsumable cluster job hostname slots isMasterTask)
      (hostUsage cluster job hostname slots isMasterTask) := by
  intro table
  simp only [debitHostConsumable, hostUsage]
  cases hostListLocate cluster hostname with
  | none => exact (add_zero _).symm
  | some host => exact (posts_rcDebitConsumable _).update _ table

theorem posts_qinstanceDebitConsumable (a : Account) (queue : QueueInstance) :
    Posts UsageTable.balance (qinstanceDebitConsumable cluster job a queue slots isMasterTask)
      (queueUsage cluster job a queue slots isMasterTask) :=
  (posts_rcDebitConsumable _).update a

theorem posts_rqsDebitConsumable (grantedPe : Option String) (granted : Granted)
    (rqs : ResourceQuotaSet) :
    Posts UsageTable.balance (rqsDebitConsumable cluster job grantedPe granted slots isMasterTask rqs)
      (quotaUsage cluster job grantedPe granted slots isMasterTask rqs) := by
  intro table
  simp only [rqsDebitConsumable, quotaUsage]
  cases rqsDebitedRule cluster job grantedPe granted rqs with
  | none => exact (add_zero _).symm
  | some found =>
      obtain ⟨i, rule, rueName⟩ := found
      exact Posts.foldl rule.limit (fun centryName _ =>
        (posts_debitLimit centryName rueName).update (Account.limit rqs.name i centryName)) table

theorem posts_hostsAndQueue (queue : QueueInstance) :
    Posts UsageTable.balance
      (fun table => qinstanceDebitConsumable cluster job (.qinstance queue.fullName) queue slots
        isMasterTask (debitHostConsumable cluster job queue.qhostname.name slots isMasterTask
          (debitHostConsumable cluster job "global" slots isMasterTask table)))
      (hostUsage cluster job "global" slots isMasterTask +
        hostUsage cluster job queue.qhostname.name slots isMasterTask +
        queueUsage cluster job (.qinstance queue.fullName) queue slots isMasterTask) :=
  ((posts_debitHostConsumable "global").comp
    (posts_debitHostConsumable queue.qhostname.name)).comp
      (posts_qinstanceDebitConsumable (.qinstance queue.fullName) queue)

theorem posts_debitGranted (grantedPe : Option String) (granted : Granted) :
    Posts UsageTable.balance (debitGranted cluster job grantedPe granted slots isMasterTask)
      (grantedUsage cluster job grantedPe granted slots isMasterTask) := by
  intro table
  simp only [debitGranted, grantedUsage]
  cases cqueueListLocateQinstance cluster granted.qname with
  | none => exact (add_zero _).symm
  | some queue =>
      dsimp only
      split
      · exact (add_zero _).symm
      · split
        · exact (posts_hostsAndQueue queue).comp (Posts.foldl cluster.rqsList fun rqs _ =>
            posts_rqsDebitConsumable grantedPe granted rqs) table
        · rw [reservedUsage]
          cases reservedQueue (cluster.arList.find? fun ar => ar.id = job.ar) granted.qname with
          | none => exact (posts_hostsAndQueue queue).comp posts_id table
          | some found =>
              exact (posts_hostsAndQueue queue).comp
                (posts_qinstanceDebitConsumable found.1 found.2) table

end Postings

section Signs
variable {cluster job}

theorem contribution_neg (name : String) (centry : Centry) (n : ℤ) :
    contribution cluster job name centry (-n) = -contribution cluster job name centry n := by
  simp only [contribution]
  split
  · simp
  · split <;> simp

theorem debitSlots_neg (consumable : Consumable) (slots : ℤ) (isMasterTask : Bool) :
    debitSlots consumable (-slots) isMasterTask =
      (debitSlots consumable slots isMasterTask).map (- ·) := by
  cases consumable with
  | no => rfl
  | yes => rfl
  | job =>
      cases isMasterTask with
      | false => rfl
      | true =>
          simp only [debitSlots, if_true, Option.map_some, Option.some.injEq]
          split_ifs <;> omega

theorem consumableUsage_neg (slots : ℤ) (isMasterTask : Bool) (name : String) :
    consumableUsage cluster job (-slots) isMasterTask name =
      -consumableUsage cluster job slots isMasterTask name := by
  simp only [consumableUsage, debitSlots_neg]
  cases centryListLocate cluster name with
  | none => exact neg_zero.symm
  | some centry =>
      dsimp only
      cases debitSlots centry.consumable slots isMasterTask with
      | none => exact neg_zero.symm
      | some n => exact contribution_neg name centry n

theorem containerUsage_neg (slots : ℤ) (isMasterTask : Bool) (configList : List ConfiguredValue) :
    containerUsage cluster job (-slots) isMasterTask configList =
      -containerUsage cluster job slots isMasterTask configList := by
  simp only [containerUsage, consumableUsage_neg, Pi.single_neg, sum_map_neg]

theorem hostUsage_neg (hostname : String) (slots : ℤ) (isMasterTask : Bool) :
    hostUsage cluster job hostname (-slots) isMasterTask =
      -hostUsage cluster job hostname slots isMasterTask := by
  simp only [hostUsage, containerUsage_neg, Pi.single_neg]
  cases hostListLocate cluster hostname with
  | none => exact neg_zero.symm
  | some host => rfl

theorem queueUsage_neg (a : Account) (queue : QueueInstance) (slots : ℤ) (isMasterTask : Bool) :
    queueUsage cluster job a queue (-slots) isMasterTask =
      -queueUsage cluster job a queue slots isMasterTask := by
  simp only [queueUsage, containerUsage_neg, Pi.single_neg]

theorem quotaUsage_neg (grantedPe : Option String) (granted : Granted) (slots : ℤ)
    (isMasterTask : Bool) (rqs : ResourceQuotaSet) :
    quotaUsage cluster job grantedPe granted (-slots) isMasterTask rqs =
      -quotaUsage cluster job grantedPe granted slots isMasterTask rqs := by
  simp only [quotaUsage, consumableUsage_neg, Pi.single_neg, sum_map_neg]
  cases rqsDebitedRule cluster job grantedPe granted rqs with
  | none => exact neg_zero.symm
  | some found => rfl

theorem reservedUsage_neg (ar : Option AdvanceReservation) (qname : String) (slots : ℤ)
    (isMasterTask : Bool) :
    reservedUsage cluster job ar qname (-slots) isMasterTask =
      -reservedUsage cluster job ar qname slots isMasterTask := by
  simp only [reservedUsage, queueUsage_neg]
  cases reservedQueue ar qname with
  | none => exact neg_zero.symm
  | some found => rfl

theorem grantedUsage_neg (grantedPe : Option String) (granted : Granted) (slots : ℤ)
    (masterTask : Bool) :
    grantedUsage cluster job grantedPe granted (-slots) masterTask =
      -grantedUsage cluster job grantedPe granted slots masterTask := by
  simp only [grantedUsage, hostUsage_neg, queueUsage_neg, quotaUsage_neg,
    reservedUsage_neg, sum_map_neg]
  cases cqueueListLocateQinstance cluster granted.qname with
  | none => exact neg_zero.symm
  | some queue =>
      dsimp only
      split
      · exact neg_zero.symm
      · split
        · simp only [neg_add]
        · simp only [neg_add]

end Signs

section Loops
variable {cluster job}

theorem posts_debitGdil (grantedPe : Option String) (masterTask : Bool) (gdil : List Granted) :
    Posts UsageTable.balance
      (debitGdil cluster job grantedPe (fun ep => ep.slots) masterTask gdil)
      (gdilUsage cluster job grantedPe masterTask gdil) := by
  induction gdil generalizing masterTask with
  | nil => exact posts_id
  | cons ep gdil ih => exact (posts_debitGranted grantedPe ep).comp (ih false)

theorem posts_undebitGdil (grantedPe : Option String) (masterTask : Bool) (gdil : List Granted) :
    Posts UsageTable.balance
      (debitGdil cluster job grantedPe (fun ep => -ep.slots) masterTask gdil)
      (-gdilUsage cluster job grantedPe masterTask gdil) := by
  induction gdil generalizing masterTask with
  | nil =>
      intro table
      exact (congrArg (table.balance + ·) neg_zero).symm ▸ (add_zero _).symm
  | cons ep gdil ih =>
      rw [gdilUsage, neg_add, ← grantedUsage_neg]
      exact (posts_debitGranted grantedPe ep).comp (ih false)

end Loops

end GridEngine
