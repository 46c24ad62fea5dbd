import GridEngine.Machine
import GridEngine.ResourceCharges

/-!
# Resource accounts balance

Tasks start, which debits what they are granted, and release what they were granted. The accounts
are at any time the sum over the tasks that have something granted. The account of a queue
instance is the one that is rebuilt from these tasks.
-/

namespace GridEngine
open Ledger Machine

variable (cluster : ClusterConfig)

section Starting

/-- The granted queues of a task. An order to start a task names every queue instance once.
`sge_follow_order` accepts queue instances that exist only, and enters their hosts. -/
structure GrantedList where
  list : List Granted
  nodup : (list.map Granted.qname).Nodup
  located : ∀ ep ∈ list, ∃ queue, cqueueListLocateQinstance cluster ep.qname = some queue ∧
    queue.fullName = ep.qname ∧ queue.qhostname = ep.qhostname

def GrantedList.empty : GrantedList cluster := ⟨[], List.nodup_nil, by simp⟩

/-- A task that was enrolled, with the attributes of its job. The advance reservation of a job
exists as long as the job. -/
structure DebitedTask where
  job : DebitedJob
  taskNumber : ℕ
  isEnrolled : Bool
  grantedPe : Option String
  gdil : GrantedList cluster
  reservation : job.ar ≠ 0 → ∃ ar ∈ cluster.arList, ar.id = job.ar

/-- The tasks in the order of the job list, and the usage. -/
structure QmasterAccounts where
  jaTasks : List (DebitedTask cluster)
  usage : UsageTable

/-- Before anything is started. -/
def QmasterAccounts.init (jaTasks : List (DebitedTask cluster)) : QmasterAccounts cluster where
  jaTasks := jaTasks.map fun jatep =>
    { jatep with
      grantedPe := none
      gdil := GrantedList.empty cluster }
  usage := fun _ => Counters.empty

variable {cluster}

/-- `sge_commit_job` with `COMMIT_ST_SENT`, for a task with its granted queues. -/
def sgeCommitJobSent (i : ℕ) (jatep : DebitedTask cluster) (s : QmasterAccounts cluster) :
    QmasterAccounts cluster where
  jaTasks := s.jaTasks.set i
    { jatep with
      isEnrolled := true }
  usage := debitGdil cluster jatep.job jatep.grantedPe (fun ep => ep.slots) true jatep.gdil.list
    s.usage

/-- `sge_clear_granted_resources` with `incslots`. -/
def sgeClearGrantedResources (i : ℕ) (jatep : DebitedTask cluster) (s : QmasterAccounts cluster) :
    QmasterAccounts cluster :=
  if !jatep.isEnrolled then s
  else
    { jaTasks := s.jaTasks.set i
        { jatep with
          grantedPe := none
          gdil := GrantedList.empty cluster }
      usage := debitGdil cluster jatep.job jatep.grantedPe (fun ep => -ep.slots) true
        jatep.gdil.list s.usage }

inductive AccountEvent (cluster : ClusterConfig)
  | start (i : ℕ) (jatep : DebitedTask cluster)
  | release (i : ℕ)

/-- Tasks that have nothing granted can be started, with any granted queues. -/
inductive AccountStep : QmasterAccounts cluster → AccountEvent cluster → QmasterAccounts cluster → Prop
  | start {s i t jatep} : s.jaTasks[i]? = some t → t.gdil.list = [] → jatep.job = t.job →
      AccountStep s (.start i jatep) (sgeCommitJobSent i jatep s)
  | release {s i jatep} : s.jaTasks[i]? = some jatep →
      AccountStep s (.release i) (sgeClearGrantedResources i jatep s)

end Starting

section Balance
variable {cluster}

/-- What a task takes of all accounts. -/
def DebitedTask.usage (jatep : DebitedTask cluster) : Account → String → ℚ × ℚ :=
  gdilUsage cluster jatep.job jatep.grantedPe true jatep.gdil.list

/-- The accounts are the sum over the tasks. Only enrolled tasks have something granted. -/
structure Balanced (s : QmasterAccounts cluster) : Prop where
  balance : s.usage.balance = (s.jaTasks.map DebitedTask.usage).sum
  enrolled : ∀ jatep ∈ s.jaTasks, jatep.gdil.list ≠ [] → jatep.isEnrolled

theorem DebitedTask.usage_of_empty {jatep : DebitedTask cluster} (h : jatep.gdil.list = []) :
    jatep.usage = 0 := by
  rw [DebitedTask.usage, h]
  rfl

theorem balance_init (jaTasks : List (DebitedTask cluster)) :
    Balanced (QmasterAccounts.init cluster jaTasks) where
  balance := by
    have hzero : ∀ u ∈ (QmasterAccounts.init cluster jaTasks).jaTasks.map DebitedTask.usage,
        u = 0 := by
      intro u hu
      obtain ⟨jatep, hjatep, rfl⟩ := List.mem_map.mp hu
      obtain ⟨t, -, rfl⟩ := List.mem_map.mp hjatep
      exact DebitedTask.usage_of_empty rfl
    rw [List.sum_eq_zero hzero]
    funext a
    exact Counters.amount_empty
  enrolled := by
    intro jatep hjatep hne
    obtain ⟨t, -, rfl⟩ := List.mem_map.mp hjatep
    exact absurd rfl hne

theorem Balanced.step {s s' : QmasterAccounts cluster} {e : AccountEvent cluster}
    (hs : Balanced s) (h : AccountStep s e s') : Balanced s' := by
  cases h with
  | @start i t jatep ht hempty hjob =>
      constructor
      · calc (sgeCommitJobSent i jatep s).usage.balance
            = s.usage.balance + jatep.usage := posts_debitGdil _ _ _ s.usage
          _ = (s.jaTasks.map DebitedTask.usage).sum + (jatep.usage - t.usage) := by
              rw [hs.balance, DebitedTask.usage_of_empty hempty, sub_zero]
          _ = _ := (sum_map_set ht { jatep with isEnrolled := true } DebitedTask.usage).symm
      · intro t' ht' hne
        rcases List.mem_or_eq_of_mem_set ht' with hmem | rfl
        · exact hs.enrolled t' hmem hne
        · rfl
  | @release i jatep ht =>
      unfold sgeClearGrantedResources
      split
      · exact hs
      · constructor
        · calc _ = s.usage.balance + -jatep.usage := posts_undebitGdil _ _ _ s.usage
            _ = (s.jaTasks.map DebitedTask.usage).sum + (0 - jatep.usage) := by
                rw [hs.balance, zero_sub]
            _ = _ := (sum_map_set ht
                { jatep with
                  grantedPe := none
                  gdil := GrantedList.empty cluster } DebitedTask.usage).symm
        · intro t' ht' hne
          rcases List.mem_or_eq_of_mem_set ht' with hmem | rfl
          · exact hs.enrolled t' hmem hne
          · exact absurd rfl hne

theorem Balanced.run {jaTasks : List (DebitedTask cluster)} {hist : List (AccountEvent cluster)}
    {s : QmasterAccounts cluster} (h : Run AccountStep (QmasterAccounts.init cluster jaTasks) hist s) :
    Balanced s :=
  h.invariant (P := fun _ => Balanced) (balance_init jaTasks) fun _ _ _ _ => Balanced.step

end Balance

section Quotas
variable {cluster}

/-- No resource quota keeps an element without usage. -/
def QuotasTidy (table : UsageTable) : Prop :=
  ∀ rqs i name, (table (.limit rqs i name)).Tidy

variable {job : DebitedJob} {slots : ℤ} {isMasterTask : Bool} {table : UsageTable}

theorem QuotasTidy.modify_limit (h : QuotasTidy table) (rqs : String) (i : ℕ) (name : String)
    {f : UsageList → UsageList} (hf : ∀ usage, Counters.Tidy usage → (f usage).Tidy) :
    QuotasTidy (table.modify (.limit rqs i name) f) := by
  intro rqs' i' name'
  by_cases ha : Account.limit rqs' i' name' = .limit rqs i name
  · rw [ha, UsageTable.modify, Function.update_self]
    exact hf _ (h rqs i name)
  · rw [UsageTable.modify, Function.update_of_ne ha]
    exact h rqs' i' name'

theorem QuotasTidy.modify_other (h : QuotasTidy table) {a : Account}
    (ha : ∀ rqs i name, .limit rqs i name ≠ a) (f : UsageList → UsageList) :
    QuotasTidy (table.modify a f) := by
  intro rqs i name
  rw [UsageTable.modify, Function.update_of_ne (ha rqs i name)]
  exact h rqs i name

theorem tidy_debitContribution {usage : UsageList} {key : String} (h : Counters.TidyExcept key usage)
    (name : String) (centry : Centry) (debitSlots : ℤ) :
    Counters.TidyExcept key (debitContribution cluster job name centry debitSlots key usage) := by
  simp only [debitContribution]
  split
  · exact h.add _
  · split
    · exact h.add _
    · exact h

theorem tidy_debitLimit {usage : UsageList} (h : usage.Tidy) (centryName rueName : String) :
    (debitLimit cluster job slots isMasterTask centryName rueName usage).Tidy := by
  simp only [debitLimit]
  cases centryListLocate cluster centryName with
  | none => exact h
  | some rawCentry =>
      dsimp only
      cases debitSlots rawCentry.consumable slots isMasterTask with
      | none => exact h
      | some n => exact (tidy_debitContribution (h.ensure rueName) centryName rawCentry n).dropZero

theorem QuotasTidy.debitHostConsumable (h : QuotasTidy table) (hostname : String) :
    QuotasTidy (debitHostConsumable cluster job hostname slots isMasterTask table) := by
  simp only [GridEngine.debitHostConsumable]
  cases hostListLocate cluster hostname with
  | none => exact h
  | some host => exact h.modify_other (fun _ _ _ => Account.noConfusion) _

theorem QuotasTidy.foldl {ι : Type*} {op : UsageTable → ι → UsageTable} (l : List ι)
    (hop : ∀ table i, QuotasTidy table → QuotasTidy (op table i)) (h : QuotasTidy table) :
    QuotasTidy (l.foldl op table) := by
  induction l generalizing table with
  | nil => exact h
  | cons i l ih => exact ih (hop table i h)

theorem QuotasTidy.rqsDebitConsumable (h : QuotasTidy table) (grantedPe : Option String)
    (granted : Granted) (rqs : ResourceQuotaSet) :
    QuotasTidy
      (rqsDebitConsumable cluster job grantedPe granted slots isMasterTask rqs table) := by
  simp only [GridEngine.rqsDebitConsumable]
  cases rqsDebitedRule cluster job grantedPe granted rqs with
  | none => exact h
  | some found =>
      exact h.foldl _ fun table centryName htable =>
        htable.modify_limit _ _ _ fun usage husage => tidy_debitLimit husage _ _

theorem QuotasTidy.debitGranted (h : QuotasTidy table) (grantedPe : Option String)
    (granted : Granted) :
    QuotasTidy (debitGranted cluster job grantedPe granted slots isMasterTask table) := by
  simp only [GridEngine.debitGranted]
  cases cqueueListLocateQinstance cluster granted.qname with
  | none => exact h
  | some queue =>
      have hcommon : QuotasTidy (qinstanceDebitConsumable cluster job (.qinstance queue.fullName)
          queue slots isMasterTask (GridEngine.debitHostConsumable cluster job queue.qhostname.name
            slots isMasterTask
            (GridEngine.debitHostConsumable cluster job "global" slots isMasterTask table))) :=
        ((h.debitHostConsumable "global").debitHostConsumable _).modify_other
          (fun _ _ _ => Account.noConfusion) _
      dsimp only
      split
      · exact h
      · split
        · exact hcommon.foldl _ fun table rqs htable =>
            htable.rqsDebitConsumable grantedPe granted rqs
        · cases hreserved : reservedQueue (cluster.arList.find? fun ar => ar.id = job.ar)
            granted.qname with
          | none => exact hcommon
          | some found =>
              have hnot : ∀ rqs i name, .limit rqs i name ≠ found.1 := by
                obtain ⟨ar, -, hfound⟩ := Option.bind_eq_some_iff.mp hreserved
                obtain ⟨reserved, -, rfl⟩ := Option.map_eq_some_iff.mp hfound
                exact fun _ _ _ => Account.noConfusion
              exact hcommon.modify_other hnot _

theorem QuotasTidy.debitGdil (h : QuotasTidy table) (grantedPe : Option String)
    (tmpSlot : Granted → ℤ) (masterTask : Bool) (gdil : List Granted) :
    QuotasTidy (debitGdil cluster job grantedPe tmpSlot masterTask gdil table) := by
  induction gdil generalizing masterTask table with
  | nil => exact h
  | cons ep gdil ih => exact ih (h.debitGranted grantedPe ep) false

theorem QuotasTidy.step {s s' : QmasterAccounts cluster} {e : AccountEvent cluster}
    (hs : QuotasTidy s.usage) (h : AccountStep s e s') : QuotasTidy s'.usage := by
  cases h with
  | start ht hempty hjob => exact hs.debitGdil _ _ _ _
  | @release i jatep ht =>
      unfold sgeClearGrantedResources
      split
      · exact hs
      · exact hs.debitGdil _ _ _ _

theorem QuotasTidy.run {jaTasks : List (DebitedTask cluster)}
    {hist : List (AccountEvent cluster)} {s : QmasterAccounts cluster}
    (h : Run AccountStep (QmasterAccounts.init cluster jaTasks) hist s) : QuotasTidy s.usage :=
  h.invariant (P := fun _ s => QuotasTidy s.usage) (fun _ _ _ _ hc => by cases hc)
    fun _ _ _ _ => QuotasTidy.step

end Quotas

end GridEngine
