import GridEngine.ResourceAccounts

/-!
# Rebuilding the account of a queue instance

`qinstance_reinit_consumable_actual_list` debits the queue instance again for each task that has it
in its list of granted queues. What this gives is the account that was kept while the tasks were
started and released.
-/

namespace GridEngine
open Ledger Machine

section Rebuild

/-- The loop of `lGetSubStr` in `qinstance_set_conf_slots_used`. -/
def confSlotsUsed (jobSlots : ℕ) : List ConfiguredValue → List ConfiguredValue
  | [] => [⟨"slots", jobSlots, toString jobSlots⟩]
  | value :: values =>
      if value.name = "slots" then
        { value with
          doubleval := jobSlots
          stringval := toString jobSlots } :: values
      else value :: confSlotsUsed jobSlots values

theorem confSlotsUsed_names (jobSlots : ℕ) {l : List ConfiguredValue}
    (h : "slots" ∈ l.map ConfiguredValue.name) :
    (confSlotsUsed jobSlots l).map ConfiguredValue.name = l.map ConfiguredValue.name := by
  induction l with
  | nil => cases h
  | cons value values ih =>
      rw [confSlotsUsed]
      split
      · rfl
      · rename_i hname
        rw [List.map_cons, List.map_cons]
        exact congrArg _ (ih ((List.mem_cons.mp h).resolve_left fun e => hname e.symm))

/-- `qinstance_set_conf_slots_used`. -/
def qinstanceSetConfSlotsUsed (queue : QueueInstance) : QueueInstance :=
  { queue with
    consumableConfigList := confSlotsUsed queue.jobSlots queue.consumableConfigList
    slotsConfigured := by
      rw [confSlotsUsed_names _ queue.slotsConfigured]
      exact queue.slotsConfigured }

variable (cluster : ClusterConfig)

/-- One round of the loops over the jobs and their tasks. -/
def rebuildTask (queue : QueueInstance) (usage : UsageList) (jaTask : DebitedTask cluster) :
    UsageList :=
  let gdil := jaTask.gdil.list
  match gdil.find? fun ep => ep.qname = queue.fullName with
  | none => usage
  | some gdilEp =>
      let isMasterTask := gdil.head? = some gdilEp
      let slots : ℤ := gdilEp.slots
      if slots > 0 then
        rcDebitConsumable cluster (some jaTask.job) slots isMasterTask queue.consumableConfigList usage
      else usage

/-- `qinstance_reinit_consumable_actual_list`: the queue instance and its usage. The windows of
advance reservations go to the resource diagrams only. -/
def qinstanceReinitConsumableActualList (jaTasks : List (DebitedTask cluster))
    (queue : QueueInstance) : QueueInstance × UsageList :=
  let queue := qinstanceSetConfSlotsUsed queue
  let usage := rcDebitConsumable cluster none 0 true queue.consumableConfigList Counters.empty
  (queue, jaTasks.foldl (rebuildTask cluster queue) usage)

end Rebuild

variable {cluster : ClusterConfig} {job : DebitedJob} {slots : ℤ} {isMasterTask : Bool}

section Lookup

theorem find?_eq_some_of_unique {α : Type*} {p : α → Bool} {l : List α} {x : α} (hx : x ∈ l)
    (hp : p x) (h : ∀ y ∈ l, p y → y = x) : l.find? p = some x := by
  cases hfind : l.find? p with
  | none => exact absurd hp (List.find?_eq_none.mp hfind x hx)
  | some y => rw [h y (List.mem_of_find?_eq_some hfind) (List.find?_some hfind)]

theorem cqueueNameSplit_fullName {name : String} (hname : '@' ∉ name.toList) (host : HostName) :
    cqueueNameSplit (name ++ "@" ++ host.name) = (name, host.name) := by
  have hp : ∀ c ∈ name.toList, (decide (c ≠ '@')) = true := by
    intro c hc
    exact decide_eq_true fun e => hname (e ▸ hc)
  have hlist : (name ++ "@" ++ host.name).toList = name.toList ++ '@' :: host.name.toList := by
    simp [String.toList_append]
  have hhost : host.name.toList ≠ ['@'] := by
    intro h
    have := host.simple
    simp [isHgroupName, h] at this
  simp only [cqueueNameSplit, hlist]
  rw [List.takeWhile_append_of_pos hp, List.dropWhile_append_of_pos hp]
  simp [hhost]

theorem cqueueListLocateQinstance_fullName {cqueue : ClusterQueue} {queue : QueueInstance}
    (hcqueue : cqueue ∈ cluster.cqueueList) (hqueue : queue ∈ cqueue.qinstances) :
    cqueueListLocateQinstance cluster queue.fullName = some queue := by
  have hcq : (cluster.cqueueList.find? fun cq => cq.name = cqueue.name) = some cqueue :=
    find?_eq_some_of_unique hcqueue (decide_eq_true rfl) fun cq hcq hname =>
      List.inj_on_of_nodup_map cluster.cqueueNames hcq hcqueue (of_decide_eq_true hname)
  have hqi : (cqueue.qinstances.find? fun qi =>
      sgeHostcmp cluster.toRqsContext qi.qhostname.name queue.qhostname.name) = some queue := by
    apply find?_eq_some_of_unique hqueue (decide_eq_true rfl)
    intro qi hqi hhost
    have : Std.Symm fun a b : QueueInstance =>
        ¬ sgeHostcmp cluster.toRqsContext a.qhostname.name b.qhostname.name :=
      ⟨fun a b h hba => h (decide_eq_true (of_decide_eq_true hba).symm)⟩
    by_contra hne
    exact (cluster.qinstanceHosts cqueue hcqueue).forall hqi hqueue hne hhost
  rw [cqueue.fullNames queue hqueue, cqueueListLocateQinstance,
    cqueueNameSplit_fullName cqueue.plain]
  simp only [hcq, hqi]

end Lookup

section AtQueue
variable {n : String}

theorem hostUsage_qinstance (hostname : String) :
    hostUsage cluster job hostname slots isMasterTask (.qinstance n) = 0 := by
  simp only [hostUsage]
  cases hostListLocate cluster hostname with
  | none => rfl
  | some host => exact Pi.single_eq_of_ne Account.noConfusion _

theorem quotaUsage_qinstance (grantedPe : Option String) (granted : Granted)
    (rqs : ResourceQuotaSet) :
    quotaUsage cluster job grantedPe granted slots isMasterTask rqs (.qinstance n) = 0 := by
  simp only [quotaUsage]
  cases rqsDebitedRule cluster job grantedPe granted rqs with
  | none => rfl
  | some found =>
      dsimp only
      rw [sum_map_apply]
      exact sum_map_eq_zero fun centryName _ => Pi.single_eq_of_ne Account.noConfusion _

theorem reservedUsage_qinstance (ar : Option AdvanceReservation) (qname : String) :
    reservedUsage cluster job ar qname slots isMasterTask (.qinstance n) = 0 := by
  rw [reservedUsage]
  cases hfound : reservedQueue ar qname with
  | none => rfl
  | some found =>
      obtain ⟨ar, -, hfound⟩ := Option.bind_eq_some_iff.mp hfound
      obtain ⟨reserved, -, rfl⟩ := Option.map_eq_some_iff.mp hfound
      exact Pi.single_eq_of_ne Account.noConfusion _

theorem grantedUsage_qinstance {granted : Granted} {queue : QueueInstance}
    (hlocate : cqueueListLocateQinstance cluster granted.qname = some queue)
    (hname : queue.fullName = granted.qname)
    (har : job.ar ≠ 0 → ∃ ar ∈ cluster.arList, ar.id = job.ar) (grantedPe : Option String) :
    grantedUsage cluster job grantedPe granted slots isMasterTask (.qinstance n) =
      if granted.qname = n then
        containerUsage cluster job slots isMasterTask queue.consumableConfigList
      else 0 := by
  have hfound : ¬ (job.ar ≠ 0 ∧ (cluster.arList.find? fun ar => ar.id = job.ar) = none) := by
    rintro ⟨hne, hnone⟩
    obtain ⟨ar, hmem, hid⟩ := har hne
    exact List.find?_eq_none.mp hnone ar hmem (decide_eq_true hid)
  have hqueue : queueUsage cluster job (.qinstance queue.fullName) queue slots isMasterTask
      (.qinstance n) = if granted.qname = n then
        containerUsage cluster job slots isMasterTask queue.consumableConfigList else 0 := by
    rw [hname, queueUsage]
    split
    · rename_i hn
      rw [hn, Pi.single_eq_same]
    · rename_i hn
      exact Pi.single_eq_of_ne (fun e => hn (Account.qinstance.inj e).symm) _
  simp only [grantedUsage, hlocate, if_neg hfound, Pi.add_apply, hostUsage_qinstance, zero_add,
    hqueue]
  by_cases hzero : job.ar = 0
  · rw [if_pos hzero, sum_map_apply, sum_map_eq_zero fun rqs _ => quotaUsage_qinstance _ _ rqs,
      add_zero]
  · rw [if_neg hzero, reservedUsage_qinstance, add_zero]

theorem gdilUsage_notMem {gdil : List Granted}
    (hlocated : ∀ ep ∈ gdil, ∃ queue, cqueueListLocateQinstance cluster ep.qname = some queue ∧
      queue.fullName = ep.qname ∧ queue.qhostname = ep.qhostname)
    (har : job.ar ≠ 0 → ∃ ar ∈ cluster.arList, ar.id = job.ar) (grantedPe : Option String)
    (hn : ∀ ep ∈ gdil, ep.qname ≠ n) :
    gdilUsage cluster job grantedPe isMasterTask gdil (.qinstance n) = 0 := by
  induction gdil generalizing isMasterTask with
  | nil => rfl
  | cons ep gdil ih =>
      obtain ⟨queue, hlocate, hname, -⟩ := hlocated ep List.mem_cons_self
      rw [gdilUsage, Pi.add_apply, grantedUsage_qinstance hlocate hname har,
        if_neg (hn ep List.mem_cons_self), zero_add]
      exact ih (fun ep hep => hlocated ep (List.mem_cons_of_mem _ hep))
        fun ep hep => hn ep (List.mem_cons_of_mem _ hep)

/-- Of the granted queues the one with the name of the queue instance counts. It is the master
task when it is the first one. -/
theorem gdilUsage_qinstance {queue : QueueInstance}
    (hqueue : cqueueListLocateQinstance cluster queue.fullName = some queue) {gdil : List Granted}
    (hnodup : (gdil.map Granted.qname).Nodup)
    (hlocated : ∀ ep ∈ gdil, ∃ queue, cqueueListLocateQinstance cluster ep.qname = some queue ∧
      queue.fullName = ep.qname ∧ queue.qhostname = ep.qhostname)
    (har : job.ar ≠ 0 → ∃ ar ∈ cluster.arList, ar.id = job.ar) (grantedPe : Option String) :
    gdilUsage cluster job grantedPe isMasterTask gdil (.qinstance queue.fullName) =
      match gdil.find? fun ep => ep.qname = queue.fullName with
      | none => 0
      | some ep => containerUsage cluster job ep.slots (isMasterTask && gdil.head? = some ep)
          queue.consumableConfigList := by
  induction gdil generalizing isMasterTask with
  | nil => rfl
  | cons ep gdil ih =>
      have hrest := fun ep hep => hlocated ep (List.mem_cons_of_mem _ hep)
      obtain ⟨queue', hlocate, hname, -⟩ := hlocated ep List.mem_cons_self
      rw [List.map_cons, List.nodup_cons] at hnodup
      rw [gdilUsage, Pi.add_apply, grantedUsage_qinstance hlocate hname har, List.find?_cons]
      by_cases hep : ep.qname = queue.fullName
      · have heq : queue' = queue := by
          rw [hep, hqueue] at hlocate
          exact (Option.some.inj hlocate).symm
        have hnot : ∀ ep' ∈ gdil, ep'.qname ≠ queue.fullName := by
          intro ep' hep' hname'
          exact hnodup.1 (hep ▸ hname' ▸ List.mem_map_of_mem hep')
        rw [if_pos hep, gdilUsage_notMem hrest har grantedPe hnot, heq, add_zero]
        simp only [hep, decide_true, List.head?_cons, Bool.and_true]
      · rw [if_neg hep, zero_add, ih hnodup.2 hrest]
        simp only [hep, decide_false]
        cases hfind : gdil.find? fun ep => ep.qname = queue.fullName with
        | none => rfl
        | some found =>
            have hfound : found.qname = queue.fullName := by simpa using List.find?_some hfind
            have hne : ep ≠ found := fun e => hep (e ▸ hfound)
            simp [hne]

end AtQueue

section Accounts

theorem consumableUsage_zero (name : String) :
    consumableUsage cluster job 0 isMasterTask name = 0 := by
  have hslots : ∀ consumable n, debitSlots consumable 0 isMasterTask = some n → n = 0 := by
    intro consumable n h
    cases consumable with
    | no => cases h
    | yes => exact (Option.some.inj h).symm
    | job =>
        cases isMasterTask with
        | false => cases h
        | true => exact (Option.some.inj h).symm
  simp only [consumableUsage]
  cases centryListLocate cluster name with
  | none => rfl
  | some centry =>
      cases h : debitSlots centry.consumable 0 isMasterTask with
      | none => simp only [h]
      | some n =>
          simp only [h, hslots _ n h, contribution]
          split
          · simp
          · split <;> rfl

theorem containerUsage_zero (configList : List ConfiguredValue) :
    containerUsage cluster job 0 isMasterTask configList = 0 := by
  simp only [containerUsage, consumableUsage_zero, Pi.single_zero]
  exact sum_map_eq_zero fun _ _ => rfl

theorem containerUsage_confSlotsUsed (queue : QueueInstance) :
    containerUsage cluster job slots isMasterTask
        (qinstanceSetConfSlotsUsed queue).consumableConfigList =
      containerUsage cluster job slots isMasterTask queue.consumableConfigList := by
  simp only [containerUsage, knownConsumables, qinstanceSetConfSlotsUsed,
    confSlotsUsed_names _ queue.slotsConfigured]

/-- A round of the rebuilding loops posts what the task takes of the queue instance. -/
theorem posts_rebuildTask {queue : QueueInstance}
    (hqueue : cqueueListLocateQinstance cluster queue.fullName = some queue)
    (jaTask : DebitedTask cluster) :
    Posts Counters.amount
      (fun usage => rebuildTask cluster (qinstanceSetConfSlotsUsed queue) usage jaTask)
      (jaTask.usage (.qinstance queue.fullName)) := by
  intro usage
  rw [DebitedTask.usage, gdilUsage_qinstance hqueue jaTask.gdil.nodup jaTask.gdil.located
    jaTask.reservation]
  simp only [rebuildTask]
  have hname : (qinstanceSetConfSlotsUsed queue).fullName = queue.fullName := rfl
  rw [hname]
  cases jaTask.gdil.list.find? fun ep => ep.qname = queue.fullName with
  | none => exact (add_zero _).symm
  | some ep =>
      dsimp only
      rw [Bool.true_and]
      split
      · rw [posts_rcDebitConsumable, containerUsage_confSlotsUsed]
      · have hzero : (ep.slots : ℤ) = 0 := by omega
        rw [hzero, containerUsage_zero, add_zero]

/-- Rebuilding the account of a queue instance gives the sum over the tasks. -/
theorem amount_qinstanceReinitConsumableActualList {queue : QueueInstance}
    (hqueue : cqueueListLocateQinstance cluster queue.fullName = some queue)
    (jaTasks : List (DebitedTask cluster)) :
    (qinstanceReinitConsumableActualList cluster jaTasks queue).2.amount =
      (jaTasks.map DebitedTask.usage).sum (.qinstance queue.fullName) := by
  have hloop := Posts.foldl jaTasks fun jaTask _ => posts_rebuildTask hqueue jaTask
  rw [qinstanceReinitConsumableActualList, hloop, posts_rcDebitConsumable_none,
    Counters.amount_empty, zero_add, zero_add, sum_map_apply]

/-- What a task has granted. -/
def DebitedTask.granted (jaTask : DebitedTask cluster) :
    DebitedJob × Option String × List Granted :=
  (jaTask.job, jaTask.grantedPe, jaTask.gdil.list)

/-- Over all starts and releases of tasks the accounts are the sum of what the granted tasks take.
They are zero when nothing is granted, when no resource quota keeps an element, they only
depend on what is granted, and rebuilding the account of a queue instance gives the same account. -/
theorem resourceAccounts_balance {jaTasks : List (DebitedTask cluster)}
    {hist : List (AccountEvent cluster)} {s : QmasterAccounts cluster}
    (h : Run AccountStep (QmasterAccounts.init cluster jaTasks) hist s) :
    s.usage.balance = (s.jaTasks.map DebitedTask.usage).sum ∧
    ((∀ jaTask ∈ s.jaTasks, jaTask.gdil.list = []) →
      s.usage.balance = 0 ∧ ∀ rqs i name, (s.usage (.limit rqs i name)).list = []) ∧
    (∀ hist' s', Run AccountStep (QmasterAccounts.init cluster jaTasks) hist' s' →
      s'.jaTasks.map DebitedTask.granted = s.jaTasks.map DebitedTask.granted →
      s'.usage.balance = s.usage.balance) ∧
    ∀ cqueue ∈ cluster.cqueueList, ∀ queue ∈ cqueue.qinstances,
      (qinstanceReinitConsumableActualList cluster s.jaTasks queue).2.amount =
        (s.usage (.qinstance queue.fullName)).amount := by
  have hbalance := (Balanced.run h).balance
  have hzero : (∀ jaTask ∈ s.jaTasks, jaTask.gdil.list = []) → s.usage.balance = 0 := by
    intro hempty
    rw [hbalance]
    exact sum_map_eq_zero fun jaTask hjaTask => DebitedTask.usage_of_empty (hempty jaTask hjaTask)
  refine ⟨hbalance, fun hempty => ⟨hzero hempty, fun rqs i name => ?_⟩, ?_, ?_⟩
  · exact (QuotasTidy.run h rqs i name).list_eq_nil (congrFun (hzero hempty) (.limit rqs i name))
  · intro hist' s' h' hgranted
    have husage : ∀ l : List (DebitedTask cluster), l.map DebitedTask.usage =
        (l.map DebitedTask.granted).map fun t => gdilUsage cluster t.1 t.2.1 true t.2.2 := by
      intro l
      rw [List.map_map]
      rfl
    rw [hbalance, (Balanced.run h').balance, husage, husage, hgranted]
  · intro cqueue hcqueue queue hqueue
    have hlocate := cqueueListLocateQinstance_fullName hcqueue hqueue
    rw [amount_qinstanceReinitConsumableActualList hlocate, ← hbalance]
    rfl

/-- One queue instance, with a quota on its slots. -/
def oneQueueCluster : ClusterConfig where
  fnmatch a b := a = b
  qrefListHostRejected a b := a ≠ b
  sgeHostcpy h := h
  usersets := []
  parseUlongVal value := if value = some "1" then some 1 else none
  centryList := [⟨"slots", "s", .yes, .le, some "1"⟩]
  exechostList := [⟨"global", []⟩, ⟨"h1", [⟨"slots", 4, "4"⟩]⟩]
  cqueueList := [{
    name := "all.q"
    qinstances := [⟨⟨"h1", by decide⟩, "all.q@h1", 4, [⟨"slots", 4, "4"⟩], by decide⟩]
    plain := by decide
    fullNames := by decide }]
  arList := []
  rqsList := [⟨"total", true, [⟨⟨none, none, none, none, none⟩, ["slots"]⟩]⟩]
  cqueueNames := by decide
  qinstanceHosts := by decide
  qinstanceCount := by decide

/-- A task with two slots in the queue instance. -/
def twoSlotTask : DebitedTask oneQueueCluster where
  job := ⟨"user1", none, none, 0, [], []⟩
  taskNumber := 1
  isEnrolled := true
  grantedPe := none
  gdil := ⟨[⟨"all.q@h1", ⟨"h1", by decide⟩, 2⟩], by decide, by decide⟩
  reservation := by decide

theorem twoSlotTask_run :
    Run AccountStep (QmasterAccounts.init oneQueueCluster [twoSlotTask])
      [.start 0 twoSlotTask]
      (sgeCommitJobSent 0 twoSlotTask (QmasterAccounts.init oneQueueCluster [twoSlotTask])) :=
  Run.snoc .nil (.start rfl rfl rfl)

theorem twoSlotTask_balance :
    (sgeCommitJobSent 0 twoSlotTask
      (QmasterAccounts.init oneQueueCluster [twoSlotTask])).usage.balance =
      twoSlotTask.usage + 0 ∧
    twoSlotTask.usage (.limit "total" 0 "slots") "/////" = (2, 0) :=
  ⟨(resourceAccounts_balance twoSlotTask_run).1, by decide +kernel⟩

end Accounts

end GridEngine
