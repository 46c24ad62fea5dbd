import Mathlib.Algebra.Module.Pi
import Mathlib.Algebra.BigOperators.GroupWithZero.Action
import GridEngine.SubordinateCounters

/-!
# Runs of suspending on subordinate

In every state the counters are the number of superordinate queue instances with a reached
threshold, as long as no change of a slot count moves a threshold and no undelivered signal cuts
a change of the list of subordinates short.
-/

namespace GridEngine
open Ledger Machine

variable {cluster : ClusterConfig}

section Suspended
variable (cluster)

/-- The names of all queue instances. -/
def fullNames : List String := (qinstances cluster).map QueueInstance.fullName

/-- One for each queue instance that the one with the name suspends. -/
def suspendedBy (queues : String → QueueSlots) (name : String) : String → BitVec 32 :=
  match cqueueListLocateQinstance cluster name with
  | none => 0
  | some qinstance => marks (qinstanceFindSuspendedSubordinates cluster qinstance (queues name))

/-- The queue instance with a name suspends another one: its list of subordinates is queuewise, the
resolved list has the other one, and the used slots have reached the threshold. -/
def Suspends (queues : String → QueueSlots) (name other : String) : Bool :=
  match cqueueListLocateQinstance cluster name with
  | none => false
  | some qinstance =>
      (qinstanceFindSuspendedSubordinates cluster qinstance (queues name)).any fun so =>
        so.name = other

/-- How many queue instances suspend the one with the name. -/
def sosCount (queues : String → QueueSlots) (name : String) : ℕ :=
  (fullNames cluster).countP fun p => Suspends cluster queues p name

end Suspended

section Names

theorem nodup_fullNames : (fullNames cluster).Nodup := by
  rw [fullNames, qinstances, List.map_flatMap, List.nodup_flatMap]
  constructor
  · intro cqueue hcqueue
    have : Std.Symm fun a b : QueueInstance =>
        ¬ sgeHostcmp cluster.toRqsContext a.qhostname.name b.qhostname.name :=
      ⟨fun a b h hba => h (decide_eq_true (of_decide_eq_true hba).symm)⟩
    rw [List.Nodup, List.pairwise_map]
    apply (cluster.qinstanceHosts cqueue hcqueue).imp_of_mem
    intro a b ha hb hhost he
    apply hhost
    rw [cqueue.fullNames a ha, cqueue.fullNames b hb, String.append_right_inj] at he
    exact decide_eq_true (by rw [he])
  · have hkeys := List.pairwise_map.mp cluster.cqueueNames
    apply hkeys.imp_of_mem
    intro a b ha hb hne name hna hnb
    obtain ⟨qa, hqa, rfl⟩ := List.mem_map.mp hna
    obtain ⟨qb, hqb, hname⟩ := List.mem_map.mp hnb
    apply hne
    have hsplit := congrArg (fun n => (cqueueNameSplit n).1) hname
    simp only [a.fullNames qa hqa, b.fullNames qb hqb, cqueueNameSplit_fullName a.plain,
      cqueueNameSplit_fullName b.plain] at hsplit
    exact hsplit.symm

theorem mem_fullNames_of_locate {name : String} {queue : QueueInstance}
    (h : cqueueListLocateQinstance cluster name = some queue) : queue.fullName ∈ fullNames cluster :=
  List.mem_map_of_mem (mem_of_locate h)

theorem findSuspended_nodup (qinstance : QueueInstance) (q : QueueSlots) :
    ((qinstanceFindSuspendedSubordinates cluster qinstance q).map Subordinate.name).Nodup := by
  rw [qinstanceFindSuspendedSubordinates]
  split
  · exact ((soListResolve_spec _ _).1).sublist (List.filter_sublist.map _)
  · exact List.nodup_nil

theorem findSuspended_located {qinstance : QueueInstance} {q : QueueSlots} {so : Subordinate}
    (h : so ∈ qinstanceFindSuspendedSubordinates cluster qinstance q) :
    ∃ queue, cqueueListLocateQinstance cluster so.name = some queue ∧ queue.fullName = so.name := by
  rw [qinstanceFindSuspendedSubordinates] at h
  split at h
  · exact soListResolve_located (List.mem_of_mem_filter h)
  · cases h

theorem sum_map_indicator {ι : Type*} (l : List ι) (p : ι → Bool) :
    (l.map fun i => if p i then (1 : BitVec 32) else 0).sum = ((l.countP p : ℕ) : BitVec 32) := by
  induction l with
  | nil => rfl
  | cons i l ih =>
      rw [List.map_cons, List.sum_cons, ih, List.countP_cons]
      split
      · rw [Nat.cast_add, Nat.cast_one, add_comm]
      · rw [zero_add, add_zero]

theorem suspendedBy_apply (queues : String → QueueSlots) (name other : String) :
    suspendedBy cluster queues name other =
      if Suspends cluster queues name other then 1 else 0 := by
  rw [suspendedBy, Suspends]
  cases cqueueListLocateQinstance cluster name with
  | none => rfl
  | some qinstance =>
      dsimp only
      rw [marks_apply (findSuspended_nodup _ _)]
      simp only [List.any_eq_true, List.mem_map, decide_eq_true_eq]

theorem sum_suspendedBy (queues : String → QueueSlots) (other : String) :
    ((fullNames cluster).map (suspendedBy cluster queues)).sum other =
      ((sosCount cluster queues other : ℕ) : BitVec 32) := by
  rw [sum_map_apply, sosCount, ← sum_map_indicator]
  simp only [suspendedBy_apply]

end Names

section Jobs

/-- Using more slots suspends the subordinates whose threshold is reached now. -/
theorem marks_filter_tstSos (l : List Subordinate) {few used total : ℕ} (h : few ≤ used) :
    marks (l.filter fun so => tstSos used total so) -
        marks (l.filter fun so => tstSos few total so) =
      (l.map fun so => if !tstSos few total so && tstSos used total so then
        Pi.single so.name 1 else 0).sum := by
  induction l with
  | nil => exact sub_zero _
  | cons so l ih =>
      have hmono : tstSos few total so = true → tstSos used total so = true := by
        simp only [tstSos]
        split <;> simp only [decide_eq_true_eq] <;> omega
      rw [List.map_cons, List.sum_cons, ← ih]
      cases hfew : tstSos few total so with
      | true => simp [hfew, hmono hfew, marks_cons]
      | false =>
          cases hused : tstSos used total so with
          | true => simp [hfew, hused, marks_cons, add_sub_assoc]
          | false => simp [hfew, hused]

/-- The queue instance with another number of used slots. -/
def QueueSlots.withUsed (q : QueueSlots) (slotsUsed : ℕ) : QueueSlots :=
  { q with
    slotsUsed }

theorem getSlotwiseSosThreshold_of_any {q : QueueSlots}
    (h : q.subordinateList.list.any fun so => so.slotsSum = 0) : getSlotwiseSosThreshold q = 0 := by
  obtain ⟨so, hso, hzero⟩ := List.any_eq_true.mp h
  rw [getSlotwiseSosThreshold]
  cases hhead : q.subordinateList.list.head? with
  | none => rfl
  | some first =>
      exact q.subordinateList.uniform so hso first (List.mem_of_head? hhead)
        (of_decide_eq_true hzero)

theorem findSuspended_of_not_any {qinstance : QueueInstance} {q : QueueSlots}
    (h : ¬ (q.subordinateList.list.any fun so => so.slotsSum = 0)) :
    qinstanceFindSuspendedSubordinates cluster qinstance q = [] := by
  rw [qinstanceFindSuspendedSubordinates]
  split
  · rename_i hzero
    cases hlist : q.subordinateList.list with
    | nil => rfl
    | cons first rest =>
        rw [getSlotwiseSosThreshold, hlist] at hzero
        rw [hlist] at h
        have hfirst : first.slotsSum = 0 := hzero
        simp [hfirst] at h
  · rfl

theorem smul_mark (sign : BitVec 32) (name : String) :
    sign • (Pi.single name 1 : String → BitVec 32) = Pi.single name sign := by
  funext other
  by_cases h : other = name
  · subst h
    simp
  · simp [h]

theorem sum_map_mark (sign : BitVec 32) (l : List Subordinate) (c : Subordinate → Bool) :
    (l.map fun so => if c so then (Pi.single so.name sign : String → BitVec 32) else 0).sum =
      sign • (l.map fun so => if c so then
        (Pi.single so.name 1 : String → BitVec 32) else 0).sum := by
  induction l with
  | nil => exact (smul_zero sign).symm
  | cons so l ih =>
      rw [List.map_cons, List.sum_cons, ih, List.map_cons, List.sum_cons, smul_add]
      congr 1
      split
      · exact (smul_mark sign so.name).symm
      · exact (smul_zero sign).symm

/-- A granted queue changes the counters by what it changes in the suspended subordinates. -/
theorem posts_xOnSubordinateGdi {queues : String → QueueSlots} {delivered : String → Bool}
    {suspend : Bool} {gdi : Granted} {qinstance : QueueInstance}
    (hlocate : cqueueListLocateQinstance cluster gdi.qname = some qinstance)
    (hname : qinstance.fullName = gdi.qname) (hhost : qinstance.qhostname = gdi.qhostname)
    (hself : NotItself qinstance (queues gdi.qname).subordinateList) :
    Posts counterBalance
      (fun counters => xOnSubordinateGdi cluster queues delivered suspend counters gdi)
      (sosSign suspend •
        (suspendedBy cluster queues gdi.qname -
          marks (qinstanceFindSuspendedSubordinates cluster qinstance
            ((queues gdi.qname).withUsed ((queues gdi.qname).slotsUsed - gdi.slots))))) := by
  intro counters
  simp only [xOnSubordinateGdi, suspendedBy, hlocate, hname, ← hhost]
  by_cases hany : (queues gdi.qname).subordinateList.list.any fun so => so.slotsSum = 0
  · have hround : ∀ so ∈ soListResolve cluster (queues gdi.qname).subordinateList.list
        qinstance.qhostname.name, Posts counterBalance (fun counters =>
          if gdi.qname = so.name then counters
          else if !tstSos ((queues gdi.qname).slotsUsed - gdi.slots) (queues gdi.qname).jobSlots so &&
              tstSos (queues gdi.qname).slotsUsed (queues gdi.qname).jobSlots so then
            (xOnSubordinate cluster queues delivered suspend so.name counters).1
          else counters)
        (if !tstSos ((queues gdi.qname).slotsUsed - gdi.slots) (queues gdi.qname).jobSlots so &&
            tstSos (queues gdi.qname).slotsUsed (queues gdi.qname).jobSlots so then
          Pi.single so.name (sosSign suspend) else 0) := by
      intro so hso
      obtain ⟨queue, hqueue, hqueueName⟩ := soListResolve_located hso
      have hne : gdi.qname ≠ so.name := hname ▸ soListResolve_notItself hself hso
      simp only [if_neg hne]
      exact Posts.ite _ (fun _ => posts_xOnSubordinate hqueue hqueueName) fun _ => posts_id
    have hzero := getSlotwiseSosThreshold_of_any hany
    have hzero' : getSlotwiseSosThreshold ((queues gdi.qname).withUsed
        ((queues gdi.qname).slotsUsed - gdi.slots)) = 0 := hzero
    rw [if_pos hany, Posts.foldl _ hround, sum_map_mark, ← marks_filter_tstSos _ (Nat.sub_le _ _),
      qinstanceFindSuspendedSubordinates, if_pos hzero, qinstanceFindSuspendedSubordinates,
      if_pos hzero']
    rfl
  · rw [if_neg hany, findSuspended_of_not_any hany]
    have hany' : ¬ (((queues gdi.qname).withUsed ((queues gdi.qname).slotsUsed -
        gdi.slots)).subordinateList.list.any fun so => so.slotsSum = 0) := hany
    rw [findSuspended_of_not_any hany', sub_self, smul_zero, add_zero]

theorem grantedSlots_of_mem {gdil : List Granted} (h : (gdil.map Granted.qname).Nodup)
    {gdi : Granted} (hgdi : gdi ∈ gdil) : grantedSlots gdil gdi.qname = gdi.slots := by
  have hfilter : (gdil.filter fun ep => ep.qname = gdi.qname) = [gdi] := by
    induction gdil with
    | nil => cases hgdi
    | cons ep gdil ih =>
        obtain ⟨hep, hnodup⟩ := List.nodup_cons.mp h
        rcases List.mem_cons.mp hgdi with rfl | hgdi
        · rw [List.filter_cons, if_pos (decide_eq_true rfl), List.cons_inj_right,
            List.filter_eq_nil_iff]
          intro ep' hep' hname
          exact hep (of_decide_eq_true hname ▸ List.mem_map_of_mem hep')
        · rw [List.filter_cons_of_neg, ih hnodup hgdi]
          intro hname
          exact hep ((of_decide_eq_true hname) ▸ List.mem_map_of_mem hgdi)
  rw [grantedSlots, hfilter]
  exact Nat.add_zero _

theorem grantedSlots_of_notMem {gdil : List Granted} {name : String}
    (h : name ∉ gdil.map Granted.qname) : grantedSlots gdil name = 0 := by
  have hfilter : (gdil.filter fun ep => ep.qname = name) = [] := by
    rw [List.filter_eq_nil_iff]
    intro ep hep hname
    exact h (of_decide_eq_true hname ▸ List.mem_map_of_mem hep)
  rw [grantedSlots, hfilter]
  rfl

/-- The granted queues of a job change the counters by the change of all suspended subordinates
between the queues with and without the job. -/
theorem posts_cqueueListXOnSubordinateGdil {high low : String → QueueSlots}
    {delivered : String → Bool} {suspend : Bool} (gdil : GrantedList cluster)
    (hself : ∀ queue ∈ qinstances cluster, NotItself queue (high queue.fullName).subordinateList)
    (hlow : ∀ name, low name =
      (high name).withUsed ((high name).slotsUsed - grantedSlots gdil.list name)) :
    Posts counterBalance
      (cqueueListXOnSubordinateGdil cluster high delivered suspend gdil.list)
      (sosSign suspend • (((fullNames cluster).map (suspendedBy cluster high)).sum -
        ((fullNames cluster).map (suspendedBy cluster low)).sum)) := by
  have hround : ∀ gdi ∈ gdil.list, Posts counterBalance
      (fun counters => xOnSubordinateGdi cluster high delivered suspend counters gdi)
      (sosSign suspend •
        (suspendedBy cluster high gdi.qname - suspendedBy cluster low gdi.qname)) := by
    intro gdi hgdi
    obtain ⟨qinstance, hlocate, hname, hhost⟩ := gdil.located gdi hgdi
    have hlowName : suspendedBy cluster low gdi.qname =
        marks (qinstanceFindSuspendedSubordinates cluster qinstance
          ((high gdi.qname).withUsed ((high gdi.qname).slotsUsed - gdi.slots))) := by
      rw [suspendedBy, hlocate, hlow, grantedSlots_of_mem gdil.nodup hgdi]
    rw [hlowName]
    exact posts_xOnSubordinateGdi hlocate hname hhost (hname ▸ hself _ (mem_of_locate hlocate))
  have hsub : gdil.list.map Granted.qname ⊆ fullNames cluster := by
    intro name hname'
    obtain ⟨gdi, hgdi, rfl⟩ := List.mem_map.mp hname'
    obtain ⟨qinstance, hlocate, hname, -⟩ := gdil.located gdi hgdi
    exact hname ▸ mem_fullNames_of_locate hlocate
  have hsum := sum_map_changes nodup_fullNames gdil.nodup hsub (f := suspendedBy cluster low)
    (g := suspendedBy cluster high) (by
      intro name _ hnot
      have hsame : low name = high name := by
        rw [hlow, grantedSlots_of_notMem hnot]
        rfl
      rw [suspendedBy, suspendedBy, hsame])
  intro counters
  rw [cqueueListXOnSubordinateGdil, Posts.foldl gdil.list hround, hsum, add_sub_cancel_left,
    List.smul_sum, List.map_map, List.map_map]
  rfl

end Jobs

section Lists

theorem xOnSubordinate_snd {queues : String → QueueSlots} {delivered : String → Bool}
    {suspend : Bool} {name : String} {queue : QueueInstance}
    (h : cqueueListLocateQinstance cluster name = some queue) (hname : queue.fullName = name)
    (counters : String → SosCounter) :
    (xOnSubordinate cluster queues delivered suspend name counters).2 =
      (qinstanceXOnSubordinate (queues name) (delivered name) suspend (counters name)).2 := by
  simp only [xOnSubordinate, h, hname]

/-- A change of the list of subordinates whose signals are delivered, except perhaps the last one,
counts all subordinates. -/
theorem counterBalance_cqueueListXOnSubordinateSo {queues : String → QueueSlots}
    {delivered : String → Bool} {suspend : Bool} {l : List Subordinate}
    (hnodup : (l.map Subordinate.name).Nodup)
    (hlocated : ∀ so ∈ l, ∃ queue, cqueueListLocateQinstance cluster so.name = some queue ∧
      queue.fullName = so.name) {counters : String → SosCounter}
    (hdelivered : ∀ so ∈ l.dropLast,
      (xOnSubordinate cluster queues delivered suspend so.name counters).2) :
    counterBalance (cqueueListXOnSubordinateSo cluster queues delivered suspend l counters) =
      counterBalance counters + sosSign suspend • marks l := by
  induction l generalizing counters with
  | nil => exact ((congrArg _ (smul_zero (sosSign suspend))).trans (add_zero _)).symm
  | cons so l ih =>
      obtain ⟨hso, hnodup⟩ := List.nodup_cons.mp hnodup
      obtain ⟨queue, hqueue, hname⟩ := hlocated so List.mem_cons_self
      have hfirst := @posts_xOnSubordinate cluster queues delivered suspend _ _ hqueue hname
        counters
      rw [cqueueListXOnSubordinateSo, marks_cons, smul_add, smul_mark, ← add_assoc]
      split
      · rw [ih hnodup (fun so' hso' => hlocated so' (List.mem_cons_of_mem _ hso')), hfirst]
        intro so' hso'
        have hmem : so' ∈ l := List.mem_of_mem_dropLast hso'
        obtain ⟨queue', hqueue', hname'⟩ := hlocated so' (List.mem_cons_of_mem _ hmem)
        have hne : so'.name ≠ so.name := fun e => hso (e ▸ List.mem_map_of_mem hmem)
        have hcounter := @xOnSubordinate_other cluster queues delivered suspend _ _ _ hqueue hname hne
          counters
        have hold := hdelivered so' (by
          cases l with
          | nil => cases hmem
          | cons b l => exact List.mem_cons_of_mem _ hso')
        rw [xOnSubordinate_snd hqueue' hname'] at hold ⊢
        rwa [hcounter]
      · rename_i hfail
        cases l with
        | nil => rw [hfirst, marks, List.map_nil, List.sum_nil, smul_zero, add_zero]
        | cons b l => exact absurd (hdelivered so List.mem_cons_self) hfail

end Lists

section Runs

/-- The counters count, no queue instance is its own subordinate, and the used slots are those of
the running tasks. -/
structure SosInvariant (s : SosState cluster) : Prop where
  counters : ∀ name ∈ fullNames cluster, counterBalance s.counters name =
    ((fullNames cluster).map (suspendedBy cluster s.queues)).sum name
  notItself : ∀ queue ∈ qinstances cluster,
    NotItself queue (s.queues queue.fullName).subordinateList
  used : ∀ name, (s.queues name).slotsUsed =
    (s.running.map fun gdil => grantedSlots gdil.list name).sum

/-- When a step keeps the counters right: a change of the slot count moves no threshold, and in
a change of the list of subordinates no signal fails before the last one. -/
def SosCondition (s : SosState cluster) : SosEvent cluster → Prop
  | .jobSlots qinstance newValue =>
      let q := s.queues qinstance.fullName
      newValue < q.slotsReserved ∨ getSlotwiseSosThreshold q ≠ 0 ∨
        ∀ so ∈ soListResolve cluster q.subordinateList.list qinstance.qhostname.name,
          tstSos q.slotsUsed newValue so = tstSos q.slotsUsed q.jobSlots so
  | .subordinateList qinstance newValue delivered =>
      let (suspendedSo, unsuspendedSo) :=
        subordinateChanges cluster qinstance (s.queues qinstance.fullName) newValue
      (∀ so ∈ unsuspendedSo.dropLast,
        (xOnSubordinate cluster s.queues delivered false so.name s.counters).2) ∧
      ∀ so ∈ suspendedSo.dropLast,
        (xOnSubordinate cluster s.queues delivered true so.name s.counters).2
  | _ => True

variable {s s' : SosState cluster}

theorem SosInvariant.start (hs : SosInvariant s) (gdil : GrantedList cluster)
    (delivered : String → Bool) : SosInvariant (s.start gdil delivered) where
  counters := by
    intro name hname
    have hlow : ∀ name, s.queues name = (debitSlotsUsed gdil.list s.queues name).withUsed
        ((debitSlotsUsed gdil.list s.queues name).slotsUsed - grantedSlots gdil.list name) := by
      intro name
      simp only [debitSlotsUsed, QueueSlots.withUsed, Nat.add_sub_cancel]
    have hpost := congrFun (@posts_cqueueListXOnSubordinateGdil cluster
      (debitSlotsUsed gdil.list s.queues) _ delivered true gdil hs.notItself hlow s.counters) name
    rw [Pi.add_apply, hs.counters name hname, sosSign, if_pos rfl, one_smul, Pi.sub_apply,
      add_sub_cancel] at hpost
    exact hpost
  notItself := hs.notItself
  used := by
    intro name
    simp only [SosState.start, debitSlotsUsed, hs.used, List.map_append, List.sum_append,
      List.map_cons, List.map_nil, List.sum_cons, List.sum_nil, Nat.add_zero]

theorem sum_map_eraseIdx {α : Type*} {l : List α} {i : ℕ} {x : α} (h : l[i]? = some x)
    (f : α → ℕ) : ((l.eraseIdx i).map f).sum + f x = (l.map f).sum := by
  obtain ⟨hi, rfl⟩ := List.getElem?_eq_some_iff.mp h
  have hperm := ((List.getElem_cons_eraseIdx_perm hi).map f).sum_eq
  rw [List.map_cons, List.sum_cons] at hperm
  omega

theorem SosInvariant.finish (hs : SosInvariant s) {i : ℕ} {gdil : GrantedList cluster}
    (hi : s.running[i]? = some gdil) (delivered : String → Bool) :
    SosInvariant (s.finish i gdil delivered) where
  counters := by
    intro name hname
    have hpost := congrFun (@posts_cqueueListXOnSubordinateGdil cluster _ _ delivered false gdil
      hs.notItself (fun _ => rfl) s.counters) name
    rw [Pi.add_apply, hs.counters name hname, sosSign, if_neg Bool.false_ne_true, neg_smul,
      one_smul, Pi.neg_apply, Pi.sub_apply] at hpost
    rw [SosState.finish, hpost, neg_sub, add_sub_cancel]
    rfl
  notItself := hs.notItself
  used := by
    intro name
    have hsum := sum_map_eraseIdx hi fun gdil => grantedSlots gdil.list name
    simp only [SosState.finish, undebitSlotsUsed, hs.used]
    omega

theorem suspendedBy_update {qinstance : QueueInstance} (hqinstance : qinstance ∈ qinstances cluster)
    {queues : String → QueueSlots} {q : QueueSlots}
    (h : qinstanceFindSuspendedSubordinates cluster qinstance q =
      qinstanceFindSuspendedSubordinates cluster qinstance (queues qinstance.fullName)) :
    suspendedBy cluster (Function.update queues qinstance.fullName q) =
      suspendedBy cluster queues := by
  funext name
  by_cases hname : name = qinstance.fullName
  · subst hname
    simp only [suspendedBy, locate_of_mem hqinstance, Function.update_self, h]
  · simp only [suspendedBy, Function.update_of_ne hname]

theorem notItself_update {qinstance : QueueInstance} {queues : String → QueueSlots} {q : QueueSlots}
    (hold : ∀ queue ∈ qinstances cluster, NotItself queue (queues queue.fullName).subordinateList)
    (hq : NotItself qinstance q.subordinateList) :
    ∀ queue ∈ qinstances cluster, NotItself queue
      (Function.update queues qinstance.fullName q queue.fullName).subordinateList := by
  intro queue hqueue
  by_cases hname : queue.fullName = qinstance.fullName
  · rw [hname, Function.update_self, NotItself, hname]
    exact hq
  · rw [Function.update_of_ne hname]
    exact hold queue hqueue

theorem slotsUsed_update {queues : String → QueueSlots} {fullName : String} {q : QueueSlots}
    (hq : q.slotsUsed = (queues fullName).slotsUsed) (name : String) :
    (Function.update queues fullName q name).slotsUsed = (queues name).slotsUsed := by
  by_cases hname : name = fullName
  · subst hname
    rw [Function.update_self, hq]
  · rw [Function.update_of_ne hname]

/-- A change of one queue instance that keeps its subordinates, its used slots and what it
suspends. -/
theorem SosInvariant.updateQueue (hs : SosInvariant s) {qinstance : QueueInstance}
    (hqinstance : qinstance ∈ qinstances cluster) {q : QueueSlots}
    (hfind : qinstanceFindSuspendedSubordinates cluster qinstance q =
      qinstanceFindSuspendedSubordinates cluster qinstance (s.queues qinstance.fullName))
    (hlist : q.subordinateList = (s.queues qinstance.fullName).subordinateList)
    (hused : q.slotsUsed = (s.queues qinstance.fullName).slotsUsed) :
    SosInvariant { s with queues := Function.update s.queues qinstance.fullName q } where
  counters := by
    rw [suspendedBy_update hqinstance hfind]
    exact hs.counters
  notItself := notItself_update hs.notItself (hlist ▸ hs.notItself _ hqinstance)
  used := fun name => (slotsUsed_update hused name).trans (hs.used name)

theorem SosInvariant.modifyJobSlots (hs : SosInvariant s) {qinstance : QueueInstance}
    (hqinstance : qinstance ∈ qinstances cluster) {newValue : ℕ}
    (hc : SosCondition s (.jobSlots qinstance newValue)) :
    SosInvariant (s.modifyJobSlots qinstance newValue) := by
  rw [SosState.modifyJobSlots]
  split
  · exact hs
  · rename_i hreserved
    refine hs.updateQueue hqinstance ?_ rfl rfl
    rw [qinstanceFindSuspendedSubordinates, qinstanceFindSuspendedSubordinates]
    rcases hc with hc | hc | hc
    · exact absurd hc hreserved
    · rw [if_neg hc]
      exact if_neg hc
    · congr 1
      exact List.filter_congr hc

theorem SosInvariant.modifySuspendStates (hs : SosInvariant s) {qinstance : QueueInstance}
    (hqinstance : qinstance ∈ qinstances cluster) (manualSuspended calSuspended : Bool) :
    SosInvariant (s.modifySuspendStates qinstance manualSuspended calSuspended) :=
  hs.updateQueue hqinstance rfl rfl rfl

/-- The walk over subordinates does not depend on their other attributes. -/
theorem cqueueListXOnSubordinateSo_other {queues : String → QueueSlots} {delivered : String → Bool}
    {suspend : Bool} {l : List Subordinate}
    (hlocated : ∀ so ∈ l, ∃ queue, cqueueListLocateQinstance cluster so.name = some queue ∧
      queue.fullName = so.name) {name : String} (hname : ∀ so ∈ l, name ≠ so.name)
    (counters : String → SosCounter) :
    cqueueListXOnSubordinateSo cluster queues delivered suspend l counters name =
      counters name := by
  induction l generalizing counters with
  | nil => rfl
  | cons so l ih =>
      obtain ⟨queue, hqueue, hqueueName⟩ := hlocated so List.mem_cons_self
      have hfirst := @xOnSubordinate_other cluster queues delivered suspend _ _ _ hqueue hqueueName
        (hname so List.mem_cons_self) counters
      rw [cqueueListXOnSubordinateSo]
      split
      · rw [ih (fun so' hso' => hlocated so' (List.mem_cons_of_mem _ hso'))
          (fun so' hso' => hname so' (List.mem_cons_of_mem _ hso')), hfirst]
      · exact hfirst

theorem xOnSubordinate_snd_update {queues : String → QueueSlots} {delivered : String → Bool}
    {suspend : Bool} {name fullName : String} {queue : QueueInstance}
    (h : cqueueListLocateQinstance cluster name = some queue) (hname : queue.fullName = name)
    (newValue : SubordinateList) {counters counters' : String → SosCounter}
    (hcounter : counters' name = counters name) :
    (xOnSubordinate cluster (Function.update queues fullName
        ((queues fullName).withSubordinates newValue)) delivered suspend name counters').2 =
      (xOnSubordinate cluster queues delivered suspend name counters).2 := by
  rw [xOnSubordinate_snd h hname, xOnSubordinate_snd h hname, hcounter]
  by_cases hn : name = fullName
  · subst hn
    rw [Function.update_self]
    rfl
  · rw [Function.update_of_ne hn]

theorem counterBalance_modifySubordinateList {qinstance : QueueInstance}
    {newValue : SubordinateList} {delivered : String → Bool}
    (hc : SosCondition s (.subordinateList qinstance newValue delivered))
    (hchange : ¬ (s.queues qinstance.fullName).subordinateList = newValue) :
    counterBalance (s.modifySubordinateList qinstance newValue delivered).counters =
      counterBalance s.counters +
        (marks (qinstanceFindSuspendedSubordinates cluster qinstance
            ((s.queues qinstance.fullName).withSubordinates newValue)) -
          marks (qinstanceFindSuspendedSubordinates cluster qinstance
            (s.queues qinstance.fullName))) := by
  have hsub := lDiffListStr_sublist
    (qinstanceFindSuspendedSubordinates cluster qinstance
      ((s.queues qinstance.fullName).withSubordinates newValue))
    (qinstanceFindSuspendedSubordinates cluster qinstance (s.queues qinstance.fullName))
  have hdisjoint := lDiffListStr_disjoint
    (qinstanceFindSuspendedSubordinates cluster qinstance
      ((s.queues qinstance.fullName).withSubordinates newValue))
    (qinstanceFindSuspendedSubordinates cluster qinstance (s.queues qinstance.fullName))
  have hlocated1 := fun so hso => findSuspended_located (hsub.1.subset (a := so) hso)
  have hlocated2 := fun so hso => findSuspended_located (hsub.2.subset (a := so) hso)
  obtain ⟨hunsuspend, hsuspend⟩ := hc
  rw [SosState.modifySubordinateList, if_neg hchange]
  simp only [subordinateChanges] at hunsuspend hsuspend ⊢
  rw [counterBalance_cqueueListXOnSubordinateSo
      ((findSuspended_nodup _ _).sublist (hsub.1.map _)) hlocated1,
    counterBalance_cqueueListXOnSubordinateSo
      ((findSuspended_nodup _ _).sublist (hsub.2.map _)) hlocated2, add_assoc]
  · rw [← marks_lDiffListStr]
    simp only [sosSign, Bool.false_eq_true, if_false, if_true, one_smul, neg_smul]
    abel
  · intro so hso
    obtain ⟨queue, hqueue, hname⟩ := hlocated2 so (List.mem_of_mem_dropLast hso)
    rw [xOnSubordinate_snd_update hqueue hname newValue rfl]
    exact hunsuspend so hso
  · intro so hso
    have hmem := List.mem_of_mem_dropLast hso
    obtain ⟨queue, hqueue, hname⟩ := hlocated1 so hmem
    rw [xOnSubordinate_snd_update hqueue hname newValue
      (cqueueListXOnSubordinateSo_other hlocated2 (hdisjoint so hmem) s.counters)]
    exact hsuspend so hso

theorem SosInvariant.modifySubordinateList (hs : SosInvariant s) {qinstance : QueueInstance}
    (hqinstance : qinstance ∈ qinstances cluster) {newValue : SubordinateList}
    (hself : NotItself qinstance newValue) {delivered : String → Bool}
    (hc : SosCondition s (.subordinateList qinstance newValue delivered)) :
    SosInvariant (s.modifySubordinateList qinstance newValue delivered) := by
  by_cases hchange : (s.queues qinstance.fullName).subordinateList = newValue
  · rw [SosState.modifySubordinateList, if_pos hchange]
    exact hs
  · have hbalance := counterBalance_modifySubordinateList hc hchange
    have hsum := sum_map_change (@nodup_fullNames cluster)
      (List.mem_map_of_mem hqinstance) (f := suspendedBy cluster s.queues)
      (g := suspendedBy cluster (Function.update s.queues qinstance.fullName
        ((s.queues qinstance.fullName).withSubordinates newValue))) (by
          intro name _ hname
          simp only [suspendedBy, Function.update_of_ne hname])
    simp only [suspendedBy, locate_of_mem hqinstance, Function.update_self] at hsum
    have hqueues : (s.modifySubordinateList qinstance newValue delivered).queues =
        Function.update s.queues qinstance.fullName
          ((s.queues qinstance.fullName).withSubordinates newValue) := by
      rw [SosState.modifySubordinateList, if_neg hchange]
    constructor
    · intro name hname
      rw [hbalance, hqueues, Pi.add_apply, hs.counters name hname]
      exact (congrFun hsum name).symm
    · rw [hqueues]
      exact notItself_update hs.notItself hself
    · intro name
      rw [hqueues, SosState.modifySubordinateList, if_neg hchange]
      exact (slotsUsed_update (q := (s.queues qinstance.fullName).withSubordinates newValue) rfl
        name).trans (hs.used name)

/-- Steps that meet the condition. -/
def SosConditionStep (s : SosState cluster) (e : SosEvent cluster) (s' : SosState cluster) : Prop :=
  SosStep s e s' ∧ SosCondition s e

theorem SosInvariant.step {e : SosEvent cluster} (hs : SosInvariant s)
    (h : SosConditionStep s e s') : SosInvariant s' := by
  obtain ⟨hstep, hc⟩ := h
  cases hstep with
  | start gdil delivered => exact hs.start gdil delivered
  | finish delivered hi => exact hs.finish hi delivered
  | jobSlots newValue hqinstance => exact hs.modifyJobSlots hqinstance hc
  | subordinateList delivered hqinstance hself =>
      exact hs.modifySubordinateList hqinstance hself hc
  | suspendStates manualSuspended calSuspended hqinstance =>
      exact hs.modifySuspendStates hqinstance manualSuspended calSuspended

/-- The counter of every queue instance is the number of queue instances that suspend it. -/
def CountersRight (s : SosState cluster) : Prop :=
  ∀ queue ∈ qinstances cluster,
    (s.counters queue.fullName).suspendedOnSubordinate.toNat =
      sosCount cluster s.queues queue.fullName

/-- A state to start from: the counters are right, no queue instance is its own subordinate, and
the used slots are those of the running tasks. -/
structure SosStart (s : SosState cluster) : Prop where
  countersRight : CountersRight s
  notItself : ∀ queue ∈ qinstances cluster,
    NotItself queue (s.queues queue.fullName).subordinateList
  used : ∀ name, (s.queues name).slotsUsed =
    (s.running.map fun gdil => grantedSlots gdil.list name).sum

theorem sosCount_lt (queues : String → QueueSlots) (name : String) :
    sosCount cluster queues name < 2 ^ 32 := by
  apply Nat.lt_of_le_of_lt List.countP_le_length
  rw [fullNames, List.length_map]
  exact cluster.qinstanceCount

theorem SosInvariant.countersRight (hs : SosInvariant s) : CountersRight s := by
  intro queue hqueue
  have hcount := hs.counters queue.fullName (List.mem_map_of_mem hqueue)
  rw [sum_suspendedBy] at hcount
  have htoNat := congrArg BitVec.toNat hcount
  rw [BitVec.natCast_eq_ofNat, BitVec.toNat_ofNat, Nat.mod_eq_of_lt (sosCount_lt _ _)] at htoNat
  exact htoNat

theorem SosStart.invariant (hs : SosStart s) : SosInvariant s where
  counters := by
    intro name hname
    obtain ⟨queue, hqueue, rfl⟩ := List.mem_map.mp hname
    rw [sum_suspendedBy, ← hs.countersRight queue hqueue]
    apply BitVec.eq_of_toNat_eq
    rw [BitVec.natCast_eq_ofNat, BitVec.toNat_ofNat, Nat.mod_eq_of_lt (BitVec.isLt _)]
    rfl
  notItself := hs.notItself
  used := hs.used

/-- In every run whose changes of slot counts move no threshold and whose changes of subordinate
lists are not cut short, the counters are right in every state. -/
theorem suspendCounters_right {s₀ : SosState cluster} {hist : List (SosEvent cluster)}
    (h₀ : SosStart s₀) (h : Run SosConditionStep s₀ hist s) : CountersRight s :=
  (h.invariant (P := fun _ => SosInvariant) h₀.invariant fun _ _ _ _ => SosInvariant.step).countersRight

end Runs

section Example

theorem h1_simple : (sgeIsPattern "h1" || isHgroupName "h1") = false := by decide

def highQueue : QueueInstance :=
  ⟨⟨"h1", h1_simple⟩, "high@h1", 2, [⟨"slots", 2, "2"⟩], by decide⟩

/-- Two cluster queues at one host. -/
def highLowCluster : ClusterConfig where
  fnmatch a b := a = b
  qrefListHostRejected a b := a ≠ b
  sgeHostcpy h := h
  usersets := []
  parseUlongVal _ := none
  centryList := []
  exechostList := []
  cqueueList := [{
      name := "high"
      qinstances := [highQueue]
      plain := by decide
      fullNames := by decide }, {
      name := "low"
      qinstances := [⟨⟨"h1", h1_simple⟩, "low@h1", 1, [⟨"slots", 1, "1"⟩], by decide⟩]
      plain := by decide
      fullNames := by decide }]
  arList := []
  rqsList := []
  cqueueNames := by decide
  qinstanceHosts := by decide
  qinstanceCount := by decide

/-- The queue instance of `high`, with two slots, suspends the one of `low` when it is full. -/
def highLowStart : SosState highLowCluster where
  queues name :=
    if name = "high@h1" then ⟨2, 0, 0, ⟨[⟨"low", 0, 0, 0, 0⟩], by decide⟩, false, false⟩
    else ⟨1, 0, 0, ⟨[], by decide⟩, false, false⟩
  counters _ := ⟨0, false⟩
  running := []

def slotsInHigh (slots : ℕ) : GrantedList highLowCluster :=
  ⟨[⟨"high@h1", highQueue.qhostname, slots⟩], List.nodup_singleton _, by
    intro ep hep
    rw [List.mem_singleton.mp hep]
    exact ⟨highQueue, @locate_of_mem _ highQueue List.mem_cons_self, rfl, rfl⟩⟩

instance (s : SosState highLowCluster) : Decidable (CountersRight s) :=
  inferInstanceAs (Decidable (∀ queue ∈ qinstances highLowCluster, _))

theorem highLowStart_start : SosStart highLowStart where
  countersRight := by decide +kernel
  notItself := by
    have hlists : ∀ queue ∈ qinstances highLowCluster,
        ∀ so ∈ (highLowStart.queues queue.fullName).subordinateList.list,
          so.name ≠ (cqueueNameSplit queue.fullName).1 := by decide +kernel
    exact hlists
  used _ := by
    simp only [highLowStart]
    split <;> rfl

/-- A job fills the queue instance and ends. -/
theorem fullQueue_countersRight :
    (((highLowStart.start (slotsInHigh 2) fun _ => true).counters
      "low@h1").suspendedOnSubordinate = 1) ∧
    CountersRight ((highLowStart.start (slotsInHigh 2) fun _ => true).finish 0 (slotsInHigh 2)
      fun _ => true) :=
  ⟨by decide +kernel, suspendCounters_right highLowStart_start
    (.snoc (.snoc .nil ⟨.start (slotsInHigh 2) fun _ => true, trivial⟩)
      ⟨.finish (fun _ => true) rfl, trivial⟩)⟩

/-- A job with one slot starts, the slot count is reduced to one, and the job ends: the counter of
the subordinate underflows. -/
theorem slotChange_underflow :
    ¬ ∀ (s₀ s : SosState highLowCluster) (hist : List (SosEvent highLowCluster)),
      SosStart s₀ → Run SosStep s₀ hist s → CountersRight s := by
  intro h
  have hmem : highQueue ∈ qinstances highLowCluster := List.mem_cons_self
  have hright := h _ _ _ highLowStart_start
    (.snoc (.snoc (.snoc .nil (.start (slotsInHigh 1) fun _ => true)) (.jobSlots 1 hmem))
      (@SosStep.finish _ _ 0 (slotsInHigh 1) (fun _ => true) rfl))
  revert hright
  decide +kernel

end Example

end GridEngine
