import GridEngine.SubordinateQueues

/-!
# Suspend counters

The counter of a queue instance is the number of queue instances that suspend it. Job starts, job
ends and changes of the list of subordinates keep it so, when all signals are delivered. A change of
the number of slots does not touch the counters, so it must not move a threshold.
-/

namespace GridEngine
open Ledger Machine

variable {cluster : ClusterConfig}

section Resolving

theorem mem_qinstances {queue : QueueInstance} :
    queue ∈ qinstances cluster ↔ ∃ cqueue ∈ cluster.cqueueList, queue ∈ cqueue.qinstances :=
  List.mem_flatMap

theorem locate_of_mem {queue : QueueInstance} (h : queue ∈ qinstances cluster) :
    cqueueListLocateQinstance cluster queue.fullName = some queue := by
  obtain ⟨cqueue, hcqueue, hqueue⟩ := mem_qinstances.mp h
  exact cqueueListLocateQinstance_fullName hcqueue hqueue

theorem mem_of_locate {name : String} {queue : QueueInstance}
    (h : cqueueListLocateQinstance cluster name = some queue) : queue ∈ qinstances cluster := by
  rw [cqueueListLocateQinstance] at h
  cases hcq : cluster.cqueueList.find? fun cqueue => cqueue.name = (cqueueNameSplit name).1 with
  | none => simp only [hcq, reduceCtorEq] at h
  | some cqueue =>
      simp only [hcq] at h
      exact mem_qinstances.mpr ⟨cqueue, List.mem_of_find?_eq_some hcq, List.mem_of_find?_eq_some h⟩

theorem cqueueLocateQinstance_spec {cqueueName hostname : String} {queue : QueueInstance}
    (h : cqueueLocateQinstance cluster cqueueName hostname = some queue) :
    queue ∈ qinstances cluster ∧ (cqueueNameSplit queue.fullName).1 = cqueueName := by
  rw [cqueueLocateQinstance] at h
  cases hcq : cluster.cqueueList.find? fun cqueue => cqueue.name = cqueueName with
  | none => simp only [hcq, reduceCtorEq] at h
  | some cqueue =>
      simp only [hcq] at h
      have hmem := List.mem_of_find?_eq_some hcq
      have hqueue := List.mem_of_find?_eq_some h
      have hname : cqueue.name = cqueueName := by simpa using List.find?_some hcq
      rw [cqueue.fullNames queue hqueue, cqueueNameSplit_fullName cqueue.plain]
      exact ⟨mem_qinstances.mpr ⟨cqueue, hmem, hqueue⟩, hname⟩

theorem names_soListAdd (l : List Subordinate) (so : Subordinate) :
    (soListAdd l so).map Subordinate.name =
      if so.name ∈ l.map Subordinate.name then l.map Subordinate.name
      else l.map Subordinate.name ++ [so.name] := by
  induction l with
  | nil => simp [soListAdd]
  | cons elem l ih =>
      rw [soListAdd]
      by_cases h : elem.name = so.name
      · simp [h, Subordinate.replace]
      · have h' : so.name ≠ elem.name := fun e => h e.symm
        rw [if_neg h, List.map_cons, ih, List.map_cons]
        simp only [List.mem_cons, h', false_or]
        split <;> rfl

/-- A resolved list names every queue instance once, and every name is the one of the instance of a
cluster queue that is subordinated. -/
theorem soListResolve_spec (soList : List Subordinate) (hostname : String) :
    ((soListResolve cluster soList hostname).map Subordinate.name).Nodup ∧
      ∀ name ∈ (soListResolve cluster soList hostname).map Subordinate.name, ∃ so ∈ soList,
        ∃ queue, cqueueLocateQinstance cluster so.name hostname = some queue ∧
          queue.fullName = name := by
  induction soList using List.reverseRecOn with
  | nil => simp [soListResolve]
  | append_singleton soList so ih =>
      obtain ⟨hnodup, hmem⟩ := ih
      have hold : ∀ name ∈ (soListResolve cluster soList hostname).map Subordinate.name,
          ∃ so' ∈ soList ++ [so], ∃ queue,
            cqueueLocateQinstance cluster so'.name hostname = some queue ∧
              queue.fullName = name := by
        intro name hname
        obtain ⟨so', hso', hrest⟩ := hmem name hname
        exact ⟨so', List.mem_append_left _ hso', hrest⟩
      simp only [soListResolve, List.foldl_append, List.foldl_cons, List.foldl_nil] at *
      cases hlocate : cqueueLocateQinstance cluster so.name hostname with
      | none => exact ⟨hnodup, hold⟩
      | some queue =>
          dsimp only
          rw [names_soListAdd]
          split
          · exact ⟨hnodup, hold⟩
          · rename_i hnew
            refine ⟨hnodup.append (List.nodup_singleton _) (by simpa using hnew), ?_⟩
            intro name hname
            rcases List.mem_append.mp hname with hname | hname
            · exact hold name hname
            · rw [List.mem_singleton] at hname
              exact ⟨so, List.mem_append_right _ List.mem_cons_self, queue, hlocate, hname.symm⟩

theorem soListResolve_located {soList : List Subordinate} {hostname : String} {so : Subordinate}
    (h : so ∈ soListResolve cluster soList hostname) :
    ∃ queue, cqueueListLocateQinstance cluster so.name = some queue ∧ queue.fullName = so.name := by
  obtain ⟨_, _, queue, hqueue, hname⟩ :=
    (soListResolve_spec soList hostname).2 so.name (List.mem_map_of_mem h)
  exact ⟨queue, hname ▸ locate_of_mem (cqueueLocateQinstance_spec hqueue).1, hname⟩

theorem soListResolve_notItself {qinstance : QueueInstance} {soList : SubordinateList}
    (hself : NotItself qinstance soList) {hostname : String} {so : Subordinate}
    (h : so ∈ soListResolve cluster soList.list hostname) : qinstance.fullName ≠ so.name := by
  obtain ⟨so', hso', queue, hqueue, hname⟩ :=
    (soListResolve_spec soList.list hostname).2 so.name (List.mem_map_of_mem h)
  intro he
  apply hself so' hso'
  rw [he, ← hname, (cqueueLocateQinstance_spec hqueue).2]

end Resolving

section Counting

/-- The counters as words. -/
def counterBalance (counters : String → SosCounter) : String → BitVec 32 :=
  balances SosCounter.suspendedOnSubordinate counters

/-- What suspending or unsuspending adds to a counter. -/
def sosSign (suspend : Bool) : BitVec 32 := if suspend then 1 else -1

theorem posts_qinstanceXOnSubordinate (q : QueueSlots) (delivered suspend : Bool) :
    Posts SosCounter.suspendedOnSubordinate
      (fun c => (qinstanceXOnSubordinate q delivered suspend c).1) (sosSign suspend) := by
  intro c
  have hcounter : (qinstanceXOnSubordinate q delivered suspend c).1.suspendedOnSubordinate =
      if suspend then c.suspendedOnSubordinate + 1 else c.suspendedOnSubordinate - 1 := by
    cases suspend with
    | true =>
        simp only [qinstanceXOnSubordinate, if_true]
        split <;> rfl
    | false =>
        simp only [qinstanceXOnSubordinate, Bool.false_eq_true, if_false]
        split <;> rfl
  rw [hcounter, sosSign]
  cases suspend with
  | true => rfl
  | false => exact sub_eq_add_neg _ _

variable {queues : String → QueueSlots} {delivered : String → Bool} {suspend : Bool}

theorem posts_xOnSubordinate {name : String} {queue : QueueInstance}
    (h : cqueueListLocateQinstance cluster name = some queue) (hname : queue.fullName = name) :
    Posts counterBalance
      (fun counters => (xOnSubordinate cluster queues delivered suspend name counters).1)
      (Pi.single name (sosSign suspend)) := by
  intro counters
  simp only [xOnSubordinate, h, hname]
  exact (posts_qinstanceXOnSubordinate _ _ _).update name counters

theorem xOnSubordinate_other {name other : String} {queue : QueueInstance}
    (h : cqueueListLocateQinstance cluster name = some queue) (hname : queue.fullName = name)
    (hne : other ≠ name) (counters : String → SosCounter) :
    (xOnSubordinate cluster queues delivered suspend name counters).1 other = counters other := by
  simp only [xOnSubordinate, h, hname]
  exact Function.update_of_ne hne _ _

/-- One for each subordinate of the list. -/
def marks (l : List Subordinate) : String → BitVec 32 :=
  (l.map fun so => Pi.single so.name 1).sum

theorem marks_cons (so : Subordinate) (l : List Subordinate) :
    marks (so :: l) = Pi.single so.name 1 + marks l := by
  rw [marks, List.map_cons, List.sum_cons]
  rfl

theorem marks_apply {l : List Subordinate} (h : (l.map Subordinate.name).Nodup) (name : String) :
    marks l name = if name ∈ l.map Subordinate.name then 1 else 0 := by
  induction l with
  | nil => rfl
  | cons so l ih =>
      obtain ⟨hso, hl⟩ := List.nodup_cons.mp h
      rw [marks_cons, Pi.add_apply, ih hl, List.map_cons]
      by_cases hname : name = so.name
      · rw [hname, Pi.single_eq_same, if_neg hso, if_pos List.mem_cons_self, add_zero]
      · rw [Pi.single_eq_of_ne hname, zero_add]
        simp only [List.mem_cons, hname, false_or]

theorem marks_eraseP {l : List Subordinate} {so : Subordinate}
    (h : l.any fun so' => so'.name = so.name) :
    marks l = Pi.single so.name 1 + marks (l.eraseP fun so' => so'.name = so.name) := by
  induction l with
  | nil => cases h
  | cons elem l ih =>
      by_cases he : elem.name = so.name
      · rw [List.eraseP_cons_of_pos (by simpa using he), marks_cons, he]
      · rw [List.eraseP_cons_of_neg (by simpa using he), marks_cons, marks_cons,
          ih (by simpa [he] using h)]
        abel

theorem marks_lDiffListStr (l1 l2 : List Subordinate) :
    marks (lDiffListStr l1 l2).1 - marks (lDiffListStr l1 l2).2 = marks l1 - marks l2 := by
  induction l1 generalizing l2 with
  | nil => rfl
  | cons ep l1 ih =>
      rw [lDiffListStr]
      split
      · rename_i h
        rw [ih, marks_cons, marks_eraseP h]
        abel
      · rw [marks_cons, marks_cons, add_sub_assoc, ih, add_sub_assoc]

theorem lDiffListStr_sublist (l1 l2 : List Subordinate) :
    ((lDiffListStr l1 l2).1.Sublist l1) ∧ ((lDiffListStr l1 l2).2.Sublist l2) := by
  induction l1 generalizing l2 with
  | nil => exact ⟨List.Sublist.refl _, List.Sublist.refl _⟩
  | cons ep l1 ih =>
      rw [lDiffListStr]
      split
      · exact ⟨(ih _).1.cons ep, (ih _).2.trans List.eraseP_sublist⟩
      · exact ⟨(ih l2).1.cons_cons ep, (ih l2).2⟩

theorem lDiffListStr_disjoint (l1 l2 : List Subordinate) :
    ∀ so ∈ (lDiffListStr l1 l2).1, ∀ so' ∈ (lDiffListStr l1 l2).2, so.name ≠ so'.name := by
  induction l1 generalizing l2 with
  | nil => simp [lDiffListStr]
  | cons ep l1 ih =>
      rw [lDiffListStr]
      split
      · exact ih _
      · rename_i h
        intro so hso so' hso' he
        rcases List.mem_cons.mp hso with rfl | hso
        · apply h
          rw [List.any_eq_true]
          exact ⟨so', (lDiffListStr_sublist l1 l2).2.subset hso', by simpa using he.symm⟩
        · exact ih l2 so hso so' hso' he

end Counting

end GridEngine
