import GridEngine.UsageBooks

/-!
# The history of the usage

A pass of a scheduling run sums up some tasks of one job. The history remembers the tasks that were
ever seen, their usage when they were last seen, and which of them have been handled as finished.
-/

namespace GridEngine
open Ledger

/-- What is summed up at once: the finished tasks of a job with the ones still running, or a part
of the job that is not finished. -/
inductive UsagePass where
  | finished (job : UsageJob) (runningPart : Option UsageJob)
  | current (job : UsageJob)

namespace UsagePass

def job : UsagePass → UsageJob
  | finished job _ => job
  | current job => job

/-- The tasks that are handled as finished. -/
def done : UsagePass → List UsageTask
  | finished job _ => job.jaTasks
  | current _ => []

/-- The other tasks. -/
def left : UsagePass → List UsageTask
  | finished _ (some running) => running.jaTasks
  | finished _ none => []
  | current job => job.jaTasks

def tasks (pass : UsagePass) : List UsageTask := pass.done ++ pass.left

/-- What the pass does to the users and projects. -/
def run (lists : UserPrjLists) : UsagePass → UserPrjLists
  | finished job (some running) => decayAndSumUsage lists ⟨job, some 0⟩ (some running)
  | finished job none => (decayAndSumUsage lists ⟨job, some 0⟩ none).deleteDebitedJobUsage job
  | current job => decayAndSumUsage lists ⟨job, some 0⟩ none

/-- The job numbers and task numbers of some tasks of the job. -/
def keys (pass : UsagePass) (tasks : List UsageTask) : Finset (ℕ × ℕ) :=
  (tasks.map fun t => (pass.job.jobNumber, t.taskNumber)).toFinset

end UsagePass

/-- The pass over a part of a job that is not finished: it takes place if its first task has a
reference. -/
def currentPass? (limit : ℕ) (job : UsageJob) : Option UsagePass :=
  match job.jaTasks with
  | [] => none
  | jaTask :: _ => if 0 < limit ∧ jobIsActive jaTask then some (.current job) else none

/-- The passes of a scheduling run. -/
def SchedulingRun.passes (run : SchedulingRun) : List UsagePass :=
  (run.finishedJobs.map fun job => .finished job.setFinished (run.runningJob? job)) ++
    (run.runningJobs.filterMap (fun job => currentPass? job.jaTasks.length job) ++
      run.queuedJobs.filterMap (currentPass? run.maxPending))

/-- The tasks ever seen, their usage when last seen, and the tasks handled as finished. -/
structure UsageHistory where
  seen : Finset (ℕ × ℕ)
  last : ℕ × ℕ → String → ℚ
  settled : Finset (ℕ × ℕ)

namespace UsageHistory

def see (h : UsageHistory) (pass : UsagePass) : UsageHistory where
  seen := h.seen ∪ pass.keys pass.tasks
  last x a :=
    match pass.tasks.find? fun t => (pass.job.jobNumber, t.taskNumber) = x with
    | some t => t.usage a
    | none => h.last x a
  settled := h.settled ∪ pass.keys pass.done

/-- The usage of the tasks of certain jobs, each as it was last seen. -/
def total (h : UsageHistory) (jobs : ℕ → Bool) (a : String) : ℚ :=
  ∑ x ∈ h.seen with jobs x.1, h.last x a

/-- The usage of the tasks of a job that have not been handled as finished. -/
def unsettled (h : UsageHistory) (jobNumber : ℕ) (a : String) : ℚ :=
  ∑ x ∈ h.seen with x.1 = jobNumber ∧ x ∉ h.settled, h.last x a

/-- The tasks of a pass are different ones, and no usage decreases. -/
structure Admits (h : UsageHistory) (pass : UsagePass) : Prop where
  nodup : (pass.tasks.map fun t => t.taskNumber).Nodup
  grows : ∀ t ∈ pass.tasks, ∀ a, h.last (pass.job.jobNumber, t.taskNumber) a ≤ t.usage a

/-- A pass sums up all tasks of its job that have usage and have not been handled as finished, and
no task that has. -/
structure Covers (h : UsageHistory) (pass : UsagePass) : Prop where
  fresh : ∀ t ∈ pass.tasks, (pass.job.jobNumber, t.taskNumber) ∉ h.settled
  complete : ∀ x ∈ h.seen, x.1 = pass.job.jobNumber → x ∉ h.settled → (∃ a, h.last x a ≠ 0) →
    x ∈ pass.keys pass.tasks

/-- What holds of every pass, with the history up to it. -/
def Along (P : UsageHistory → UsagePass → Prop) : UsageHistory → List UsagePass → Prop
  | _, [] => True
  | h, pass :: passes => P h pass ∧ Along P (h.see pass) passes

variable {h : UsageHistory} {pass : UsagePass} {x : ℕ × ℕ} {a : String} {jobs : ℕ → Bool}

/-- Tasks that were never seen have no usage, and no task has usage below zero. -/
structure Sound (h : UsageHistory) : Prop where
  unseen : ∀ x ∉ h.seen, ∀ a, h.last x a = 0
  nonneg : ∀ x a, 0 ≤ h.last x a

theorem mem_keys {tasks : List UsageTask} : x ∈ pass.keys tasks ↔
    ∃ t ∈ tasks, (pass.job.jobNumber, t.taskNumber) = x := by
  rw [UsagePass.keys, List.mem_toFinset, List.mem_map]

theorem key_injective (hadmits : h.Admits pass) {t t' : UsageTask} (ht : t ∈ pass.tasks)
    (ht' : t' ∈ pass.tasks) (heq : t.taskNumber = t'.taskNumber) : t = t' :=
  List.inj_on_of_nodup_map hadmits.nodup ht ht' heq

theorem last_see_mem (hadmits : h.Admits pass) {t : UsageTask} (ht : t ∈ pass.tasks) :
    (h.see pass).last (pass.job.jobNumber, t.taskNumber) a = t.usage a := by
  rw [see]
  dsimp only
  split
  · rename_i t' hfind
    have hname := List.find?_some hfind
    simp only [Prod.mk.injEq, true_and, decide_eq_true_eq] at hname
    rw [key_injective hadmits (List.mem_of_find?_eq_some hfind) ht hname]
  · rename_i hfind
    have hnone := List.find?_eq_none.mp hfind t ht
    simp at hnone

theorem last_see_notMem (hx : x ∉ pass.keys pass.tasks) :
    (h.see pass).last x a = h.last x a := by
  rw [see]
  dsimp only
  split
  · rename_i t hfind
    have hname := List.find?_some hfind
    exact absurd (mem_keys.mpr ⟨t, List.mem_of_find?_eq_some hfind, by simpa using hname⟩) hx
  · rfl

theorem Sound.see (hsound : h.Sound) (hadmits : h.Admits pass) : (h.see pass).Sound := by
  constructor
  · intro x hx a
    rw [UsageHistory.see, Finset.notMem_union] at hx
    rw [last_see_notMem hx.2]
    exact hsound.unseen x hx.1 a
  · intro x a
    by_cases hx : x ∈ pass.keys pass.tasks
    · obtain ⟨t, ht, rfl⟩ := mem_keys.mp hx
      rw [last_see_mem hadmits ht]
      exact (hsound.nonneg _ a).trans (hadmits.grows t ht a)
    · rw [last_see_notMem hx]
      exact hsound.nonneg x a

theorem sum_keys (hadmits : h.Admits pass) {tasks : List UsageTask}
    (hsub : tasks.Sublist pass.tasks) (f : ℕ × ℕ → ℚ) : ∑ x ∈ pass.keys tasks, f x =
      (tasks.map fun t => f (pass.job.jobNumber, t.taskNumber)).sum := by
  have hnodup : (tasks.map fun t => (pass.job.jobNumber, t.taskNumber)).Nodup := by
    have h := (hadmits.nodup.sublist (hsub.map _)).map (f := fun n => (pass.job.jobNumber, n))
      (Prod.mk_right_injective _)
    rwa [List.map_map] at h
  rw [UsagePass.keys, List.sum_toFinset _ hnodup, List.map_map]
  rfl

theorem sum_keys_last (hadmits : h.Admits pass) {tasks : List UsageTask}
    (hsub : tasks.Sublist pass.tasks) :
    ∑ x ∈ pass.keys tasks, (h.see pass).last x a = tasksUsage tasks a := by
  rw [sum_keys hadmits hsub, tasksUsage]
  congr 1
  exact List.map_congr_left fun t ht => last_see_mem hadmits (hsub.subset ht)

theorem total_see (hsound : h.Sound) (hadmits : h.Admits pass) :
    (h.see pass).total jobs a = h.total jobs a +
      if jobs pass.job.jobNumber then
        tasksUsage pass.tasks a - ∑ x ∈ pass.keys pass.tasks, h.last x a else 0 := by
  have hold : ∑ x ∈ h.seen ∪ pass.keys pass.tasks with jobs x.1, h.last x a = h.total jobs a := by
    symm
    apply Finset.sum_subset (Finset.filter_subset_filter _ Finset.subset_union_left)
    intro x hx hnot
    apply hsound.unseen
    intro hseen
    exact hnot (Finset.mem_filter.mpr ⟨hseen, (Finset.mem_filter.mp hx).2⟩)
  have hnew : ∑ x ∈ h.seen ∪ pass.keys pass.tasks with jobs x.1,
      ((h.see pass).last x a - h.last x a) =
      ∑ x ∈ pass.keys pass.tasks with jobs x.1, ((h.see pass).last x a - h.last x a) := by
    symm
    apply Finset.sum_subset (Finset.filter_subset_filter _ Finset.subset_union_right)
    intro x hx hnot
    rw [last_see_notMem, sub_self]
    intro hkey
    exact hnot (Finset.mem_filter.mpr ⟨hkey, (Finset.mem_filter.mp hx).2⟩)
  have hpart : ∑ x ∈ pass.keys pass.tasks with jobs x.1, ((h.see pass).last x a - h.last x a) =
      if jobs pass.job.jobNumber then
        tasksUsage pass.tasks a - ∑ x ∈ pass.keys pass.tasks, h.last x a else 0 := by
    rw [Finset.sum_filter]
    have hjob : ∀ x ∈ pass.keys pass.tasks, x.1 = pass.job.jobNumber := by
      intro x hx
      obtain ⟨t, -, rfl⟩ := mem_keys.mp hx
      rfl
    rw [Finset.sum_congr rfl fun x hx => by rw [hjob x hx]]
    split_ifs
    · rw [Finset.sum_sub_distrib, sum_keys_last hadmits (List.Sublist.refl _)]
    · exact Finset.sum_const_zero
  rw [← hpart, ← hnew, Finset.sum_sub_distrib, hold]
  exact (add_sub_cancel _ _).symm

/-- Before a pass, its tasks have all the usage of the job that is not settled. -/
theorem unsettled_eq (hsound : h.Sound) (hcovers : h.Covers pass) :
    h.unsettled pass.job.jobNumber a = ∑ x ∈ pass.keys pass.tasks, h.last x a := by
  have hboth : h.unsettled pass.job.jobNumber a =
      ∑ x ∈ pass.keys pass.tasks with x ∈ h.seen, h.last x a := by
    symm
    apply Finset.sum_subset
    · intro x hx
      obtain ⟨hkey, hseen⟩ := Finset.mem_filter.mp hx
      obtain ⟨t, ht, rfl⟩ := mem_keys.mp hkey
      exact Finset.mem_filter.mpr ⟨hseen, rfl, hcovers.fresh t ht⟩
    · intro x hx hnot
      obtain ⟨hseen, hjob, hsettled⟩ := Finset.mem_filter.mp hx
      by_contra hne
      exact hnot (Finset.mem_filter.mpr
        ⟨hcovers.complete x hseen hjob hsettled ⟨a, hne⟩, hseen⟩)
  rw [hboth]
  apply Finset.sum_subset (Finset.filter_subset _ _)
  intro x hx hnot
  exact hsound.unseen x (fun hseen => hnot (Finset.mem_filter.mpr ⟨hx, hseen⟩)) a

/-- After a pass, the tasks it left have all the usage of the job that is not settled. -/
theorem unsettled_see (hadmits : h.Admits pass) (hcovers : h.Covers pass) :
    (h.see pass).unsettled pass.job.jobNumber a = tasksUsage pass.left a := by
  have hsub : pass.left.Sublist pass.tasks := List.sublist_append_right _ _
  rw [← sum_keys_last hadmits hsub, unsettled]
  symm
  apply Finset.sum_subset
  · intro x hx
    obtain ⟨t, ht, rfl⟩ := mem_keys.mp hx
    have hmem := hsub.subset ht
    refine Finset.mem_filter.mpr ⟨Finset.mem_union_right _ (mem_keys.mpr ⟨t, hmem, rfl⟩), rfl, ?_⟩
    rw [UsageHistory.see, Finset.notMem_union]
    refine ⟨hcovers.fresh t hmem, fun hdone => ?_⟩
    obtain ⟨t', ht', heq⟩ := mem_keys.mp hdone
    have hnodup := hadmits.nodup
    rw [UsagePass.tasks, List.map_append] at hnodup
    exact (List.disjoint_of_nodup_append hnodup) (List.mem_map.mpr ⟨t', ht', rfl⟩)
      (List.mem_map.mpr ⟨t, ht, (Prod.mk.inj heq).2.symm⟩)
  · intro x hx hnot
    obtain ⟨hseen, hjob, hsettled⟩ := Finset.mem_filter.mp hx
    rw [UsageHistory.see, Finset.notMem_union] at hsettled
    have hkey : x ∉ pass.keys pass.tasks := by
      intro hkey
      obtain ⟨t, ht, rfl⟩ := mem_keys.mp hkey
      rcases List.mem_append.mp ht with ht | ht
      · exact hsettled.2 (mem_keys.mpr ⟨t, ht, rfl⟩)
      · exact hnot (mem_keys.mpr ⟨t, ht, rfl⟩)
    rw [last_see_notMem hkey]
    by_contra hne
    rcases Finset.mem_union.mp hseen with hseen | hin
    · exact hkey (hcovers.complete x hseen hjob hsettled.1 ⟨a, hne⟩)
    · exact hkey hin

theorem unsettled_see_other {jobNumber : ℕ} (hne : jobNumber ≠ pass.job.jobNumber) :
    (h.see pass).unsettled jobNumber a = h.unsettled jobNumber a := by
  have hkey : ∀ x : ℕ × ℕ, x.1 = jobNumber → ∀ tasks, x ∉ pass.keys tasks := by
    intro x hx tasks hmem
    obtain ⟨t, -, rfl⟩ := mem_keys.mp hmem
    exact hne hx.symm
  rw [unsettled, unsettled]
  apply Finset.sum_congr
  · ext x
    simp only [UsageHistory.see, Finset.mem_filter, Finset.mem_union]
    constructor
    · rintro ⟨hseen, hjob, hsettled⟩
      exact ⟨hseen.resolve_right (hkey x hjob _), hjob, fun hs => hsettled (.inl hs)⟩
    · rintro ⟨hseen, hjob, hsettled⟩
      exact ⟨.inl hseen, hjob, fun hs => hs.elim hsettled (hkey x hjob _)⟩
  · intro x hx
    exact last_see_notMem (hkey x (Finset.mem_filter.mp hx).2.1 _)

end UsageHistory
end GridEngine
