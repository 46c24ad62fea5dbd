import GridEngine.UsageHistory
import GridEngine.Machine

/-!
# Scheduling runs and the usage of users and projects

A pass adds the difference between the usage of its tasks and the old usage of their job. If every
pass covers its job, the old usage is the usage of the tasks that are not settled, and what was
added so far is the usage of all tasks, each as it was last seen.
-/

namespace GridEngine
open Ledger

namespace UserPrjLists
variable {lists lists' lists'' : UserPrjLists} {job : UsageJob} {delta kept kept' : String → ℚ}

/-- The long term usage grows by `delta` where the job has its usage, and `kept` is the old usage
of the job from now on. -/
structure Debits (lists lists' : UserPrjLists) (job : UsageJob) (delta kept : String → ℚ) :
    Prop where
  same : SameObjects lists lists'
  user : ∀ u a, lists'.userUsage u a = lists.userUsage u a +
    if u = job.owner ∧ (lists.users u).isSome ∧ lists.projectName? job = none then delta a else 0
  entry : ∀ u p a, lists'.entryUsage u p a = lists.entryUsage u p a +
    if u = job.owner ∧ (lists.users u).isSome ∧ lists.projectName? job = some p then delta a else 0
  project : ∀ p a, lists'.projectUsage p a = lists.projectUsage p a +
    if lists.projectName? job = some p then delta a else 0
  old : lists.HasHolder job → ∀ a, lists'.oldUsage job a = kept a
  other : ∀ job', job'.jobNumber ≠ job.jobNumber → ∀ a,
    lists'.oldUsage job' a = lists.oldUsage job' a

theorem Debits.of_noHolder (h : ¬ lists.HasHolder job) : Debits lists lists job delta kept := by
  rw [HasHolder, not_or] at h
  refine ⟨SameObjects.refl lists, fun u a => ?_, fun u p a => ?_, fun p a => ?_,
    fun hholder => absurd hholder (not_or.mpr h), fun _ _ _ => rfl⟩
  · rw [if_neg, add_zero]
    rintro ⟨rfl, huser, -⟩
    exact h.1 huser
  · rw [if_neg, add_zero]
    rintro ⟨rfl, huser, -⟩
    exact h.1 huser
  · rw [if_neg, add_zero]
    intro hp
    exact h.2 (by rw [hp]; rfl)

theorem HasHolder.same (h : lists.HasHolder job) (hsame : SameObjects lists lists') :
    lists'.HasHolder job := by
  rw [HasHolder, hsame.1, hsame.projectName?]
  exact h

theorem debits_updateUserprjUsage {jobUsageList : UaList} {total : String → ℚ}
    (hold : ∀ a, 0 ≤ lists.oldUsage job a) (htotal : ∀ a, jobUsageList.amount a = total a) :
    Debits lists (lists.updateUserprjUsage job jobUsageList (lists.copyOrInitOldusage job)) job
      (fun a => max (total a - lists.oldUsage job a) 0) (lists.oldUsage job) := by
  have hlist : ∀ a, 0 ≤ (lists.copyOrInitOldusage job).amount a := by
    intro a
    rw [amount_copyOrInitOldusage]
    exact hold a
  refine ⟨sameObjects_updateUserprjUsage, fun u a => ?_, fun u p a => ?_, fun p a => ?_,
    fun _ a => oldUsage_updateUserprjUsage, fun _ _ a => oldUsage_updateUserprjUsage⟩
  · rw [userUsage_updateUserprjUsage (hlist a), amount_copyOrInitOldusage, htotal]
  · rw [entryUsage_updateUserprjUsage (hlist a), amount_copyOrInitOldusage, htotal]
  · rw [projectUsage_updateUserprjUsage (hlist a), amount_copyOrInitOldusage, htotal]

theorem Debits.keep (h : Debits lists lists' job delta kept) (hsame : SameObjects lists' lists'')
    (husage : SameUsage lists' lists'')
    (hold : lists.HasHolder job → ∀ a, lists''.oldUsage job a = kept' a)
    (hother : ∀ job', job'.jobNumber ≠ job.jobNumber → ∀ a,
      lists''.oldUsage job' a = lists'.oldUsage job' a) :
    Debits lists lists'' job delta kept' where
  same := h.same.trans hsame
  user u a := (husage u u a).1.trans (h.user u a)
  entry u p a := (husage u p a).2.1.trans (h.entry u p a)
  project p a := (husage p p a).2.2.trans (h.project p a)
  old := hold
  other job' hne a := (hother job' hne a).trans (h.other job' hne a)

theorem Debits.save (h : Debits lists lists' job delta kept) {usageList : UaList}
    (hholder : lists.HasHolder job) (hkept : ∀ a, usageList.amount a = kept' a) :
    Debits lists (lists'.saveOldusage job usageList) job delta kept' := by
  have hold : lists.HasHolder job → ∀ a,
      (lists'.saveOldusage job usageList).oldUsage job a = kept' a := by
    intro _ a
    rw [oldUsage_saveOldusage (hholder.same h.same), hkept]
  refine h.keep ?_ ?_ hold (fun job' hne a => ?_) <;> rw [saveOldusage] <;> split_ifs
  · exact sameObjects_modifyUser
  · exact sameObjects_modifyProject
  · exact sameUsage_modifyUser
  · exact sameUsage_modifyProject
  · exact oldUsage_modifyUser_other hne
  · exact oldUsage_modifyProject_other hne

theorem Debits.delete (h : Debits lists lists' job delta kept) :
    Debits lists (lists'.deleteDebitedJobUsage job) job delta (fun _ => 0) := by
  refine h.keep (sameObjects_modifyUser.trans sameObjects_modifyProject)
    (sameUsage_modifyUser.trans sameUsage_modifyProject)
    (fun _ a => oldUsage_deleteDebitedJobUsage) fun job' hne a => ?_
  rw [deleteDebitedJobUsage, oldUsage_modifyProject_other hne, oldUsage_modifyUser_other hne]

section Sums
variable {running : UsageJob} {a : String}

theorem amount_sumParts : (usageListSum (sumJobUsage job) (sumJobUsage running)).amount a =
    tasksUsage (job.jaTasks ++ running.jaTasks) a := by
  rw [amount_usageListSum, amount_sumJobUsage, amount_sumJobUsage, tasksUsage_append,
    ite_eq_left_iff.mpr]
  exact fun hcounted => (tasksUsage_uncounted hcounted).symm

theorem amount_subParts (hjob : ∀ a, 0 ≤ tasksUsage job.jaTasks a)
    (hrunning : ∀ a, 0 ≤ tasksUsage running.jaTasks a) :
    (usageListSub (usageListSum (sumJobUsage job) (sumJobUsage running))
      (sumJobUsage job)).amount a = tasksUsage running.jaTasks a := by
  rw [amount_usageListSub, amount_sumParts, amount_sumJobUsage, tasksUsage_append]
  · split_ifs with hcounted
    · rw [add_sub_cancel_left, max_eq_right (hrunning a)]
    · rw [tasksUsage_uncounted hcounted, zero_add]
  · rw [amount_sumParts, tasksUsage_append]
    exact add_nonneg (hjob a) (hrunning a)
  · intro c hc
    rw [← Counters.amount_of_mem hc, amount_sumJobUsage]
    exact hjob c.name

end Sums

section Decay
variable {running : UsageJob}

theorem decayAndSumUsage_of_noHolder (hholder : ¬ lists.HasHolder job)
    (runningPart : Option UsageJob) :
    decayAndSumUsage lists ⟨job, some 0⟩ runningPart = lists := by
  rw [HasHolder, not_or, Bool.not_eq_true, Bool.not_eq_true, Option.isSome_eq_false_iff,
    Option.isSome_eq_false_iff] at hholder
  simp only [decayAndSumUsage, if_pos hholder]

theorem not_isNone_of_holder (hholder : lists.HasHolder job) :
    ¬ ((lists.users job.owner).isNone ∧ (lists.projectName? job).isNone) := by
  rw [not_and_or, Bool.not_eq_true, Bool.not_eq_true, Option.isNone_eq_false_iff,
    Option.isNone_eq_false_iff]
  exact hholder

theorem debits_decayAndSumUsage (hold : ∀ a, 0 ≤ lists.oldUsage job a) :
    Debits lists (decayAndSumUsage lists ⟨job, some 0⟩ none) job
      (fun a => max (tasksUsage job.jaTasks a - lists.oldUsage job a) 0)
      (tasksUsage job.jaTasks) := by
  by_cases hholder : lists.HasHolder job
  · simp only [decayAndSumUsage, if_neg (not_isNone_of_holder hholder), ne_eq, not_true_eq_false,
      if_false]
    exact (debits_updateUserprjUsage hold fun a => amount_sumJobUsage job).save hholder
      fun a => amount_sumJobUsage job
  · rw [decayAndSumUsage_of_noHolder hholder]
    exact Debits.of_noHolder hholder

theorem debits_decayAndSumUsage_running (hold : ∀ a, 0 ≤ lists.oldUsage job a)
    (hjob : ∀ a, 0 ≤ tasksUsage job.jaTasks a) (hrunning : ∀ a, 0 ≤ tasksUsage running.jaTasks a) :
    Debits lists (decayAndSumUsage lists ⟨job, some 0⟩ (some running)) job
      (fun a => max (tasksUsage (job.jaTasks ++ running.jaTasks) a - lists.oldUsage job a) 0)
      (tasksUsage running.jaTasks) := by
  by_cases hholder : lists.HasHolder job
  · simp only [decayAndSumUsage, if_neg (not_isNone_of_holder hholder), ne_eq, not_true_eq_false,
      if_false]
    exact (debits_updateUserprjUsage hold fun a => amount_sumParts).save hholder
      fun a => amount_subParts hjob hrunning
  · rw [decayAndSumUsage_of_noHolder hholder]
    exact Debits.of_noHolder hholder

end Decay

theorem tasksUsage_nonneg {tasks : List UsageTask} (h : ∀ t ∈ tasks, ∀ a, 0 ≤ t.usage a)
    (a : String) : 0 ≤ tasksUsage tasks a :=
  List.sum_nonneg (List.forall_mem_map.mpr fun t ht => h t ht a)

/-- A pass debits the usage of its tasks that is not in the old usage. -/
theorem debits_run {pass : UsagePass} (htasks : ∀ t ∈ pass.tasks, ∀ a, 0 ≤ t.usage a)
    (hold : ∀ a, 0 ≤ lists.oldUsage pass.job a) :
    Debits lists (pass.run lists) pass.job
      (fun a => max (tasksUsage pass.tasks a - lists.oldUsage pass.job a) 0)
      (tasksUsage pass.left) := by
  cases pass with
  | finished job runningPart =>
      cases runningPart with
      | none =>
          have htasks' : (UsagePass.finished job none).tasks = job.jaTasks := List.append_nil _
          rw [htasks']
          exact (debits_decayAndSumUsage hold).delete
      | some running =>
          exact debits_decayAndSumUsage_running hold
            (tasksUsage_nonneg fun t ht => htasks t (List.mem_append_left _ ht))
            (tasksUsage_nonneg fun t ht => htasks t (List.mem_append_right _ ht))
  | current job => exact debits_decayAndSumUsage hold

end UserPrjLists
section Passes
variable {lists : UserPrjLists} {run : SchedulingRun}

theorem foldl_laterRefs {refs : List SgeRef} (h : ∀ ref ∈ refs, ref.jaTask ≠ some 0) :
    refs.foldl (fun lists ref => decayAndSumUsage lists ref none) lists = lists := by
  induction refs with
  | nil => rfl
  | cons ref refs ih =>
      have hnone : decayAndSumUsage lists ref none = lists := by
        simp only [decayAndSumUsage, if_pos (h ref List.mem_cons_self), ite_self]
      rw [List.foldl_cons, hnone]
      exact ih fun ref' href' => h ref' (List.mem_cons_of_mem _ href')

theorem foldl_jobRefs (limit : ℕ) (job : UsageJob) :
    (jobRefs limit job).foldl (fun lists ref => decayAndSumUsage lists ref none) lists =
      (currentPass? limit job).elim lists fun pass => pass.run lists := by
  rw [jobRefs, currentPass?]
  cases htasks : job.jaTasks with
  | nil => simp
  | cons t ts =>
      have hlater : ∀ ref ∈ (((ts.zipIdx 1).take (limit - 1)).filter fun ja => jobIsActive ja.1).map
          (fun ja => (⟨job, some ja.2⟩ : SgeRef)), ref.jaTask ≠ some 0 := by
        intro ref href
        obtain ⟨ja, hja, rfl⟩ := List.mem_map.mp href
        have hle := List.le_snd_of_mem_zipIdx (List.mem_of_mem_take (List.mem_filter.mp hja).1)
        simp only [ne_eq, Option.some.injEq]
        omega
      cases limit with
      | zero => simp
      | succ limit =>
          rw [Nat.add_sub_cancel] at hlater
          simp only [List.zipIdx_cons, zero_add, List.take_succ_cons, List.filter_cons,
            Nat.zero_lt_succ, true_and]
          split_ifs with hactive
          · rw [List.map_cons, List.foldl_cons]
            exact foldl_laterRefs hlater
          · exact foldl_laterRefs hlater

theorem foldl_flatMap_jobRefs (limit : UsageJob → ℕ) (jobs : List UsageJob) :
    (jobs.flatMap fun job => jobRefs (limit job) job).foldl
      (fun lists ref => decayAndSumUsage lists ref none) lists =
      (jobs.filterMap fun job => currentPass? (limit job) job).foldl
        (fun lists pass => pass.run lists) lists := by
  induction jobs generalizing lists with
  | nil => rfl
  | cons job jobs ih =>
      rw [List.flatMap_cons, List.foldl_append, foldl_jobRefs, ih, List.filterMap_cons]
      cases currentPass? (limit job) job <;> rfl

theorem finishedJob_eq {job : UsageJob} (h : job.jaTasks ≠ []) : finishedJob run lists job =
    (UsagePass.finished job.setFinished (run.runningJob? job)).run lists := by
  have htasks : job.setFinished.jaTasks ≠ [] := by
    simpa [UsageJob.setFinished] using h
  have hrunning : run.runningJob? job.setFinished = run.runningJob? job := rfl
  simp only [finishedJob, if_neg htasks, hrunning]
  cases run.runningJob? job <;> rfl

theorem sgeCalcTickets_eq (h : ∀ job ∈ run.finishedJobs, job.jaTasks ≠ []) :
    sgeCalcTickets lists run = run.passes.foldl (fun lists pass => pass.run lists) lists := by
  have hfinished : run.finishedJobs.foldl (finishedJob run) lists =
      (run.finishedJobs.map fun job =>
        UsagePass.finished job.setFinished (run.runningJob? job)).foldl
        (fun lists pass => pass.run lists) lists := by
    rw [List.foldl_map]
    exact List.foldl_ext _ _ _ fun lists job hjob => finishedJob_eq (h job hjob)
  rw [sgeCalcTickets, SchedulingRun.jobRef, SchedulingRun.passes, List.foldl_append,
    List.foldl_append, List.foldl_append, hfinished, foldl_flatMap_jobRefs,
    foldl_flatMap_jobRefs fun job => job.jaTasks.length]

end Passes

/-- The users, the projects and the history of the usage. -/
structure UsageState where
  lists : UserPrjLists
  history : UsageHistory

namespace UsageState
variable {owner : ℕ → String} {project : ℕ → Option String} {s s' : UsageState}
  {pass : UsagePass} {a : String}

/-- The users and projects that there are, without any usage. -/
def init (users projects : String → Bool) : UsageState where
  lists := {
    users u := if users u then some ⟨none, fun _ => none, fun _ => none⟩ else none
    projects p := if projects p then some ⟨none, fun _ => none, fun _ => none⟩ else none }
  history := ⟨∅, fun _ _ => 0, ∅⟩

/-- A pass of a scheduling run. -/
def after (s : UsageState) (pass : UsagePass) : UsageState :=
  ⟨pass.run s.lists, s.history.see pass⟩

/-- A scheduling run. -/
def run (s : UsageState) (run : SchedulingRun) : UsageState :=
  ⟨sgeCalcTickets s.lists run, run.passes.foldl UsageHistory.see s.history⟩

/-- A job keeps its owner and its project. -/
def Owned (owner : ℕ → String) (project : ℕ → Option String) (job : UsageJob) : Prop :=
  job.owner = owner job.jobNumber ∧ job.project = project job.jobNumber

/-- A part with finished tasks has a task. -/
def WellFormed (owner : ℕ → String) (project : ℕ → Option String) (run : SchedulingRun) : Prop :=
  (∀ job ∈ run.finishedJobs, job.jaTasks ≠ []) ∧ ∀ pass ∈ run.passes, Owned owner project pass.job

instance (owner : ℕ → String) (project : ℕ → Option String) (job : UsageJob) :
    Decidable (Owned owner project job) :=
  inferInstanceAs (Decidable (job.owner = _ ∧ job.project = _))

instance (owner : ℕ → String) (project : ℕ → Option String) (run : SchedulingRun) :
    Decidable (WellFormed owner project run) :=
  inferInstanceAs (Decidable ((∀ job ∈ run.finishedJobs, job.jaTasks ≠ []) ∧
    ∀ pass ∈ run.passes, Owned owner project pass.job))

/-- The project in the project list that a job belongs to. -/
def project? (s : UsageState) (project : ℕ → Option String) (jobNumber : ℕ) : Option String :=
  (project jobNumber).filter fun p => (s.lists.projects p).isSome

/-- The long term usage is the usage of all tasks ever seen, each as it was last seen: for a user
without a project, for a user in a project, and for a project. -/
structure DebitedOnce (owner : ℕ → String) (project : ℕ → Option String) (s : UsageState) :
    Prop where
  user : ∀ u, (s.lists.users u).isSome → ∀ a, s.lists.userUsage u a =
    s.history.total (fun j => owner j = u ∧ s.project? project j = none) a
  entry : ∀ u p, (s.lists.users u).isSome → (s.lists.projects p).isSome → ∀ a,
    s.lists.entryUsage u p a =
      s.history.total (fun j => owner j = u ∧ s.project? project j = some p) a
  project : ∀ p, (s.lists.projects p).isSome → ∀ a, s.lists.projectUsage p a =
    s.history.total (fun j => s.project? project j = some p) a

/-- The old usage of a job is the usage of its tasks that are not settled. -/
structure Inv (owner : ℕ → String) (project : ℕ → Option String) (s : UsageState) : Prop where
  sound : s.history.Sound
  debited : DebitedOnce owner project s
  old : ∀ job, Owned owner project job → s.lists.HasHolder job → ∀ a,
    s.lists.oldUsage job a = s.history.unsettled job.jobNumber a

open UserPrjLists in
theorem oldUsage_noHolder {job : UsageJob} (h : ¬ s.lists.HasHolder job) :
    s.lists.oldUsage job a = 0 := by
  rw [HasHolder, not_or, Bool.not_eq_true, Bool.not_eq_true, Option.isSome_eq_false_iff,
    Option.isSome_eq_false_iff, Option.isNone_iff_eq_none, Option.isNone_iff_eq_none] at h
  rw [oldUsage, h.1]
  cases hproject : job.project with
  | none => exact congrFun Counters.amount_empty a
  | some p =>
      have hname := h.2
      rw [projectName?, hproject, Option.filter_some] at hname
      cases hprj : s.lists.projects p with
      | none =>
          simp only [Option.bind_some, hprj, Option.bind_none]
          exact congrFun Counters.amount_empty a
      | some prj => simp [hprj] at hname

theorem Inv.old_nonneg (h : Inv owner project s) {job : UsageJob} (howned : Owned owner project job)
    (a : String) : 0 ≤ s.lists.oldUsage job a := by
  by_cases hholder : s.lists.HasHolder job
  · rw [h.old job howned hholder]
    exact Finset.sum_nonneg fun x _ => h.sound.nonneg x a
  · rw [oldUsage_noHolder hholder]

/-- The difference to the old usage is what the tasks of the pass have used since they were last
seen. -/
theorem Inv.delta (h : Inv owner project s) (howned : Owned owner project pass.job)
    (hadmits : s.history.Admits pass) (hcovers : s.history.Covers pass)
    (hholder : s.lists.HasHolder pass.job) :
    max (tasksUsage pass.tasks a - s.lists.oldUsage pass.job a) 0 =
      tasksUsage pass.tasks a - ∑ x ∈ pass.keys pass.tasks, s.history.last x a := by
  rw [h.old pass.job howned hholder, UsageHistory.unsettled_eq h.sound hcovers]
  apply max_eq_left
  rw [sub_nonneg, UsageHistory.sum_keys hadmits (List.Sublist.refl _), tasksUsage]
  exact List.sum_le_sum fun t ht => hadmits.grows t ht a

/-- What the pass adds is what the history gains, wherever the job has its usage. -/
theorem Inv.gain (h : Inv owner project s) (howned : Owned owner project pass.job)
    (hadmits : s.history.Admits pass) (hcovers : s.history.Covers pass) {c : Prop} [Decidable c]
    {jobs : ℕ → Bool} (hc : c ↔ jobs pass.job.jobNumber = true)
    (hholder : c → s.lists.HasHolder pass.job) :
    (s.history.see pass).total jobs a = s.history.total jobs a +
      if c then max (tasksUsage pass.tasks a - s.lists.oldUsage pass.job a) 0 else 0 := by
  rw [UsageHistory.total_see h.sound hadmits]
  by_cases hcond : c
  · rw [if_pos hcond, if_pos (hc.mp hcond), h.delta howned hadmits hcovers (hholder hcond)]
  · rw [if_neg hcond, if_neg fun hjobs => hcond (hc.mpr hjobs)]

theorem Inv.after (h : Inv owner project s) (howned : Owned owner project pass.job)
    (hadmits : s.history.Admits pass) (hcovers : s.history.Covers pass) :
    Inv owner project (s.after pass) := by
  have htasks : ∀ t ∈ pass.tasks, ∀ a, 0 ≤ t.usage a := fun t ht a =>
    (h.sound.nonneg _ a).trans (hadmits.grows t ht a)
  have hdebits := UserPrjLists.debits_run htasks (h.old_nonneg howned)
  have hproject : (s.after pass).project? project = s.project? project := by
    funext j
    simp only [project?, UsageState.after, hdebits.same.2]
  have hname : s.lists.projectName? pass.job = s.project? project pass.job.jobNumber := by
    rw [UserPrjLists.projectName?, howned.2, project?]
  refine ⟨h.sound.see hadmits, ⟨fun u hu a => ?_, fun u p hu hp a => ?_, fun p hp a => ?_⟩,
    fun job hjob hholder a => ?_⟩
  · change ((pass.run s.lists).users u).isSome at hu
    rw [hdebits.same.1] at hu
    rw [hproject]
    refine (hdebits.user u a).trans ?_
    rw [h.debited.user u hu]
    refine (h.gain howned hadmits hcovers ?_ ?_).symm
    · rw [hname, howned.1, decide_eq_true_eq]
      exact ⟨fun hc => ⟨hc.1.symm, hc.2.2⟩, fun hc => ⟨hc.1.symm, hu, hc.2⟩⟩
    · rintro ⟨rfl, hsome, -⟩
      exact .inl hsome
  · change ((pass.run s.lists).users u).isSome at hu
    change ((pass.run s.lists).projects p).isSome at hp
    rw [hdebits.same.1] at hu
    rw [hdebits.same.2] at hp
    rw [hproject]
    refine (hdebits.entry u p a).trans ?_
    rw [h.debited.entry u p hu hp]
    refine (h.gain howned hadmits hcovers ?_ ?_).symm
    · rw [hname, howned.1, decide_eq_true_eq]
      exact ⟨fun hc => ⟨hc.1.symm, hc.2.2⟩, fun hc => ⟨hc.1.symm, hu, hc.2⟩⟩
    · rintro ⟨rfl, hsome, -⟩
      exact .inl hsome
  · change ((pass.run s.lists).projects p).isSome at hp
    rw [hdebits.same.2] at hp
    rw [hproject]
    refine (hdebits.project p a).trans ?_
    rw [h.debited.project p hp]
    refine (h.gain howned hadmits hcovers ?_ ?_).symm
    · rw [hname, decide_eq_true_eq]
    · intro hsome
      exact .inr (by rw [hsome]; rfl)
  · change (pass.run s.lists).HasHolder job at hholder
    rw [UserPrjLists.HasHolder, hdebits.same.1, hdebits.same.projectName?] at hholder
    change (pass.run s.lists).oldUsage job a = (s.history.see pass).unsettled job.jobNumber a
    by_cases hnumber : job.jobNumber = pass.job.jobNumber
    · have hsame : ∀ lists : UserPrjLists, lists.oldUsage job a = lists.oldUsage pass.job a ∧
          (lists.HasHolder job ↔ lists.HasHolder pass.job) := by
        intro lists
        simp only [UserPrjLists.oldUsage, UserPrjLists.HasHolder, UserPrjLists.projectName?,
          hjob.1, hjob.2, howned.1, howned.2, hnumber, and_self]
      rw [(hsame _).1, hdebits.old ((hsame _).2.mp hholder), hnumber,
        UsageHistory.unsettled_see hadmits hcovers]
    · rw [hdebits.other job hnumber, UsageHistory.unsettled_see_other hnumber,
        h.old job hjob hholder]

theorem Inv.init (users projects : String → Bool) :
    Inv owner project (init users projects) := by
  have hzero : ∀ a, listAmount none a = 0 := fun a => congrFun Counters.amount_empty a
  have hnone : ∀ {α : Type} (b : Bool) (f : UserPrj → Option α),
      f ⟨none, fun _ => none, fun _ => none⟩ = none →
      (if b then some ⟨none, fun _ => none, fun _ => none⟩ else none : Option UserPrj).bind f =
        none := by
    intro α b f hf
    cases b
    · rfl
    · exact hf
  refine ⟨⟨fun _ _ _ => rfl, fun _ _ => le_refl _⟩, ⟨fun u _ a => ?_, fun u p _ _ a => ?_,
    fun p _ a => ?_⟩, fun job _ _ a => ?_⟩
  · exact (congrArg (listAmount · a) (hnone (users u) _ rfl)).trans (hzero a)
  · exact (congrArg (listAmount · a) (hnone (users u) (fun user => user.projects p) rfl)).trans
      (hzero a)
  · exact (congrArg (listAmount · a) (hnone (projects p) _ rfl)).trans (hzero a)
  · refine Eq.trans ?_ (hzero a)
    rw [UserPrjLists.oldUsage]
    congr 1
    simp only [UsageState.init]
    cases users job.owner with
    | true => rfl
    | false =>
        cases job.project with
        | none => rfl
        | some p => exact hnone (projects p) _ rfl

theorem Inv.passes (h : Inv owner project s) {passes : List UsagePass}
    (howned : ∀ pass ∈ passes, Owned owner project pass.job)
    (halong : s.history.Along (fun h pass => h.Admits pass ∧ h.Covers pass) passes) :
    Inv owner project (passes.foldl UsageState.after s) := by
  induction passes generalizing s with
  | nil => exact h
  | cons pass passes ih =>
      exact ih (h.after (howned pass List.mem_cons_self) halong.1.1 halong.1.2)
        (fun pass hpass => howned pass (List.mem_cons_of_mem _ hpass)) halong.2

theorem run_eq {run : SchedulingRun} (h : ∀ job ∈ run.finishedJobs, job.jaTasks ≠ []) :
    s.run run = run.passes.foldl after s := by
  have hfold : ∀ (passes : List UsagePass) (s : UsageState), passes.foldl after s =
      ⟨passes.foldl (fun lists pass => pass.run lists) s.lists,
        passes.foldl UsageHistory.see s.history⟩ := by
    intro passes
    induction passes with
    | nil => exact fun s => rfl
    | cons pass passes ih => exact fun s => ih (s.after pass)
  rw [UsageState.run, sgeCalcTickets_eq h, hfold]

/-- If every pass covers its job, the usage of every task is debited exactly once. -/
theorem usage_debitedOnce {users projects : String → Bool} {runs : List SchedulingRun}
    (h : Machine.Run (fun s run s' => s' = s.run run ∧ WellFormed owner project run ∧
      s.history.Along (fun h pass => h.Admits pass ∧ h.Covers pass) run.passes)
      (init users projects) runs s) : DebitedOnce owner project s := by
  refine (h.invariant (P := fun _ s => Inv owner project s) (Inv.init users projects) ?_).debited
  rintro _ s run s' hinv ⟨rfl, hwell, halong⟩
  rw [run_eq hwell.1]
  exact hinv.passes hwell.2 halong

section Example

/-- A task that has used some `cpu`. -/
def cpuTask (taskNumber status : ℕ) (cpu : ℚ) : UsageTask :=
  ⟨taskNumber, status, 0, (Counters.empty.ensure "cpu").add "cpu" cpu, []⟩

/-- Job 1 of user `u` with some of its tasks. -/
def cpuJob (jaTasks : List UsageTask) : UsageJob := ⟨1, "u", none, true, jaTasks⟩

theorem usage_cpuTask (taskNumber status : ℕ) (cpu : ℚ) :
    (cpuTask taskNumber status cpu).usage a = if a = "cpu" then cpu else 0 := by
  rw [UsageTask.usage, cpuTask]
  simp only [List.map_nil, List.sum_nil, add_zero, amount_ensure_add, Counters.amount_empty,
    Pi.zero_apply, zero_add]
  split_ifs with hcounted hcpu hcpu
  · rfl
  · rfl
  · subst hcpu
    exact absurd (by decide) hcounted
  · rfl

theorem usage_cpuTask_nonneg (taskNumber status : ℕ) {cpu : ℚ} (h : 0 ≤ cpu) :
    0 ≤ (cpuTask taskNumber status cpu).usage a := by
  rw [usage_cpuTask]
  split_ifs
  · exact h
  · exact le_refl 0

theorem usage_le_setFinished (t : UsageTask) (a : String) : t.usage a ≤ t.setFinished.usage a := by
  rw [UsageTask.setFinished]
  split_ifs
  · exact le_refl _
  · simp only [UsageTask.usage, amount_ensure_add]
    split_ifs <;> linarith

theorem admits_covers_of {h : UsageHistory} {pass : UsagePass}
    (hnodup : (pass.tasks.map fun t => t.taskNumber).Nodup)
    (hgrows : ∀ t ∈ pass.tasks, ∀ a, h.last (pass.job.jobNumber, t.taskNumber) a ≤ t.usage a)
    (hfresh : ∀ t ∈ pass.tasks, (pass.job.jobNumber, t.taskNumber) ∉ h.settled)
    (hcomplete : ∀ x ∈ h.seen, x ∉ h.settled → x ∈ pass.keys pass.tasks) :
    h.Admits pass ∧ h.Covers pass :=
  ⟨⟨hnodup, hgrows⟩, ⟨hfresh, fun x hx _ hsettled _ => hcomplete x hx hsettled⟩⟩

/-- Two tasks are running. -/
def firstRun : SchedulingRun :=
  ⟨[cpuJob [cpuTask 1 jRunning 10, cpuTask 2 jRunning 5]], [], [], 1⟩

/-- One of them has finished. -/
def secondRun : SchedulingRun :=
  ⟨[cpuJob [cpuTask 1 jRunning 12]], [cpuJob [cpuTask 2 jFinished 7]], [], 1⟩

theorem firstRun_admitted : (init (fun u => u = "u") fun _ => false).history.Along
    (fun h pass => h.Admits pass ∧ h.Covers pass) firstRun.passes := by
  refine ⟨admits_covers_of (by decide) (fun t ht a => ?_) (by decide) (by decide), trivial⟩
  change 0 ≤ t.usage a
  rcases List.mem_cons.mp ht with rfl | ht
  · exact usage_cpuTask_nonneg 1 jRunning (by norm_num)
  · rw [List.mem_singleton.mp ht]
    exact usage_cpuTask_nonneg 2 jRunning (by norm_num)

theorem secondRun_admitted : ((init (fun u => u = "u") fun _ => false).run
    firstRun).history.Along (fun h pass => h.Admits pass ∧ h.Covers pass) secondRun.passes := by
  refine ⟨admits_covers_of (by decide) (fun t ht a => ?_) (by decide) (by decide),
    admits_covers_of (by decide) (fun t ht a => ?_) (by decide) (by decide), trivial⟩
  · rcases List.mem_cons.mp ht with rfl | ht
    · refine le_trans ?_ (usage_le_setFinished (cpuTask 2 jFinished 7) a)
      change (cpuTask 2 jRunning 5).usage a ≤ _
      rw [usage_cpuTask, usage_cpuTask]
      split_ifs <;> norm_num
    · rw [List.mem_singleton.mp ht]
      change (cpuTask 1 jRunning 10).usage a ≤ _
      rw [usage_cpuTask, usage_cpuTask]
      split_ifs <;> norm_num
  · rw [List.mem_singleton.mp ht]
    exact le_refl _

/-- Two tasks run, and then one of them finishes. -/
theorem usage_debitedOnce_run : ∃ s,
    DebitedOnce (fun _ => "u") (fun _ => none) s ∧ s.lists.userUsage "u" "cpu" = 19 :=
  ⟨_, usage_debitedOnce ((Machine.Run.nil.snoc ⟨rfl, by decide, firstRun_admitted⟩).snoc
    ⟨rfl, by decide, secondRun_admitted⟩), by decide +kernel⟩

/-- A task that has finished. -/
def finishedRun : SchedulingRun := ⟨[], [cpuJob [cpuTask 1 jFinished 10]], [], 1⟩

/-- A running task, and another one that is pending and enrolled. -/
def pendingRun : SchedulingRun :=
  ⟨[cpuJob [cpuTask 1 jRunning 10]], [], [cpuJob [cpuTask 2 jIdle 0]], 1⟩

theorem finishedRun_admitted :
    (init (fun u => u = "u") fun _ => false).history.Along UsageHistory.Admits
      finishedRun.passes := by
  refine ⟨⟨by decide, fun t ht a => ?_⟩, trivial⟩
  rw [List.mem_singleton.mp ht]
  exact (usage_cpuTask_nonneg 1 jFinished (by norm_num : (0 : ℚ) ≤ 10)).trans
    (usage_le_setFinished _ a)

theorem finishedRun_admitted_again : ((init (fun u => u = "u") fun _ => false).run
    finishedRun).history.Along UsageHistory.Admits finishedRun.passes := by
  refine ⟨⟨by decide, fun t ht a => ?_⟩, trivial⟩
  rw [List.mem_singleton.mp ht]
  exact le_refl _

theorem pendingRun_admitted :
    (init (fun u => u = "u") fun _ => false).history.Along UsageHistory.Admits
      pendingRun.passes := by
  refine ⟨⟨by decide, fun t ht a => ?_⟩, ⟨by decide, fun t ht a => ?_⟩, trivial⟩
  · rw [List.mem_singleton.mp ht]
    exact usage_cpuTask_nonneg 1 jRunning (by norm_num)
  · rw [List.mem_singleton.mp ht]
    exact usage_cpuTask_nonneg 2 jIdle (le_refl 0)

theorem pendingRun_admitted_again : ((init (fun u => u = "u") fun _ => false).run
    pendingRun).history.Along UsageHistory.Admits pendingRun.passes := by
  refine ⟨⟨by decide, fun t ht a => ?_⟩, ⟨by decide, fun t ht a => ?_⟩, trivial⟩
  · rw [List.mem_singleton.mp ht]
    exact le_refl _
  · rw [List.mem_singleton.mp ht]
    exact le_refl _

/-- The usage of a finished task that is seen in two runs counts twice, and so does the usage of a
running task when another task of its job is pending. -/
theorem usage_debitedTwice : (∃ s, Machine.Run (fun s run s' => s' = UsageState.run s run ∧
      WellFormed (fun _ => "u") (fun _ => none) run ∧
      s.history.Along UsageHistory.Admits run.passes)
      (init (fun u => u = "u") fun _ => false) [finishedRun, finishedRun] s ∧
      s.lists.userUsage "u" "cpu" = 20 ∧ ¬ DebitedOnce (fun _ => "u") (fun _ => none) s) ∧
    ∃ s, Machine.Run (fun s run s' => s' = UsageState.run s run ∧
      WellFormed (fun _ => "u") (fun _ => none) run ∧
      s.history.Along UsageHistory.Admits run.passes)
      (init (fun u => u = "u") fun _ => false) [pendingRun, pendingRun] s ∧
      s.lists.userUsage "u" "cpu" = 20 ∧ ¬ DebitedOnce (fun _ => "u") (fun _ => none) s := by
  refine ⟨⟨_, (Machine.Run.nil.snoc ⟨rfl, by decide, finishedRun_admitted⟩).snoc
    ⟨rfl, by decide, finishedRun_admitted_again⟩, by decide +kernel, fun h => ?_⟩,
    ⟨_, (Machine.Run.nil.snoc ⟨rfl, by decide, pendingRun_admitted⟩).snoc
      ⟨rfl, by decide, pendingRun_admitted_again⟩, by decide +kernel, fun h => ?_⟩⟩
  · have huser := h.user "u" (by decide) "cpu"
    revert huser
    decide +kernel
  · have huser := h.user "u" (by decide) "cpu"
    revert huser
    decide +kernel

end Example

end UsageState
end GridEngine
