import GridEngine.UsageDebit

/-!
# What a pass over one job does to the usage

The sums over the tasks, and the effect of `decay_and_sum_usage` on the long term usage of users,
of their projects and of projects, and on the old usage that is kept for a job.
-/

namespace GridEngine
open Ledger

section Amounts
variable {usageList1 usageList2 jobUsageList oldUsageList : UaList} {a : String}

/-- The usage of a task that `sum_job_usage` counts. -/
def UsageTask.usage (jaTask : UsageTask) (a : String) : ℚ :=
  if usageCounted a then
    jaTask.scaledUsageList.amount a + (jaTask.taskList.map fun l => l.amount a).sum
  else 0

/-- The usage of some tasks together. -/
def tasksUsage (tasks : List UsageTask) (a : String) : ℚ := (tasks.map fun t => t.usage a).sum

theorem tasksUsage_append (tasks tasks' : List UsageTask) :
    tasksUsage (tasks ++ tasks') a = tasksUsage tasks a + tasksUsage tasks' a := by
  rw [tasksUsage, List.map_append, List.sum_append]
  rfl

theorem tasksUsage_uncounted {tasks : List UsageTask} (h : ¬ usageCounted a = true) :
    tasksUsage tasks a = 0 :=
  sum_map_eq_zero fun _ _ => if_neg h

theorem amount_ensure_add (l : UaList) (k : String) (x : ℚ) :
    ((l.ensure k).add k x).amount a = l.amount a + if a = k then x else 0 := by
  rw [Counters.posts_add k x l, Pi.add_apply, Pi.single_apply]

theorem amount_ensure (l : UaList) (k : String) : (l.ensure k).amount a = l.amount a := by
  rw [Counters.posts_ensure k l, add_zero]

theorem amount_buildUsageList : buildUsageList.amount a = 0 := by
  rw [buildUsageList, amount_ensure, amount_ensure, amount_ensure, Counters.amount_empty]
  rfl

theorem amount_usageListSum : (usageListSum usageList1 usageList2).amount a =
    usageList1.amount a + if usageCounted a then usageList2.amount a else 0 := by
  refine Counters.amount_foldl_list
    (g := fun k x v => x + if usageCounted k then v else 0) ?_ ?_ ?_
  · intro l c _
    split_ifs
    · rw [amount_ensure_add, if_pos rfl]
    · rw [add_zero]
  · intro l c _ k hk
    split_ifs
    · rw [amount_ensure_add, if_neg hk, add_zero]
    · rfl
  · rw [ite_self, add_zero]

theorem amount_foldl_usageListSum (lists : List UaList) :
    (lists.foldl usageListSum usageList1).amount a =
      usageList1.amount a + if usageCounted a then (lists.map fun l => l.amount a).sum else 0 := by
  induction lists generalizing usageList1 with
  | nil => rw [List.foldl_nil, List.map_nil, List.sum_nil, ite_self, add_zero]
  | cons l lists ih =>
      rw [List.foldl_cons, ih, amount_usageListSum, List.map_cons, List.sum_cons]
      split_ifs
      · rw [add_assoc]
      · rw [add_zero]

theorem amount_sumJobUsage (job : UsageJob) :
    (sumJobUsage job).amount a = tasksUsage job.jaTasks a := by
  have hloop : ∀ (tasks : List UsageTask) (l : UaList),
      (tasks.foldl (fun usageList jbtask => jbtask.taskList.foldl usageListSum
        (usageListSum usageList jbtask.scaledUsageList)) l).amount a =
        l.amount a + tasksUsage tasks a := by
    intro tasks
    induction tasks with
    | nil => exact fun l => (add_zero _).symm
    | cons t tasks ih =>
        intro l
        rw [List.foldl_cons, ih, amount_foldl_usageListSum, amount_usageListSum, tasksUsage,
          tasksUsage, List.map_cons, List.sum_cons, UsageTask.usage]
        split_ifs <;> simp only [add_assoc, add_zero, zero_add]
  rw [sumJobUsage, hloop, Counters.amount_empty, Pi.zero_apply, zero_add]

theorem amount_usageListSub (h1 : 0 ≤ usageList1.amount a)
    (h2 : ∀ c ∈ usageList2.list, 0 ≤ c.value) : (usageListSub usageList1 usageList2).amount a =
      if usageCounted a then max 0 (usageList1.amount a - usageList2.amount a)
      else usageList1.amount a := by
  refine Counters.amount_foldl_list
    (g := fun k x v => if usageCounted k then max 0 (x - v) else x) ?_ ?_ ?_
  · intro l c hc
    split_ifs with _ hmem
    · rw [Counters.amount_set hmem, if_pos rfl]
    · rw [amount_ensure, Counters.amount_of_notMem hmem, zero_sub,
        max_eq_left (neg_nonpos.mpr (h2 c hc))]
    · rfl
  · intro l c _ k hk
    split_ifs with _ hmem
    · rw [Counters.amount_set hmem, if_neg hk]
    · rw [amount_ensure]
    · rfl
  · rw [sub_zero, max_eq_right h1, ite_self]

theorem amount_debitUsage {usageList : Option UaList} (hold : 0 ≤ oldUsageList.amount a) :
    (UserPrjLists.debitUsage jobUsageList oldUsageList usageList).amount a =
      (usageList.getD buildUsageList).amount a +
        max (jobUsageList.amount a - oldUsageList.amount a) 0 := by
  refine Counters.amount_foldl_list
    (g := fun k x v => x + max (v - oldUsageList.amount k) 0) ?_ ?_ ?_
  · intro l c _
    rw [amount_ensure_add, if_pos rfl]
  · intro l c _ k hk
    rw [amount_ensure_add, if_neg hk, add_zero]
  · rw [zero_sub, max_eq_right (neg_nonpos.mpr hold), add_zero]

end Amounts

/-- The amount in a list that need not be there. -/
def listAmount (usageList : Option UaList) (a : String) : ℚ :=
  (usageList.getD Counters.empty).amount a

theorem amount_getD_buildUsageList (usageList : Option UaList) (a : String) :
    (usageList.getD buildUsageList).amount a = listAmount usageList a := by
  cases usageList with
  | none => rw [listAmount, Option.getD_none, Option.getD_none, amount_buildUsageList,
      Counters.amount_empty, Pi.zero_apply]
  | some l => rfl

namespace UserPrjLists
variable {lists : UserPrjLists} {job : UsageJob} {u p a : String} {f : UserPrj → UserPrj}

/-- The long term usage of a user outside of projects. -/
def userUsage (lists : UserPrjLists) (u a : String) : ℚ :=
  listAmount ((lists.users u).bind fun user => user.longTermUsage) a

/-- The long term usage of a user in a project. -/
def entryUsage (lists : UserPrjLists) (u p a : String) : ℚ :=
  listAmount ((lists.users u).bind fun user => user.projects p) a

/-- The long term usage of a project. -/
def projectUsage (lists : UserPrjLists) (p a : String) : ℚ :=
  listAmount ((lists.projects p).bind fun project => project.longTermUsage) a

/-- The old usage that is kept for a job, with its user or else with its project. -/
def oldUsage (lists : UserPrjLists) (job : UsageJob) (a : String) : ℚ :=
  listAmount (match lists.users job.owner with
    | some user => user.debitedJobUsage job.jobNumber
    | none => (job.project.bind lists.projects).bind fun project =>
        project.debitedJobUsage job.jobNumber) a

theorem users_modifyUser :
    (lists.modifyUser job f).users u =
      if u = job.owner then (lists.users u).map f else lists.users u := by
  by_cases hu : u = job.owner
  · subst hu
    simp only [modifyUser, Function.update_self, if_pos]
  · simp only [modifyUser, Function.update_of_ne hu, if_neg hu]

theorem users_modifyProject : (lists.modifyProject job f).users = lists.users := by
  rw [modifyProject]
  split <;> rfl

theorem projects_modifyProject :
    (lists.modifyProject job f).projects p =
      if job.project = some p then (lists.projects p).map f else lists.projects p := by
  cases hproject : job.project with
  | none => simp [modifyProject, hproject]
  | some q =>
      by_cases hq : p = q
      · subst hq
        simp only [modifyProject, hproject, Function.update_self, if_pos]
      · simp only [modifyProject, hproject, Function.update_of_ne hq, Option.some.injEq,
          if_neg (Ne.symm hq)]

theorem amount_copyOrInitOldusage :
    (lists.copyOrInitOldusage job).amount a = lists.oldUsage job a := by
  rw [copyOrInitOldusage, oldUsage]
  cases lists.users job.owner with
  | some user => exact amount_getD_buildUsageList _ a
  | none =>
      cases job.project.bind lists.projects with
      | some project => exact amount_getD_buildUsageList _ a
      | none => exact amount_buildUsageList

/-- Two states with the same users and projects. -/
def SameObjects (lists lists' : UserPrjLists) : Prop :=
  (∀ u, (lists'.users u).isSome = (lists.users u).isSome) ∧
    ∀ p, (lists'.projects p).isSome = (lists.projects p).isSome

theorem SameObjects.refl (lists : UserPrjLists) : SameObjects lists lists :=
  ⟨fun _ => rfl, fun _ => rfl⟩

theorem SameObjects.trans {lists lists' lists'' : UserPrjLists} (h : SameObjects lists lists')
    (h' : SameObjects lists' lists'') : SameObjects lists lists'' :=
  ⟨fun u => (h'.1 u).trans (h.1 u), fun p => (h'.2 p).trans (h.2 p)⟩

theorem sameObjects_modifyUser : SameObjects lists (lists.modifyUser job f) := by
  refine ⟨fun u => ?_, fun p => rfl⟩
  rw [users_modifyUser]
  split_ifs
  · rw [Option.isSome_map]
  · rfl

theorem sameObjects_modifyProject : SameObjects lists (lists.modifyProject job f) := by
  refine ⟨fun u => by rw [users_modifyProject], fun p => ?_⟩
  rw [projects_modifyProject]
  split_ifs
  · rw [Option.isSome_map]
  · rfl

theorem SameObjects.projectName? {lists' : UserPrjLists} (h : SameObjects lists lists') :
    lists'.projectName? job = lists.projectName? job := by
  simp only [UserPrjLists.projectName?, h.2]

section Effects
variable {jobUsageList oldUsageList : UaList} {usageList : Option UaList}

theorem sameObjects_updateUserprjUsage :
    SameObjects lists (lists.updateUserprjUsage job jobUsageList oldUsageList) :=
  sameObjects_modifyUser.trans sameObjects_modifyProject

theorem userUsage_updateUserprjUsage (hold : 0 ≤ oldUsageList.amount a) :
    (lists.updateUserprjUsage job jobUsageList oldUsageList).userUsage u a =
      lists.userUsage u a +
        if u = job.owner ∧ (lists.users u).isSome ∧ lists.projectName? job = none then
          max (jobUsageList.amount a - oldUsageList.amount a) 0 else 0 := by
  rw [updateUserprjUsage, userUsage, users_modifyProject, users_modifyUser]
  by_cases hu : u = job.owner
  · subst hu
    rw [if_pos rfl, userUsage]
    cases lists.users job.owner with
    | none => simp
    | some user =>
        cases lists.projectName? job with
        | none =>
            simp only [Option.map_some, Option.bind_some, Option.isSome_some, and_self, if_pos]
            rw [listAmount, Option.getD_some, amount_debitUsage hold, amount_getD_buildUsageList]
        | some p => simp
  · rw [if_neg hu, if_neg (fun h => hu h.1), add_zero, userUsage]

theorem entryUsage_updateUserprjUsage (hold : 0 ≤ oldUsageList.amount a) :
    (lists.updateUserprjUsage job jobUsageList oldUsageList).entryUsage u p a =
      lists.entryUsage u p a +
        if u = job.owner ∧ (lists.users u).isSome ∧ lists.projectName? job = some p then
          max (jobUsageList.amount a - oldUsageList.amount a) 0 else 0 := by
  rw [updateUserprjUsage, entryUsage, users_modifyProject, users_modifyUser]
  by_cases hu : u = job.owner
  · subst hu
    rw [if_pos rfl, entryUsage]
    cases lists.users job.owner with
    | none => simp
    | some user =>
        cases lists.projectName? job with
        | none => simp
        | some q =>
            simp only [Option.map_some, Option.bind_some, Option.isSome_some, true_and,
              Option.some.injEq]
            by_cases hq : p = q
            · subst hq
              rw [Function.update_self, if_pos rfl, listAmount, Option.getD_some,
                amount_debitUsage hold, amount_getD_buildUsageList]
            · rw [Function.update_of_ne hq, if_neg (Ne.symm hq), add_zero]
  · rw [if_neg hu, if_neg (fun h => hu h.1), add_zero, entryUsage]

theorem projectUsage_updateUserprjUsage (hold : 0 ≤ oldUsageList.amount a) :
    (lists.updateUserprjUsage job jobUsageList oldUsageList).projectUsage p a =
      lists.projectUsage p a +
        if lists.projectName? job = some p then
          max (jobUsageList.amount a - oldUsageList.amount a) 0 else 0 := by
  rw [updateUserprjUsage, projectUsage, projects_modifyProject, projectUsage]
  by_cases hp : job.project = some p
  · rw [if_pos hp, projectName?, hp]
    change listAmount (((lists.projects p).map _).bind _) a = _
    cases hproject : lists.projects p with
    | none => simp [hproject]
    | some project =>
        simp only [Option.map_some, Option.bind_some, Option.filter_some, hproject,
          Option.isSome_some, if_pos]
        rw [listAmount, Option.getD_some, amount_debitUsage hold, amount_getD_buildUsageList]
  · have hname : lists.projectName? job ≠ some p := fun h => hp (Option.eq_some_of_filter_eq_some h)
    rw [if_neg hp, if_neg hname, add_zero]
    rfl

theorem oldUsage_congr {lists' : UserPrjLists}
    (husers : ∀ u, (lists'.users u).map (fun user => user.debitedJobUsage job.jobNumber) =
      (lists.users u).map fun user => user.debitedJobUsage job.jobNumber)
    (hprojects : ∀ p, (lists'.projects p).map (fun prj => prj.debitedJobUsage job.jobNumber) =
      (lists.projects p).map fun prj => prj.debitedJobUsage job.jobNumber) :
    lists'.oldUsage job a = lists.oldUsage job a := by
  have huser := husers job.owner
  rw [oldUsage, oldUsage]
  cases hs : lists.users job.owner with
  | some user =>
      rw [hs] at huser
      obtain ⟨user', hs', heq⟩ := Option.map_eq_some_iff.mp huser
      rw [hs']
      exact congrArg (fun l => listAmount l a) heq
  | none =>
      rw [hs, Option.map_none, Option.map_eq_none_iff] at huser
      rw [huser]
      cases job.project with
      | none => rfl
      | some p =>
          have hproject := congrArg (fun o => listAmount o.join a) (hprojects p)
          simpa only [Option.join_map_eq_map_join, Option.bind_eq_bind, Option.bind_some,
            ← Option.bind_id_eq_join, Option.bind_map, Function.comp_def, id_eq] using hproject

theorem oldUsage_updateUserprjUsage {job' : UsageJob} :
    (lists.updateUserprjUsage job jobUsageList oldUsageList).oldUsage job' a =
      lists.oldUsage job' a := by
  apply oldUsage_congr
  · intro u
    rw [updateUserprjUsage, users_modifyProject, users_modifyUser]
    split_ifs
    · rw [Option.map_map]
      congr 1
      funext user
      cases lists.projectName? job <;> rfl
    · rfl
  · intro p
    rw [updateUserprjUsage, projects_modifyProject]
    split_ifs
    · rw [Option.map_map]
      rfl
    · rfl

theorem setDebited_other {job' : UsageJob} (h : job'.jobNumber ≠ job.jobNumber) (prj : UserPrj) :
    (setDebited job usageList prj).debitedJobUsage job'.jobNumber =
      prj.debitedJobUsage job'.jobNumber :=
  Function.update_of_ne h _ _

theorem oldUsage_modifyUser_other {job' : UsageJob} (h : job'.jobNumber ≠ job.jobNumber) :
    (lists.modifyUser job (setDebited job usageList)).oldUsage job' a =
      lists.oldUsage job' a := by
  refine oldUsage_congr (fun u => ?_) fun p => rfl
  rw [users_modifyUser]
  split_ifs
  · rw [Option.map_map]
    congr 1
    funext user
    exact setDebited_other h user
  · rfl

theorem oldUsage_modifyProject_other {job' : UsageJob} (h : job'.jobNumber ≠ job.jobNumber) :
    (lists.modifyProject job (setDebited job usageList)).oldUsage job' a =
      lists.oldUsage job' a := by
  refine oldUsage_congr (fun u => by rw [users_modifyProject]) fun p => ?_
  rw [projects_modifyProject]
  split_ifs
  · rw [Option.map_map]
    congr 1
    funext prj
    exact setDebited_other h prj
  · rfl

/-- Two states with the same long term usage. -/
def SameUsage (lists lists' : UserPrjLists) : Prop :=
  ∀ u p a, lists'.userUsage u a = lists.userUsage u a ∧
    lists'.entryUsage u p a = lists.entryUsage u p a ∧
    lists'.projectUsage p a = lists.projectUsage p a

theorem SameUsage.trans {lists' lists'' : UserPrjLists} (h : SameUsage lists lists')
    (h' : SameUsage lists' lists'') : SameUsage lists lists'' := by
  intro u p a
  obtain ⟨huser, hentry, hproject⟩ := h u p a
  obtain ⟨huser', hentry', hproject'⟩ := h' u p a
  exact ⟨huser'.trans huser, hentry'.trans hentry, hproject'.trans hproject⟩

theorem sameUsage_modifyUser :
    SameUsage lists (lists.modifyUser job (setDebited job usageList)) := by
  intro u p a
  simp only [userUsage, entryUsage, users_modifyUser]
  refine ⟨?_, ?_, rfl⟩ <;> split_ifs <;> cases lists.users u <;> rfl

theorem sameUsage_modifyProject :
    SameUsage lists (lists.modifyProject job (setDebited job usageList)) := by
  intro u p a
  simp only [userUsage, entryUsage, projectUsage, users_modifyProject, projects_modifyProject,
    true_and]
  split_ifs <;> cases lists.projects p <;> rfl

/-- The job has a user or a project to keep its usage with. -/
def HasHolder (lists : UserPrjLists) (job : UsageJob) : Prop :=
  (lists.users job.owner).isSome ∨ (lists.projectName? job).isSome

theorem oldUsage_saveOldusage {usageList : UaList} (h : lists.HasHolder job) :
    (lists.saveOldusage job usageList).oldUsage job a = usageList.amount a := by
  rw [saveOldusage]
  split_ifs with huser
  · obtain ⟨user, hs⟩ := Option.isSome_iff_exists.mp huser
    rw [oldUsage, users_modifyUser, if_pos rfl, hs, Option.map_some]
    simp only [setDebited, Function.update_self]
    rfl
  · have hnone : lists.users job.owner = none := by
      simpa using huser
    obtain ⟨p, hp⟩ := Option.isSome_iff_exists.mp (h.resolve_left huser)
    rw [projectName?, Option.filter_eq_some_iff] at hp
    obtain ⟨prj, hprj⟩ := Option.isSome_iff_exists.mp hp.2
    rw [oldUsage, users_modifyProject, hnone]
    simp only [hp.1, Option.bind_some, projects_modifyProject, if_pos, hprj, Option.map_some,
      setDebited, Function.update_self]
    rfl

theorem oldUsage_deleteDebitedJobUsage :
    (lists.deleteDebitedJobUsage job).oldUsage job a = 0 := by
  rw [deleteDebitedJobUsage, oldUsage, users_modifyProject, users_modifyUser, if_pos rfl]
  cases lists.users job.owner with
  | some user =>
      simp only [Option.map_some, setDebited, Function.update_self]
      exact congrFun Counters.amount_empty a
  | none =>
      cases hproject : job.project with
      | none => exact congrFun Counters.amount_empty a
      | some p =>
          simp only [Option.map_none, Option.bind_some, projects_modifyProject, hproject, if_pos]
          change listAmount (((lists.projects p).map _).bind _) a = 0
          cases lists.projects p with
          | none => exact congrFun Counters.amount_empty a
          | some prj =>
              simp only [Option.map_some, Option.bind_some, setDebited, Function.update_self]
              exact congrFun Counters.amount_empty a

end Effects

end UserPrjLists
end GridEngine
