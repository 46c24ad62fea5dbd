import GridEngine.TaskDependRelease

/-!
# The end of one task

A task ends when its status becomes `JFINISHED`, when its element is removed or when its id is
deleted. Each of these ends one task of one job and leaves the links, the other tasks and their
holds alone, and a job whose last task is gone has nothing that a successor could wait for.
-/

namespace GridEngine
open Segments

/-- The task `a` of a job ends. -/
structure Ends (a : ℕ) (pre pre' : DependJob) : Prop where
  ok : pre'.Ok
  links : pre'.links = pre.links
  finished : ∀ x ≠ a, taskDependIsFinished pre' x = taskDependIsFinished pre x
  ended : taskDependIsFinished pre' a ≠ some false
  held : ∀ x ≠ a, pre'.Held x ↔ pre.Held x

section Remove
variable (srt : PSortList Range Range.min) {fuel : ℕ} {job : Job} {p : ℕ → TaskPlace} {D : Set ℕ}
  {id x : ℕ}

theorem map_eraseP_taskNumber (tasks : List JaTask) :
    (tasks.eraseP (fun t => t.taskNumber == id)).map JaTask.taskNumber =
      (tasks.map JaTask.taskNumber).erase id := by
  induction tasks with
  | nil => rfl
  | cons t rest ih =>
      by_cases ht : t.taskNumber = id
      · rw [List.eraseP_cons_of_pos (by simpa using ht), List.map_cons, ht, List.erase_cons_head]
      · rw [List.eraseP_cons_of_neg (by simpa using ht), List.map_cons, List.map_cons, ih,
          List.erase_cons_tail (by simpa using ht)]

theorem find?_eraseP_taskNumber (h : x ≠ id) (tasks : List JaTask) :
    (tasks.eraseP (fun t => t.taskNumber == id)).find? (fun t => t.taskNumber == x) =
      tasks.find? (fun t => t.taskNumber == x) := by
  induction tasks with
  | nil => rfl
  | cons t rest ih =>
      by_cases ht : t.taskNumber = id
      · have hx : t.taskNumber ≠ x := fun heq => h (heq.symm.trans ht)
        rw [List.eraseP_cons_of_pos (by simpa using ht), List.find?_cons_of_neg (by simpa using hx)]
      · rw [List.eraseP_cons_of_neg (by simpa using ht), List.find?_cons, List.find?_cons, ih]

theorem Refines.removeTask (h : Refines D job p) (hp : p id = .enrolled) :
    Refines D { job with jaTasks := job.jaTasks.eraseP (fun t => t.taskNumber == id) }
      (Function.update p id .deleted) where
  defined := h.defined
  canonical := h.canonical
  ids_eq attr := by
    rw [h.ids_eq]
    ext x
    by_cases hx : x = id
    · subst hx
      simp [hp, TaskPlace.InList]
    · simp [hx]
  nodup := by
    rw [map_eraseP_taskNumber]
    exact h.nodup.erase id
  tasks x := by
    rw [map_eraseP_taskNumber, h.nodup.mem_erase_iff, h.tasks]
    by_cases hx : x = id
    · subst hx
      simp
    · simp [hx]
  hold_lt x hold := by
    by_cases hx : x = id
    · subst hx
      simp
    · simpa [hx] using h.hold_lt x hold

theorem removeJaTask_jaStructure : (removeJaTask job id).jaStructure = job.jaStructure := by
  unfold removeJaTask
  split_ifs <;> rfl

/-- A task that is taken out of its job is deleted, and every other task stays what it was. -/
theorem Refines.removeJaTask (h : Refines D job p) (hD : id ∈ D)
    (hpresent : jobIsEnrolled job id = true → (jobSearchTask job id).isSome = true) :
    Refines D (GridEngine.removeJaTask job id) (Function.update p id .deleted) ∧
      ∀ x ≠ id, jobGetHoldState (GridEngine.removeJaTask job id) x = jobGetHoldState job x := by
  unfold GridEngine.removeJaTask
  split_ifs with hen
  · have hp := (h.jobSearchTask_isSome.mp (hpresent hen)).2
    exact ⟨h.removeTask hp, fun x hx =>
      jobGetHoldState_congr (fun _ => rfl) (find?_eraseP_taskNumber hx job.jaTasks)⟩
  · obtain ⟨-, hold, hp⟩ := h.jobIsEnrolled_iff.mp (by simpa using hen)
    have hdel := h.deleteNotEnrolled hD
    have hstep : placeStep p (.deleteNotEnrolled id) = Function.update p id .deleted := by
      simp [placeStep, hp]
    rw [hstep] at hdel
    refine ⟨hdel, fun x hx => jobGetHoldState_congr (fun attr => ?_) rfl⟩
    rw [Bool.eq_iff_iff, hdel.inIdList_iff, h.inIdList_iff, Function.update_of_ne hx]

theorem Refines.enroll_clears (h : Refines D job p) (hD : id ∈ D)
    (hen : jobIsEnrolled job id = true) (hsome : (jobSearchTask job id).isSome = true) :
    Clears D ∅ job (jobEnroll job id) := by
  have hp := (h.jobSearchTask_isSome.mp hsome).2
  have hhold : ∀ attr, attr ≠ .jaNHIds → GridEngine.inIdList job attr id = false := by
    intro attr _
    by_contra hin
    have hnot := GridEngine.jobIsEnrolled_iff.mpr ⟨attr, by simpa using hin⟩
    exact Bool.false_ne_true (hnot.symm.trans hen)
  have henroll := h.enroll hD hhold
  have hplace : placeStep p (.enroll id) = p := by
    rw [placeStep, ← hp, Function.update_eq_self]
  have hjob : jobEnroll job id = objectDeleteRangeId job .jaNHIds id := by
    obtain ⟨t, ht⟩ := Option.isSome_iff_exists.mp hsome
    have ht' : jobSearchTask (objectDeleteRangeId job .jaNHIds id) id = some t := ht
    simp only [jobEnroll, ht']
  rw [hplace] at henroll
  have hstructure : (jobEnroll job id).jaStructure = job.jaStructure := by
    rw [hjob]
    rfl
  refine ⟨⟨p, henroll⟩, h.sameTasks henroll hstructure (fun _ => Iff.rfl) (fun _ => Iff.rfl),
    fun x _ => jobGetHoldState_congr (fun attr => ?_) ?_, fun _ hx => hx.elim⟩
  · rw [Bool.eq_iff_iff, henroll.inIdList_iff, h.inIdList_iff]
  · rw [hjob]
    rfl

theorem Refines.only_task (h : Refines D job p) (hsmall : ∀ id ∈ D, id < 2 ^ 31)
    (hfuel : 2 ^ 31 < fuel) (hone : jobGetJaTasks srt fuel job = some 1) (hD : id ∈ D)
    (hid : p id ≠ .deleted) (hxD : x ∈ D) (hx : p x ≠ .deleted) : x = id := by
  rw [jobGetJaTasks_eq srt h hsmall hfuel, Option.some.injEq, Set.ncard_eq_one] at hone
  obtain ⟨y, hy⟩ := hone
  have hidy : id ∈ ({y} : Set ℕ) := hy ▸ (⟨hD, hid⟩ : id ∈ {id | id ∈ D ∧ p id ≠ .deleted})
  have hxy : x ∈ ({y} : Set ℕ) := hy ▸ (⟨hxD, hx⟩ : x ∈ {id | id ∈ D ∧ p id ≠ .deleted})
  exact (Set.mem_singleton_iff.mp hxy).trans (Set.mem_singleton_iff.mp hidy).symm

theorem Refines.not_pending_of_zero (h : Refines D job p) (hsmall : ∀ id ∈ D, id < 2 ^ 31)
    (hfuel : 2 ^ 31 < fuel) (hzero : jobGetNotEnrolledJaTasks srt fuel job = some 0)
    (hD : id ∈ D) (hold : ℕ) : p id ≠ .pending hold := by
  intro hp
  have htotal := jobGetJaTasks_eq srt h hsmall hfuel
  have hlen : job.jaTasks.length = {id | id ∈ D ∧ p id = .enrolled}.ncard := length_tasks h
  have hfin : D.Finite := h.defined ▸ ids_finite
  have hle : {id | id ∈ D ∧ p id = .enrolled}.ncard ≤ 2 ^ 31 :=
    ncard_le_of_lt (fun x hx => hsmall x hx.1)
  rw [jobGetJaTasks, hzero, Option.map_some, jobGetEnrolledJaTasks, hlen, wadd_eq (by omega),
    Option.some.injEq, Nat.zero_add] at htotal
  have hsub : {id | id ∈ D ∧ p id = .enrolled} ⊆ {id | id ∈ D ∧ p id ≠ .deleted} :=
    fun x hx => ⟨hx.1, by simp [hx.2]⟩
  have heq := Set.eq_of_subset_of_ncard_le hsub htotal.ge (hfin.subset (fun x hx => hx.1))
  have hmem : id ∈ {id | id ∈ D ∧ p id = .enrolled} := by
    rw [heq]
    exact ⟨hD, by simp [hp]⟩
  simp [hp] at hmem

end Remove

section Ends
variable (srt : PSortList Range Range.min) {fuel : ℕ} {pre : DependJob} {a x : ℕ}

theorem DependJob.Ok.mem_of_unfinished (hok : pre.Ok)
    (hfin : taskDependIsFinished pre x = some false) : x ∈ (jobGetSubmitTaskIds pre).ids := by
  obtain ⟨p, hp⟩ := hok.places
  rw [taskDependIsFinished_eq] at hfin
  by_cases hen : jobIsEnrolled pre.job x = false
  · exact (hp.jobIsEnrolled_iff.mp hen).1
  · rw [if_neg hen] at hfin
    by_cases hsome : (jobSearchTask pre.job x).isSome = true
    · exact (hp.jobSearchTask_isSome.mp hsome).1
    · simp [hsome] at hfin

theorem DependJob.Ok.mem_of_present (hok : pre.Ok)
    (hpresent : jobIsEnrolled pre.job a = true → (jobSearchTask pre.job a).isSome = true) :
    a ∈ (jobGetSubmitTaskIds pre).ids := by
  obtain ⟨p, hp⟩ := hok.places
  by_cases hen : jobIsEnrolled pre.job a = false
  · exact (hp.jobIsEnrolled_iff.mp hen).1
  · exact (hp.jobSearchTask_isSome.mp (hpresent (by simpa using hen))).1

/-- A status `JFINISHED` ends an enrolled task. -/
theorem not_unfinished_of_status (hen : jobIsEnrolled pre.job x = true)
    (hstatus : pre.jatStatus x = jFinished) : taskDependIsFinished pre x ≠ some false := by
  rw [taskDependIsFinished_eq, if_neg (by simp [hen]), if_neg (not_not.mpr hstatus)]
  split_ifs
  all_goals simp

/-- A task of a job whose tasks are reported finished cannot be waited for. -/
theorem allTasksFinished_spec (hok : pre.Ok) (hfuel : 2 ^ 31 < fuel)
    (h : allTasksFinished srt fuel pre = some true) : taskDependIsFinished pre x ≠ some false := by
  intro hfin
  obtain ⟨p, hp⟩ := hok.places
  have hD := hok.mem_of_unfinished hfin
  obtain ⟨n, hn, hall⟩ := Option.map_eq_some_iff.mp h
  simp only [Bool.and_eq_true, decide_eq_true_eq, List.all_eq_true, beq_iff_eq] at hall
  obtain ⟨rfl, hall⟩ := hall
  by_cases hen : jobIsEnrolled pre.job x = false
  · obtain ⟨-, hold, hpx⟩ := hp.jobIsEnrolled_iff.mp hen
    exact hp.not_pending_of_zero srt hok.submit.ids_lt hfuel hn hD hold hpx
  · by_cases hsome : (jobSearchTask pre.job x).isSome = true
    · obtain ⟨t, ht⟩ := Option.isSome_iff_exists.mp hsome
      have hnum : t.taskNumber = x := by simpa using List.find?_some ht
      have hstatus := hall t (List.mem_of_find?_eq_some ht)
      rw [hnum] at hstatus
      exact not_unfinished_of_status (by simpa using hen) hstatus hfin
    · rw [taskDependIsFinished_eq, if_neg hen, if_neg hsome] at hfin
      simp at hfin

theorem finish_ends (hok : pre.Ok) (hen : jobIsEnrolled pre.job a = true) :
    Ends a pre { pre with jatStatus := Function.update pre.jatStatus a jFinished } where
  ok := ⟨hok.submit, hok.min_pos, hok.places⟩
  links := rfl
  finished x hx := by
    rw [taskDependIsFinished_eq, taskDependIsFinished_eq]
    simp only [Function.update_of_ne hx]
  ended := not_unfinished_of_status hen (Function.update_self ..)
  held _ _ := Iff.rfl

theorem remove_ends (hok : pre.Ok)
    (hpresent : jobIsEnrolled pre.job a = true → (jobSearchTask pre.job a).isSome = true) :
    Ends a pre { pre with job := removeJaTask pre.job a } := by
  have hD := hok.mem_of_present hpresent
  obtain ⟨p, hp⟩ := hok.places
  obtain ⟨hp', hheld⟩ := hp.removeJaTask hD hpresent
  have hsubmit : jobGetSubmitTaskIds { pre with job := removeJaTask pre.job a } =
      jobGetSubmitTaskIds pre := by
    unfold jobGetSubmitTaskIds
    rw [removeJaTask_jaStructure]
  refine ⟨⟨?_, ?_, ?_⟩, ?_, fun x hx => ?_, ?_, fun x hx => ?_⟩
  · rw [hsubmit]
    exact hok.submit
  · rw [hsubmit]
    exact hok.min_pos
  · rw [hsubmit]
    exact ⟨_, hp'⟩
  · simp only [DependJob.links, DependJob.shape, hsubmit]
  · have hen : jobIsEnrolled (removeJaTask pre.job a) x = jobIsEnrolled pre.job x := by
      have hiff : jobIsEnrolled (removeJaTask pre.job a) x = false ↔
          jobIsEnrolled pre.job x = false := by
        rw [hp'.jobIsEnrolled_iff, hp.jobIsEnrolled_iff, Function.update_of_ne hx]
      cases hx : jobIsEnrolled pre.job x with
      | false => exact hiff.mpr hx
      | true => simpa [hx] using hiff
    have hsome : (jobSearchTask (removeJaTask pre.job a) x).isSome =
        (jobSearchTask pre.job x).isSome := by
      rw [Bool.eq_iff_iff, hp'.jobSearchTask_isSome, hp.jobSearchTask_isSome,
        Function.update_of_ne hx]
    rw [taskDependIsFinished_eq, taskDependIsFinished_eq, hen, hsome]
  · obtain ⟨hen, hnone⟩ := (hp'.deleted_iff hD).mp (Function.update_self ..)
    rw [taskDependIsFinished_eq, hen, hnone]
    simp
  · unfold DependJob.Held
    rw [hheld x hx]

end Ends

end GridEngine
