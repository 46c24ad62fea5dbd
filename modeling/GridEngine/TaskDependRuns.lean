import GridEngine.TaskDependEnds

/-!
# Array dependencies over whole runs

Every call of `sge_commit_job` that ends a task keeps the hold bits right, as long as it also
recalculates each task whose last reason to wait it takes away. It does not where
`sge_task_depend_get_range` fails for the task that ended, and where the job of the task goes away
while the successor still has other predecessors.
-/

namespace GridEngine
open Segments Machine

/-- The bit of every unfinished task of a successor says whether the task waits. -/
def RightHolds (jobs : MasterJobList) : Prop :=
  ∀ m suc, jobs m = some suc → suc.jaAdRequestList ≠ [] →
    ∀ t ∈ (jobGetSubmitTaskIds suc).ids, taskDependIsFinished suc t = some false →
      (suc.Held t ↔ Waits jobs suc t)

/-- The call does not recalculate the tasks of `suc` that wait for its task. -/
def DependEvent.Misses (srt : PSortList Range Range.min) (fuel : ℕ) (e : DependEvent)
    (pre suc : DependJob) : Prop :=
  if e.mode ≠ .finishedFailedEE ∧ jobGetJaTasks srt fuel pre.job = some 1 then
    ∃ n ∈ suc.jaAdPredecessorList, n ≠ e.job
  else sgeTaskDependGetRange suc pre e.task = none

/-- Every unfinished task that waits for the task of the call and is missed by it waits for
another task as well. -/
def DependEvent.Covered (srt : PSortList Range Range.min) (fuel : ℕ) (jobs : MasterJobList)
    (e : DependEvent) : Prop :=
  ∀ pre m suc t, jobs e.job = some pre → jobs m = some suc → e.job ∈ suc.jaAdPredecessorList →
    t ∈ (jobGetSubmitTaskIds suc).ids → taskDependIsFinished suc t = some false →
    WaitsFor jobs suc t e.job e.task → e.Misses srt fuel pre suc →
    ∃ n ∈ suc.jaAdPredecessorList, ∃ a, (n, a) ≠ (e.job, e.task) ∧ WaitsFor jobs suc t n a

section Ended
variable (srt : PSortList Range Range.min) {fuel : ℕ} {jobs jobs' : MasterJobList}
  {pre pre' suc suc' : DependJob} {n m k a b t : ℕ}

theorem waitsFor_ended (hn : jobs n = some pre) (hends : Ends a pre pre')
    (hsuc : suc'.links = suc.links) :
    WaitsFor (Function.update jobs n (some pre')) suc' t k b ↔
      WaitsFor jobs suc t k b ∧ (k, b) ≠ (n, a) := by
  by_cases hk : k = n
  · subst hk
    constructor
    · rintro ⟨q, r, hq, hr, hb, hfin⟩
      rw [Function.update_self] at hq
      obtain rfl := Option.some.inj hq
      have hba : b ≠ a := fun heq => hends.ended (heq ▸ hfin)
      refine ⟨⟨pre, r, hn, ?_, hb, ?_⟩, fun heq => hba (congrArg Prod.snd heq)⟩
      · rw [← sgeTaskDependGetRange_links hends.links hsuc, hr]
      · rw [← hends.finished b hba, hfin]
    · rintro ⟨⟨q, r, hq, hr, hb, hfin⟩, hne⟩
      obtain rfl : pre = q := Option.some.inj (hn.symm.trans hq)
      have hba : b ≠ a := fun heq => hne (congrArg (Prod.mk k) heq)
      refine ⟨pre', r, Function.update_self .., ?_, hb, ?_⟩
      · rw [sgeTaskDependGetRange_links hends.links hsuc, hr]
      · rw [hends.finished b hba, hfin]
  · have hne : (k, b) ≠ (n, a) := fun heq => hk (congrArg Prod.fst heq)
    constructor
    · rintro ⟨q, r, hq, hr, hb, hfin⟩
      rw [Function.update_of_ne hk] at hq
      refine ⟨⟨q, r, hq, ?_, hb, hfin⟩, hne⟩
      rw [← sgeTaskDependGetRange_links (rfl : q.links = q.links) hsuc, hr]
    · rintro ⟨⟨q, r, hq, hr, hb, hfin⟩, -⟩
      refine ⟨q, r, by rw [Function.update_of_ne hk, hq], ?_, hb, hfin⟩
      rw [sgeTaskDependGetRange_links (rfl : q.links = q.links) hsuc, hr]

theorem JobListOk.ended (hok : JobListOk jobs) (hn : jobs n = some pre) (hends : Ends a pre pre') :
    JobListOk (Function.update jobs n (some pre')) := by
  apply hok.congr
  · intro m
    by_cases hm : m = n
    · subst hm
      rw [Function.update_self, hn, Option.map_some, Option.map_some, hends.links]
    · rw [Function.update_of_ne hm]
  · intro m q hq
    by_cases hm : m = n
    · rw [hm, Function.update_self] at hq
      exact Option.some.inj hq ▸ hends.ok
    · rw [Function.update_of_ne hm] at hq
      exact hok.ok m q hq

theorem before_ended (hn : jobs n = some pre) (hends : Ends a pre pre')
    (hm : Function.update jobs n (some pre') m = some suc')
    (hfin : taskDependIsFinished suc' t = some false) :
    ∃ suc, jobs m = some suc ∧ suc'.links = suc.links ∧
      taskDependIsFinished suc t = some false ∧ (suc'.Held t ↔ suc.Held t) := by
  by_cases hmn : m = n
  · subst hmn
    rw [Function.update_self] at hm
    obtain rfl := Option.some.inj hm
    have hta : t ≠ a := fun heq => hends.ended (heq ▸ hfin)
    exact ⟨pre, hn, hends.links, by rw [← hends.finished t hta, hfin], hends.held t hta⟩
  · rw [Function.update_of_ne hmn] at hm
    exact ⟨suc', hm, rfl, hfin, Iff.rfl⟩

/-- A task that waits for `a` is among those that `release_successor_tasks_ad` finds. -/
theorem reached_of_waitsFor (hok : JobListOk jobs) (hn : jobs n = some pre)
    (hends : Ends a pre pre') (ha : a ∈ (jobGetSubmitTaskIds pre).ids) (hm : jobs m = some suc)
    (hm' : Function.update jobs n (some pre') m = some suc') (hsuc : suc'.links = suc.links)
    (hpred : n ∈ suc.jaAdPredecessorList) (ht : t ∈ (jobGetSubmitTaskIds suc).ids)
    (hwaits : WaitsFor jobs suc t n a) (hrange : sgeTaskDependGetRange suc pre a ≠ none) :
    m ∈ pre.jaAdSuccessorList ∧ Reached (Function.update jobs n (some pre')) pre' a m t := by
  have hcount : 0 < suc.jaAdPredecessorList.count n := List.count_pos_iff.mpr hpred
  have hlink := hok.linked n m pre suc hn hm
  obtain ⟨q, hq⟩ := Option.ne_none_iff_exists'.mp hrange
  obtain ⟨pre₀, r, hn', hr, har, -⟩ := hwaits
  obtain rfl : pre = pre₀ := Option.some.inj (hn.symm.trans hn')
  have hswap := sgeTaskDependGetRange_swap (hok.ok n pre hn).submit (hok.ok m suc hm).submit ht ha
    hr hq
  refine ⟨List.count_pos_iff.mp (by omega), suc', q, hm', ?_, hswap.mp har⟩
  rw [sgeTaskDependGetRange_links hsuc hends.links, hq]

/-- After the end of a task and the release of its successors the bits are right. -/
theorem release_ended (hok : JobListOk jobs) (hright : RightHolds jobs) (hn : jobs n = some pre)
    (ha : a ∈ (jobGetSubmitTaskIds pre).ids) (hends : Ends a pre pre')
    (hcovered : ∀ m suc t, jobs m = some suc → n ∈ suc.jaAdPredecessorList →
      t ∈ (jobGetSubmitTaskIds suc).ids → taskDependIsFinished suc t = some false →
      WaitsFor jobs suc t n a → sgeTaskDependGetRange suc pre a = none →
      ∃ k ∈ suc.jaAdPredecessorList, ∃ b, (k, b) ≠ (n, a) ∧ WaitsFor jobs suc t k b)
    (hrec : Recalculates (fun m t => m ∈ pre.jaAdSuccessorList ∧
      Reached (Function.update jobs n (some pre')) pre' a m t)
      (Function.update jobs n (some pre')) jobs') : RightHolds jobs' := by
  intro m suc₂ hm₂ hreq t ht hfin
  by_cases hT : m ∈ pre.jaAdSuccessorList ∧
      Reached (Function.update jobs n (some pre')) pre' a m t
  · exact hrec.right m suc₂ hm₂ t ht hfin hT
  obtain ⟨suc₁, hm₁, hshape⟩ := hrec.shapes.symm.exists_of_some hm₂
  have hfin₁ : taskDependIsFinished suc₁ t = some false := by rw [finished_shape hshape, hfin]
  have ht₁ : t ∈ (jobGetSubmitTaskIds suc₁).ids := by
    rwa [show jobGetSubmitTaskIds suc₁ = jobGetSubmitTaskIds suc₂ from
      congrArg DependShape.submit hshape]
  obtain ⟨suc, hm, hlinks, hfin₀, hheld⟩ := before_ended hn hends hm₁ hfin₁
  have hpreds : suc₁.jaAdPredecessorList = suc.jaAdPredecessorList :=
    congrArg DependShape.predecessors hlinks
  have ht₀ : t ∈ (jobGetSubmitTaskIds suc).ids := by
    rwa [show jobGetSubmitTaskIds suc = jobGetSubmitTaskIds suc₁ from
      congrArg DependShape.submit hlinks.symm]
  have hreq₀ : suc.jaAdRequestList ≠ [] := by
    have heq : suc.jaAdRequestList = suc₂.jaAdRequestList :=
      (congrArg DependShape.requests hlinks).symm.trans (congrArg DependShape.requests hshape)
    rwa [heq]
  rw [hrec.kept m suc₁ suc₂ hm₁ hm₂ t ht₁ hfin₁ hT, hheld, hright m suc hm hreq₀ t ht₀ hfin₀,
    waits_congr hrec.shapes hshape.symm]
  unfold Waits
  rw [hpreds]
  constructor
  · rintro ⟨k, hk, b, hwaits⟩
    by_cases hkb : (k, b) = (n, a)
    · obtain ⟨rfl, rfl⟩ := Prod.mk.inj hkb
      have hrange : sgeTaskDependGetRange suc pre b = none := by
        by_contra hne
        exact hT (reached_of_waitsFor hok hn hends ha hm hm₁ hlinks hk ht₀ hwaits hne)
      obtain ⟨k', hk', b', hne, hwaits'⟩ := hcovered m suc t hm hk ht₀ hfin₀ hwaits hrange
      exact ⟨k', hk', b', (waitsFor_ended hn hends hlinks).mpr ⟨hwaits', hne⟩⟩
    · exact ⟨k, hk, b, (waitsFor_ended hn hends hlinks).mpr ⟨hwaits, hkb⟩⟩
  · rintro ⟨k, hk, b, hwaits⟩
    exact ⟨k, hk, b, ((waitsFor_ended hn hends hlinks).mp hwaits).1⟩

end Ended

/-- What `release_successor_jobs_ad` for `pre` makes of the master list. -/
structure Unlinked (n : ℕ) (pre : DependJob) (jobs jobs' : MasterJobList) : Prop where
  absent : ∀ m, jobs m = none → jobs' m = none
  listed : ∀ m suc, jobs m = some suc →
    ∃ suc', jobs' m = some suc' ∧ Unlinks n (pre.jaAdSuccessorList.count m) suc suc'

section Unlinked
variable {jobs jobs' : MasterJobList} {pre suc suc' : DependJob} {n m k j a b t : ℕ}

theorem Unlinked.before (h : Unlinked n pre jobs jobs') (hm : jobs' m = some suc') :
    ∃ suc, jobs m = some suc ∧ Unlinks n (pre.jaAdSuccessorList.count m) suc suc' := by
  cases hsuc : jobs m with
  | none => simp [h.absent m hsuc] at hm
  | some suc =>
      obtain ⟨q, hq, hlink⟩ := h.listed m suc hsuc
      obtain rfl : q = suc' := Option.some.inj (hq.symm.trans hm)
      exact ⟨suc, rfl, hlink⟩

theorem Unlinks.getRange {pre' : DependJob} {i : ℕ} (hpre : Unlinks n i pre pre')
    (hsuc : Unlinks n j suc suc') :
    sgeTaskDependGetRange pre' suc' t = sgeTaskDependGetRange pre suc t :=
  sgeTaskDependGetRange_congr (congrArg DependShape.isArray hpre.shape)
    (congrArg DependShape.isArray hsuc.shape) (congrArg DependShape.submit hpre.shape)
    (congrArg DependShape.submit hsuc.shape)

theorem Unlinks.finished (h : Unlinks n j suc suc') :
    taskDependIsFinished suc' t = taskDependIsFinished suc t :=
  congrFun (congrArg DependShape.finished h.shape) t

theorem waitsFor_unlinked (h : Unlinked n pre jobs jobs') (hsuc : Unlinks n j suc suc') :
    WaitsFor jobs' suc' t k b ↔ WaitsFor jobs suc t k b := by
  constructor
  · rintro ⟨q', r, hq', hr, hb, hfin⟩
    obtain ⟨q, hq, hlink⟩ := h.before hq'
    exact ⟨q, r, hq, by rw [← hlink.getRange hsuc, hr], hb, by rw [← hlink.finished, hfin]⟩
  · rintro ⟨q, r, hq, hr, hb, hfin⟩
    obtain ⟨q', hq', hlink⟩ := h.listed k q hq
    exact ⟨q', r, hq', by rw [hlink.getRange hsuc, hr], hb, by rw [hlink.finished, hfin]⟩

theorem Unlinks.mem_of_mem (h : Unlinks n j suc suc') (hk : k ∈ suc'.jaAdPredecessorList) :
    k ∈ suc.jaAdPredecessorList := by
  have hcount := List.count_pos_iff.mpr hk
  rw [h.predecessors, count_iterate_erase] at hcount
  split_ifs at hcount with hkn
  · subst hkn
    exact List.count_pos_iff.mp (by omega)
  · exact List.count_pos_iff.mp hcount

theorem Unlinks.mem_of_ne (h : Unlinks n j suc suc') (hk : k ≠ n) :
    k ∈ suc'.jaAdPredecessorList ↔ k ∈ suc.jaAdPredecessorList := by
  rw [h.predecessors]
  exact mem_iterate_erase hk

theorem JobListOk.unlinked (hok : JobListOk jobs) (h : Unlinked n pre jobs jobs') :
    JobListOk jobs' where
  ok m suc' hm := by
    obtain ⟨suc, -, hlink⟩ := h.before hm
    exact hlink.ok
  number m suc' hm := by
    obtain ⟨suc, hsuc, hlink⟩ := h.before hm
    have hnum : suc'.jobNumber = suc.jobNumber := congrArg DependShape.jobNumber hlink.shape
    rw [hnum]
    exact hok.number m suc hsuc
  linked k m q' suc' hk hm := by
    obtain ⟨q, hq, hlinkq⟩ := h.before hk
    obtain ⟨suc, hsuc, hlink⟩ := h.before hm
    have hcount := hok.linked k m q suc hq hsuc
    have hsucs : q'.jaAdSuccessorList = q.jaAdSuccessorList :=
      congrArg DependShape.successors hlinkq.shape
    rw [hlink.predecessors, count_iterate_erase, hsucs]
    split_ifs with hkn
    · subst hkn
      omega
    · exact hcount
  requested m suc' hm hne := by
    obtain ⟨suc, hsuc, hlink⟩ := h.before hm
    have hreq : suc'.jaAdRequestList = suc.jaAdRequestList :=
      congrArg DependShape.requests hlink.shape
    rw [hreq]
    apply hok.requested m suc hsuc
    intro hnil
    apply hne
    rw [hlink.predecessors, hnil, iterate_erase_nil]
  ranged m suc' hm k hk q' hq' t ht := by
    obtain ⟨q, hq, hlinkq⟩ := h.before hq'
    obtain ⟨suc, hsuc, hlink⟩ := h.before hm
    rw [hlinkq.getRange hlink]
    apply hok.ranged m suc hsuc k (hlink.mem_of_mem hk) q hq t
    rwa [show jobGetSubmitTaskIds suc = jobGetSubmitTaskIds suc' from
      (congrArg DependShape.submit hlink.shape).symm]

/-- The bits are right after a release of successors for which it does not matter whether a task
waits for the job `n`. -/
theorem unlink_right (hright : RightHolds jobs)
    (h : Unlinked n pre jobs jobs') (hm : jobs' m = some suc') (hreq : suc'.jaAdRequestList ≠ [])
    (ht : t ∈ (jobGetSubmitTaskIds suc').ids) (hfin : taskDependIsFinished suc' t = some false)
    (hother : ∀ suc, jobs m = some suc →
      Unlinks n (pre.jaAdSuccessorList.count m) suc suc' → suc'.jaAdPredecessorList ≠ [] →
      Waits jobs suc t → ∃ k ∈ suc.jaAdPredecessorList, k ≠ n ∧ ∃ b, WaitsFor jobs suc t k b) :
    suc'.Held t ↔ Waits jobs' suc' t := by
  obtain ⟨suc, hsuc, hlink⟩ := h.before hm
  have hreq₀ : suc.jaAdRequestList ≠ [] := by
    rwa [show suc.jaAdRequestList = suc'.jaAdRequestList from
      (congrArg DependShape.requests hlink.shape).symm]
  have ht₀ : t ∈ (jobGetSubmitTaskIds suc).ids := by
    rwa [show jobGetSubmitTaskIds suc = jobGetSubmitTaskIds suc' from
      (congrArg DependShape.submit hlink.shape).symm]
  have hfin₀ : taskDependIsFinished suc t = some false := by rw [← hlink.finished, hfin]
  have hold := hright m suc hsuc hreq₀ t ht₀ hfin₀
  have hwaits : Waits jobs' suc' t → Waits jobs suc t := by
    rintro ⟨k, hk, b, hb⟩
    exact ⟨k, hlink.mem_of_mem hk, b, (waitsFor_unlinked h hlink).mp hb⟩
  by_cases hnil : suc'.jaAdPredecessorList = []
  · have hnot : ¬ Waits jobs' suc' t := by
      rintro ⟨k, hk, -⟩
      rw [hnil] at hk
      exact absurd hk List.not_mem_nil
    by_cases hpos : 0 < pre.jaAdSuccessorList.count m
    · simp only [hlink.flushed hpos hreq₀ hnil t ht₀ hfin₀, hnot]
    · have hzero : pre.jaAdSuccessorList.count m = 0 := by omega
      have hsame : suc'.jaAdPredecessorList = suc.jaAdPredecessorList := by
        rw [hlink.predecessors, hzero, Function.iterate_zero, id]
      have hnot₀ : ¬ Waits jobs suc t := by
        rintro ⟨k, hk, -⟩
        rw [← hsame, hnil] at hk
        exact absurd hk List.not_mem_nil
      rw [hlink.kept (Or.inr hzero) t, hold]
      simp only [hnot, hnot₀]
  · rw [hlink.kept (Or.inl hnil) t, hold]
    constructor
    · intro hw
      obtain ⟨k, hk, hkn, b, hb⟩ := hother suc hsuc hlink hnil hw
      exact ⟨k, (hlink.mem_of_ne hkn).mpr hk, b, (waitsFor_unlinked h hlink).mpr hb⟩
    · exact hwaits

theorem unlink_finished (hright : RightHolds jobs)
    (h : Unlinked n pre jobs jobs') (hn : jobs n = some pre)
    (hfinished : ∀ x, taskDependIsFinished pre x ≠ some false) : RightHolds jobs' := by
  intro m suc' hm hreq t ht hfin
  apply unlink_right hright h hm hreq ht hfin
  rintro suc - - - ⟨k, hk, b, hb⟩
  refine ⟨k, hk, fun heq => ?_, b, hb⟩
  subst heq
  obtain ⟨q, r, hq, -, -, hunf⟩ := hb
  obtain rfl : pre = q := Option.some.inj (hn.symm.trans hq)
  exact hfinished b hunf

theorem JobListOk.remove (hok : JobListOk jobs) :
    JobListOk (Function.update jobs n none) := by
  have hmem : ∀ m q, Function.update jobs n none m = some q → jobs m = some q := by
    intro m q hq
    by_cases hm : m = n
    · simp [hm] at hq
    · rwa [Function.update_of_ne hm] at hq
  exact ⟨fun m q hq => hok.ok m q (hmem m q hq), fun m q hq => hok.number m q (hmem m q hq),
    fun k m q s hq hs => hok.linked k m q s (hmem k q hq) (hmem m s hs),
    fun m q hq => hok.requested m q (hmem m q hq),
    fun m s hs k hk q hq => hok.ranged m s (hmem m s hs) k hk q (hmem k q hq)⟩

end Unlinked

section Steps
variable (srt : PSortList Range Range.min) {fuel : ℕ} {jobs jobs' : MasterJobList}
  {pre : DependJob} {e : DependEvent} {n a : ℕ}

theorem DependEvent.Covered.of_release (hcovered : e.Covered srt fuel jobs)
    (hpre : jobs e.job = some pre)
    (hmode : ¬ (e.mode ≠ .finishedFailedEE ∧ jobGetJaTasks srt fuel pre.job = some 1)) :
    ∀ m suc t, jobs m = some suc → e.job ∈ suc.jaAdPredecessorList →
      t ∈ (jobGetSubmitTaskIds suc).ids → taskDependIsFinished suc t = some false →
      WaitsFor jobs suc t e.job e.task → sgeTaskDependGetRange suc pre e.task = none →
      ∃ k ∈ suc.jaAdPredecessorList, ∃ b, (k, b) ≠ (e.job, e.task) ∧ WaitsFor jobs suc t k b := by
  intro m suc t hm hmem ht hfin hwaits hrange
  apply hcovered pre m suc t hpre hm hmem ht hfin hwaits
  unfold DependEvent.Misses
  rwa [if_neg hmode]

theorem finish_step (hfuel : 2 ^ 31 < fuel) (hok : JobListOk jobs) (hright : RightHolds jobs)
    (hpre : jobs e.job = some pre) (hadm : e.Admissible pre) (hcovered : e.Covered srt fuel jobs)
    (hmode : e.mode = .finishedFailedEE)
    (hrun : commitFinishedFailedEE srt fuel jobs pre e.task = some jobs') :
    JobListOk jobs' ∧ RightHolds jobs' := by
  obtain ⟨hnum, hpos⟩ := hok.number e.job pre hpre
  have hpreok := hok.ok e.job pre hpre
  unfold DependEvent.Admissible at hadm
  have hen : jobIsEnrolled pre.job e.task = true := by
    by_contra hne
    rw [if_neg hne] at hadm
    exact hadm hmode
  rw [if_pos hen] at hadm
  have ha := hpreok.mem_of_present (fun _ => hadm)
  have hends := finish_ends hpreok hen
  have hzero : e.task ≠ 0 := by
    have := (segment_le ha).1
    have := hpreok.min_pos
    omega
  set pre₁ : DependJob :=
    { pre with jatStatus := Function.update pre.jatStatus e.task jFinished } with hpre₁
  unfold commitFinishedFailedEE at hrun
  dsimp only at hrun
  rw [if_pos hzero, ← hpre₁, hnum] at hrun
  obtain ⟨jobs₂, hrelease, hrun⟩ := Option.bind_eq_some_iff.mp hrun
  obtain ⟨jobs₃, henroll, hrun⟩ := Option.bind_eq_some_iff.mp hrun
  have hrec₂ := releaseSuccessorTasksAd_spec srt (hok.ended hpre hends) hpreok.submit ha hrelease
  obtain ⟨pre₂, hpre₂, hshape₂⟩ := hrec₂.shapes.exists_of_some
    (Function.update_self e.job (some pre₁) jobs)
  -- The enrolment meets an enrolled task.
  have hplaced := congrFun (congrArg DependShape.placed hshape₂) e.task
  have hen₂ : jobIsEnrolled pre₂.job e.task = true := (congrArg Prod.fst hplaced).trans hen
  have hsome₂ : (jobSearchTask pre₂.job e.task).isSome = true :=
    (congrArg Prod.snd hplaced).trans hadm
  have hok₂ := hrec₂.jobsOk.ok e.job pre₂ hpre₂
  obtain ⟨p, hp⟩ := hok₂.places
  have hclears := hp.enroll_clears (hok₂.mem_of_present (fun _ => hsome₂)) hen₂ hsome₂
  obtain ⟨hok₃, hshape₃⟩ := hok₂.rehold hclears.same hclears.refines
  set pre₃ : DependJob := { pre₂ with job := jobEnroll pre₂.job e.task } with hpre₃
  unfold modifyJob at henroll
  simp only [hpre₂, Option.map_some, Option.some.injEq, ← hpre₃] at henroll
  subst henroll
  have hkept₃ : Recalculates (fun m t => m = e.job ∧ t ∈ (∅ : Set ℕ)) jobs₂ _ :=
    Recalculates.of_update hrec₂.jobsOk hpre₂ hok₃ hshape₃ (fun _ _ _ ht => ht.elim)
      (fun t _ _ _ => by
        unfold DependJob.Held
        rw [hclears.kept t (Set.notMem_empty t)])
  have hrec₃ := (hrec₂.trans hkept₃).congr (U := fun m t => m ∈ pre.jaAdSuccessorList ∧
    Reached (Function.update jobs e.job (some pre₁)) pre₁ e.task m t) (fun m t => by
      simp only [Set.mem_empty_iff_false, and_false, or_false]
      rfl)
  have hright₃ := release_ended hok hright hpre ha hends
    (hcovered.of_release srt hpre (fun h => h.1 hmode)) hrec₃
  rw [Function.update_self] at hrun
  dsimp only at hrun
  obtain ⟨all, hall, hrun⟩ := Option.bind_eq_some_iff.mp hrun
  cases all with
  | false =>
      obtain rfl := Option.some.inj hrun
      exact ⟨hrec₃.jobsOk, hright₃⟩
  | true =>
      have hnum₃ : pre₂.jobNumber = e.job := (hrec₂.jobsOk.number e.job pre₂ hpre₂).1
      obtain ⟨habsent, hlisted⟩ := releaseSuccessorJobsAd_spec srt hrec₃.jobsOk.ok
        (n := e.job) hnum₃ hpos hrun
      have hunlinked : Unlinked e.job pre₃ _ jobs' := ⟨habsent, hlisted⟩
      exact ⟨hrec₃.jobsOk.unlinked hunlinked,
        unlink_finished hright₃ hunlinked (Function.update_self ..)
          (fun x => allTasksFinished_spec srt hok₃ hfuel hall)⟩

/-- Only the last task of a job can be waited for. -/
theorem waitsFor_last (hfuel : 2 ^ 31 < fuel) (hok : pre.Ok) (hpre : jobs n = some pre)
    (hpresent : jobIsEnrolled pre.job a = true → (jobSearchTask pre.job a).isSome = true)
    (hone : jobGetJaTasks srt fuel pre.job = some 1) {suc : DependJob} {t b : ℕ}
    (hwaits : WaitsFor jobs suc t n b) : b = a := by
  obtain ⟨q, r, hq, -, -, hfin⟩ := hwaits
  obtain rfl : pre = q := Option.some.inj (hpre.symm.trans hq)
  obtain ⟨p, hp⟩ := hok.places
  have ha := hok.mem_of_present hpresent
  have hb := hok.mem_of_unfinished hfin
  have ha' : p a ≠ .deleted := by
    intro hdel
    obtain ⟨hen, hnone⟩ := (hp.deleted_iff ha).mp hdel
    have hsome := hpresent hen
    simp [hnone] at hsome
  exact hp.only_task srt hok.submit.ids_lt hfuel hone ha ha' hb (not_deleted_of_unfinished hp hb hfin)

theorem remove_right (hfuel : 2 ^ 31 < fuel) (hok : JobListOk jobs) (hright : RightHolds jobs)
    (hpre : jobs e.job = some pre)
    (hpresent : jobIsEnrolled pre.job e.task = true →
      (jobSearchTask pre.job e.task).isSome = true)
    (hcovered : e.Covered srt fuel jobs) (hmode : e.mode ≠ .finishedFailedEE)
    (hone : jobGetJaTasks srt fuel pre.job = some 1) (hunlinked : Unlinked e.job pre jobs jobs') :
    RightHolds (Function.update jobs' e.job none) := by
  intro m suc' hm hreq t ht hfin
  have hmne : m ≠ e.job := fun heq => by simp [heq] at hm
  rw [Function.update_of_ne hmne] at hm
  obtain ⟨suc, hsuc, hlink⟩ := hunlinked.before hm
  have hgone : e.job ∉ suc'.jaAdPredecessorList := by
    have hle := hok.linked e.job m pre suc hpre hsuc
    rw [← List.count_eq_zero, hlink.predecessors, count_iterate_erase, if_pos rfl]
    omega
  have hlast : ∀ s t b, WaitsFor jobs s t e.job b → b = e.task := fun _ _ _ hw =>
    waitsFor_last srt hfuel (hok.ok e.job pre hpre) hpre hpresent hone hw
  have hstill := unlink_right hright hunlinked hm hreq ht hfin (fun s hs hl hne hwaits => by
    obtain rfl : suc = s := Option.some.inj (hsuc.symm.trans hs)
    obtain ⟨k, hk, b, hb⟩ := hwaits
    by_cases hkn : k = e.job
    · subst hkn
      obtain rfl := hlast suc t b hb
      obtain ⟨l, hl'⟩ := List.exists_mem_of_ne_nil _ hne
      have hmiss : e.Misses srt fuel pre suc := by
        unfold DependEvent.Misses
        rw [if_pos ⟨hmode, hone⟩]
        exact ⟨l, hlink.mem_of_mem hl', fun heq => hgone (heq ▸ hl')⟩
      have ht₀ : t ∈ (jobGetSubmitTaskIds suc).ids := by
        rwa [show jobGetSubmitTaskIds suc = jobGetSubmitTaskIds suc' from
          (congrArg DependShape.submit hlink.shape).symm]
      obtain ⟨k', hk', b', hne', hb'⟩ := hcovered pre m suc t hpre hsuc hk ht₀
        (by rw [← hlink.finished, hfin]) hb hmiss
      refine ⟨k', hk', fun heq => hne' ?_, b', hb'⟩
      subst heq
      rw [hlast suc t b' hb']
    · exact ⟨k, hk, hkn, b, hb⟩)
  rw [hstill]
  constructor
  · rintro ⟨k, hk, b, q, r, hq, hrest⟩
    have hkn : k ≠ e.job := fun heq => hgone (heq ▸ hk)
    exact ⟨k, hk, b, q, r, by rw [Function.update_of_ne hkn, hq], hrest⟩
  · rintro ⟨k, hk, b, q, r, hq, hrest⟩
    have hkn : k ≠ e.job := fun heq => hgone (heq ▸ hk)
    rw [Function.update_of_ne hkn] at hq
    exact ⟨k, hk, b, q, r, hq, hrest⟩

theorem bury_step (hfuel : 2 ^ 31 < fuel) (hok : JobListOk jobs) (hright : RightHolds jobs)
    (hpre : jobs e.job = some pre) (hadm : e.Admissible pre) (hcovered : e.Covered srt fuel jobs)
    (hmode : e.mode ≠ .finishedFailedEE)
    (hrun : sgeBuryJob srt fuel jobs pre e.task = some jobs') :
    JobListOk jobs' ∧ RightHolds jobs' := by
  obtain ⟨hnum, hpos⟩ := hok.number e.job pre hpre
  have hpreok := hok.ok e.job pre hpre
  have hpresent : jobIsEnrolled pre.job e.task = true →
      (jobSearchTask pre.job e.task).isSome = true := by
    intro hen
    unfold DependEvent.Admissible at hadm
    rwa [if_pos hen] at hadm
  have ha := hpreok.mem_of_present hpresent
  unfold sgeBuryJob at hrun
  obtain ⟨count, hcount, hrun⟩ := Option.bind_eq_some_iff.mp hrun
  split_ifs at hrun with hone
  · obtain ⟨jobs₁, hrelease, hrun⟩ := Option.bind_eq_some_iff.mp hrun
    rw [hnum] at hrun
    obtain rfl := Option.some.inj hrun
    obtain ⟨habsent, hlisted⟩ := releaseSuccessorJobsAd_spec srt hok.ok hnum hpos hrelease
    have hunlinked : Unlinked e.job pre jobs jobs₁ := ⟨habsent, hlisted⟩
    obtain rfl : count = 1 := hone
    refine ⟨(hok.unlinked hunlinked).remove, ?_⟩
    exact remove_right srt hfuel hok hright hpre hpresent hcovered hmode hcount hunlinked
  · have hends := remove_ends hpreok hpresent
    set pre₁ : DependJob := { pre with job := removeJaTask pre.job e.task } with hpre₁
    dsimp only at hrun
    rw [hnum] at hrun
    have hrec := releaseSuccessorTasksAd_spec srt (hok.ended hpre hends) hends.ok.submit
      (by rwa [show jobGetSubmitTaskIds pre₁ = jobGetSubmitTaskIds pre from
        congrArg DependShape.submit hends.links]) hrun
    refine ⟨hrec.jobsOk, release_ended hok hright hpre ha hends
      (hcovered.of_release srt hpre (fun h => hone ?_)) hrec⟩
    exact Option.some.inj (hcount.symm.trans h.2)

theorem commit_step (hfuel : 2 ^ 31 < fuel) (hok : JobListOk jobs) (hright : RightHolds jobs)
    (hcovered : e.Covered srt fuel jobs) (hstep : e.Step srt fuel jobs jobs') :
    JobListOk jobs' ∧ RightHolds jobs' := by
  obtain ⟨pre, hpre, hadm, hrun⟩ := hstep
  cases hmode : e.mode with
  | finishedFailed =>
      rw [hmode] at hrun
      exact bury_step srt hfuel hok hright hpre hadm hcovered (by simp [hmode]) hrun
  | finishedFailedEE =>
      rw [hmode] at hrun
      exact finish_step srt hfuel hok hright hpre hadm hcovered hmode hrun
  | debitedEE =>
      rw [hmode] at hrun
      exact bury_step srt hfuel hok hright hpre hadm hcovered (by simp [hmode]) hrun

theorem init_right (hok : JobListOk jobs) {order : List ℕ}
    (horder : ∀ n jep, jobs n = some jep → jep.jaAdRequestList ≠ [] → n ∈ order)
    (hinit : order.foldlM (sgeTaskDependInit srt fuel) jobs = some jobs') :
    JobListOk jobs' ∧ RightHolds jobs' := by
  have hrec := foldlM_init_spec srt hok hinit
  refine ⟨hrec.jobsOk, fun m suc hm hreq t ht hfin => ?_⟩
  obtain ⟨suc₀, hm₀, hshape⟩ := hrec.shapes.symm.exists_of_some hm
  have hreq₀ : suc₀.jaAdRequestList ≠ [] := by
    rwa [show suc₀.jaAdRequestList = suc.jaAdRequestList from congrArg DependShape.requests hshape]
  exact hrec.right m suc hm t ht hfin ⟨horder m suc₀ hm₀ hreq₀, suc₀, hm₀, hreq₀⟩

end Steps

/-- Along every run of covered calls the hold bits stay right. -/
theorem arrayDependency_holds (srt : PSortList Range Range.min) {fuel : ℕ}
    (hfuel : 2 ^ 31 < fuel) {jobs₀ jobs₁ jobs : MasterJobList} {order : List ℕ}
    {hist : List DependEvent} (hok : JobListOk jobs₀)
    (horder : ∀ n jep, jobs₀ n = some jep → jep.jaAdRequestList ≠ [] → n ∈ order)
    (hinit : order.foldlM (sgeTaskDependInit srt fuel) jobs₀ = some jobs₁)
    (hrun : Run (fun s (e : DependEvent) s' => e.Covered srt fuel s ∧ e.Step srt fuel s s')
      jobs₁ hist jobs) : RightHolds jobs := by
  have hall := hrun.invariant (P := fun _ s => JobListOk s ∧ RightHolds s)
    (init_right srt hok horder hinit)
    (fun _ s e s' h hs => commit_step srt hfuel h.1 h.2 hs.1 hs.2)
  exact hall.2

/-- The task lists of `qsub -t 1-2`. -/
def twoTasks : Job :=
  (jobInitializeIdLists ⟨some [⟨1, 2, 1⟩], fun _ => none, [], ⟨0, 0, 0⟩⟩).1

def twoTaskJob (n : ℕ) (job : Job) (preds sucs : List ℕ) : DependJob where
  jobNumber := n
  isArray := true
  job := job
  jatStatus := fun _ => 0
  jatTaskList := fun _ => []
  jaAdRequestList := preds.map (fun _ => "job")
  jaAdPredecessorList := preds
  jaAdSuccessorList := sucs

/-- Job 3 waits for the jobs 1 and 2, and the first task of job 2 runs. -/
def twoPredecessors : MasterJobList := fun n =>
  if n = 1 then some (twoTaskJob 1 twoTasks [] [3])
  else if n = 2 then some (twoTaskJob 2 (jobEnroll twoTasks 1) [] [3])
  else if n = 3 then some (twoTaskJob 3 twoTasks [1, 2] [])
  else none

section TwoPredecessors
variable {n : ℕ} {jep : DependJob}

theorem twoTaskJob_ok {job : Job} {preds sucs : List ℕ} (hstructure : job.jaStructure = some [⟨1, 2, 1⟩])
    (hplaces : ∃ p, Refines (⟨1, 2, 1⟩ : Range).ids job p) : (twoTaskJob n job preds sucs).Ok := by
  have hsubmit : jobGetSubmitTaskIds (twoTaskJob n job preds sucs) = ⟨1, 2, 1⟩ := by
    unfold jobGetSubmitTaskIds twoTaskJob
    simp [hstructure]
  have hok : (⟨1, 2, 1⟩ : Range).Ok :=
    ⟨mem_segment_iff_mod.mpr (by decide), by norm_num, by norm_num, by norm_num⟩
  refine ⟨?_, ?_, ?_⟩
  · rw [hsubmit]
    exact hok.valid
  · rw [hsubmit]
  · rw [hsubmit]
    exact hplaces

theorem twoTasks_refines : Refines (⟨1, 2, 1⟩ : Range).ids twoTasks (fun _ => .pending 0) :=
  jobInitializeIdLists_refines
    ⟨mem_segment_iff_mod.mpr (by decide), by norm_num, by norm_num, by norm_num⟩ rfl rfl

theorem twoPredecessors_cases (h : twoPredecessors n = some jep) :
    n = 1 ∧ jep = twoTaskJob 1 twoTasks [] [3] ∨
      n = 2 ∧ jep = twoTaskJob 2 (jobEnroll twoTasks 1) [] [3] ∨
      n = 3 ∧ jep = twoTaskJob 3 twoTasks [1, 2] [] := by
  unfold twoPredecessors at h
  split_ifs at h with h₁ h₂ h₃
  · exact Or.inl ⟨h₁, (Option.some.inj h).symm⟩
  · exact Or.inr (Or.inl ⟨h₂, (Option.some.inj h).symm⟩)
  · exact Or.inr (Or.inr ⟨h₃, (Option.some.inj h).symm⟩)

theorem twoPredecessors_ok : JobListOk twoPredecessors where
  ok n jep h := by
    have hmem : 1 ∈ (⟨1, 2, 1⟩ : Range).ids := mem_segment_iff_mod.mpr (by decide)
    rcases twoPredecessors_cases h with ⟨-, rfl⟩ | ⟨-, rfl⟩ | ⟨-, rfl⟩
    · exact twoTaskJob_ok rfl ⟨_, twoTasks_refines⟩
    · exact twoTaskJob_ok rfl ⟨_, twoTasks_refines.enroll hmem (fun attr _ => by cases attr <;>
        first | rfl | contradiction)⟩
    · exact twoTaskJob_ok rfl ⟨_, twoTasks_refines⟩
  number n jep h := by
    rcases twoPredecessors_cases h with ⟨rfl, rfl⟩ | ⟨rfl, rfl⟩ | ⟨rfl, rfl⟩
    all_goals exact ⟨rfl, by norm_num⟩
  linked n m pre suc hn hm := by
    rcases twoPredecessors_cases hn with ⟨rfl, rfl⟩ | ⟨rfl, rfl⟩ | ⟨rfl, rfl⟩ <;>
    rcases twoPredecessors_cases hm with ⟨rfl, rfl⟩ | ⟨rfl, rfl⟩ | ⟨rfl, rfl⟩ <;> decide
  requested n suc h hne := by
    rcases twoPredecessors_cases h with ⟨rfl, rfl⟩ | ⟨rfl, rfl⟩ | ⟨rfl, rfl⟩
    · exact absurd rfl hne
    · exact absurd rfl hne
    · simp [twoTaskJob]
  ranged m suc hm n hn pre hpre t ht := by
    rcases twoPredecessors_cases hm with ⟨rfl, rfl⟩ | ⟨rfl, rfl⟩ | ⟨rfl, rfl⟩
    · exact absurd hn List.not_mem_nil
    · exact absurd hn List.not_mem_nil
    · obtain ⟨hlow, hup⟩ := segment_le ht
      have ht' : t = 1 ∨ t = 2 := by
        change 1 ≤ t at hlow
        change t ≤ 2 at hup
        omega
      rcases twoPredecessors_cases hpre with ⟨rfl, rfl⟩ | ⟨rfl, rfl⟩ | ⟨rfl, rfl⟩ <;>
      rcases ht' with rfl | rfl <;> decide

theorem twoPredecessors_order (n : ℕ) (jep : DependJob) (h : twoPredecessors n = some jep)
    (hreq : jep.jaAdRequestList ≠ []) : n ∈ [3] := by
  rcases twoPredecessors_cases h with ⟨-, rfl⟩ | ⟨-, rfl⟩ | ⟨rfl, rfl⟩
  · exact absurd rfl hreq
  · exact absurd rfl hreq
  · exact List.mem_singleton_self 3

end TwoPredecessors

section Calls
variable {jobs : MasterJobList}

/-- Job 3 after its setup. -/
def initThree (fuel : ℕ) : Option MasterJobList :=
  [3].foldlM (sgeTaskDependInit (PSortList.stable Range Range.min) fuel) twoPredecessors

/-- An admissible call of `sgeCommitJob` for the job with a number. -/
def commitEvent (fuel : ℕ) (jobs : MasterJobList) (e : DependEvent) : Option MasterJobList :=
  (jobs e.job).bind (fun jep => if e.Admissible jep
    then sgeCommitJob (PSortList.stable Range Range.min) fuel jobs jep e.task e.mode else none)

theorem step_of_commitEvent {fuel : ℕ} {e : DependEvent} {jobs' : MasterJobList}
    (hrun : commitEvent fuel jobs e = some jobs') :
    e.Step (PSortList.stable Range Range.min) fuel jobs jobs' := by
  obtain ⟨jep, hjep, hcommit⟩ := Option.bind_eq_some_iff.mp hrun
  split_ifs at hcommit with hadm
  exact ⟨jep, hjep, hadm, hcommit⟩

theorem covered_of_shapes (hshapes : SameShapes twoPredecessors jobs) (fuel : ℕ) :
    (⟨2, 1, .finishedFailedEE⟩ : DependEvent).Covered (PSortList.stable Range Range.min) fuel
      jobs := by
  intro pre m suc t hpre hm hmem _ _ _ hmiss
  obtain ⟨pre₀, hpre₀, hpres⟩ := hshapes.symm.exists_of_some hpre
  obtain ⟨suc₀, hsuc₀, hsucs⟩ := hshapes.symm.exists_of_some hm
  have hmem₀ : 2 ∈ suc₀.jaAdPredecessorList := by
    rwa [show suc₀.jaAdPredecessorList = suc.jaAdPredecessorList from
      congrArg DependShape.predecessors hsucs]
  have hnone : sgeTaskDependGetRange suc pre 1 = none := hmiss
  rw [← sgeTaskDependGetRange_shape hsucs hpres] at hnone
  rcases twoPredecessors_cases hpre₀ with ⟨h, rfl⟩ | ⟨-, rfl⟩ | ⟨h, rfl⟩
  · exact absurd h (by decide)
  · rcases twoPredecessors_cases hsuc₀ with ⟨-, rfl⟩ | ⟨-, rfl⟩ | ⟨-, rfl⟩
    · exact absurd hmem₀ List.not_mem_nil
    · exact absurd hmem₀ List.not_mem_nil
    · exact absurd hnone (by decide)
  · exact absurd h (by decide)

end Calls

/-- The setup of job 3 and the end of the running task. -/
theorem twoPredecessors_right : ∃ jobs₁ jobs, initThree (2 ^ 31 + 1) = some jobs₁ ∧
    commitEvent (2 ^ 31 + 1) jobs₁ ⟨2, 1, .finishedFailedEE⟩ = some jobs ∧ RightHolds jobs := by
  have hsome : ((initThree (2 ^ 31 + 1)).bind (fun s =>
      commitEvent (2 ^ 31 + 1) s ⟨2, 1, .finishedFailedEE⟩)).isSome = true := by decide +kernel
  obtain ⟨jobs, hjobs⟩ := Option.isSome_iff_exists.mp hsome
  obtain ⟨jobs₁, hinit, hcommit⟩ := Option.bind_eq_some_iff.mp hjobs
  have hshapes := (foldlM_init_spec (PSortList.stable Range Range.min) twoPredecessors_ok
    hinit).shapes
  exact ⟨jobs₁, jobs, hinit, hcommit, arrayDependency_holds (PSortList.stable Range Range.min)
    (by norm_num) twoPredecessors_ok twoPredecessors_order hinit
    (Run.nil.snoc ⟨covered_of_shapes hshapes _, step_of_commitEvent hcommit⟩)⟩

/-- Task 1 of job 3 is held, and task 1 of job 2 is finished, the only one it depends on. -/
def stuckThree (jobs : MasterJobList) : Bool :=
  (jobs 3).any (fun suc => (jobs 2).any (fun pre => decide (
    suc.jaAdRequestList ≠ [] ∧ suc.jaAdPredecessorList = [2] ∧
      jobGetSubmitTaskIds suc = ⟨1, 2, 1⟩ ∧ taskDependIsFinished suc 1 = some false ∧
      jobGetHoldState suc.job 1 &&& minusHTgtJaAd ≠ 0 ∧
      sgeTaskDependGetRange pre suc 1 = some ⟨1, 1, 1⟩ ∧ taskDependIsFinished pre 1 = some true)))

theorem not_rightHolds_of_stuckThree {jobs : MasterJobList} (h : stuckThree jobs = true) :
    ¬ RightHolds jobs := by
  intro hright
  obtain ⟨suc, hsuc, hany⟩ := (Option.any_eq_true _ _).mp h
  obtain ⟨pre, hpre, hfacts⟩ := (Option.any_eq_true _ _).mp hany
  obtain ⟨hreq, hpreds, hsubmit, hunf, hheld, hrange, hfin⟩ := of_decide_eq_true hfacts
  have hmem : 1 ∈ (jobGetSubmitTaskIds suc).ids := by
    rw [hsubmit]
    exact mem_segment_iff_mod.mpr (by decide)
  obtain ⟨n, hn, a, q, r, hq, hr, ha, hunf'⟩ := (hright 3 suc hsuc hreq 1 hmem hunf).mp hheld
  rw [hpreds, List.mem_singleton] at hn
  subst hn
  obtain rfl : pre = q := Option.some.inj (hpre.symm.trans hq)
  obtain rfl : ⟨1, 1, 1⟩ = r := Option.some.inj (hrange.symm.trans hr)
  have hlow : 1 ≤ a := (segment_le ha).1
  have hup : a ≤ 1 := (segment_le ha).2
  obtain rfl : a = 1 := by omega
  rw [hfin] at hunf'
  exact absurd (Option.some.inj hunf') (by decide)

/-- When job 1 goes away with its last task, task 1 of job 3 stays held, though it waits for
nothing any more. -/
theorem twoPredecessors_stuck : ¬ ∀ (jobs₀ jobs₁ jobs : MasterJobList) (order : List ℕ)
    (hist : List DependEvent), JobListOk jobs₀ →
    (∀ n jep, jobs₀ n = some jep → jep.jaAdRequestList ≠ [] → n ∈ order) →
    order.foldlM (sgeTaskDependInit (PSortList.stable Range Range.min) (2 ^ 31 + 1)) jobs₀ =
      some jobs₁ →
    Run (fun s (e : DependEvent) s' => e.Step (PSortList.stable Range Range.min) (2 ^ 31 + 1) s s')
      jobs₁ hist jobs → RightHolds jobs := by
  intro hclaim
  have hstuck : ((initThree (2 ^ 31 + 1)).bind (fun s => [⟨1, 2, .finishedFailed⟩,
      ⟨2, 1, .finishedFailedEE⟩, ⟨1, 1, .finishedFailed⟩].foldlM (commitEvent (2 ^ 31 + 1)) s)).any
      stuckThree = true := by decide +kernel
  obtain ⟨jobs, hjobs, hstuck⟩ := (Option.any_eq_true _ _).mp hstuck
  obtain ⟨jobs₁, hinit, hcalls⟩ := Option.bind_eq_some_iff.mp hjobs
  have hrun := (Run.of_foldlM _ hcalls).mono (fun _ _ _ hs => step_of_commitEvent hs)
  exact not_rightHolds_of_stuckThree hstuck
    (hclaim _ jobs₁ jobs [3] _ twoPredecessors_ok twoPredecessors_order hinit hrun)

end GridEngine
