import GridEngine.TaskDependUpdate

/-!
# The loops that release successors

A loop of updates makes the bits of the tasks it visits right and keeps all others. The loop that
takes a job off the predecessor lists of its successors flushes the lists that become empty and
keeps the holds of the other successors.
-/

namespace GridEngine
open Segments

/-- The hold bits of the tasks in `T` are right, and those of all other tasks as they were. -/
structure Recalculates (T : ℕ → ℕ → Prop) (jobs jobs' : MasterJobList) : Prop where
  shapes : SameShapes jobs jobs'
  jobsOk : JobListOk jobs'
  right : ∀ n jep, jobs' n = some jep → ∀ t ∈ (jobGetSubmitTaskIds jep).ids,
    taskDependIsFinished jep t = some false → T n t → (jep.Held t ↔ Waits jobs' jep t)
  kept : ∀ n jep jep', jobs n = some jep → jobs' n = some jep' →
    ∀ t ∈ (jobGetSubmitTaskIds jep).ids, taskDependIsFinished jep t = some false → ¬ T n t →
      (jep'.Held t ↔ jep.Held t)

/-- The task `t` of the job `m` is one that `sge_task_depend_get_range` finds for the task `a`. -/
def Reached (jobs : MasterJobList) (pre : DependJob) (a m t : ℕ) : Prop :=
  ∃ suc r, jobs m = some suc ∧ sgeTaskDependGetRange suc pre a = some r ∧ t ∈ r.ids

/-- A successor of the job `n` lost `k` entries of its list. -/
structure Unlinks (n k : ℕ) (suc suc' : DependJob) : Prop where
  ok : suc'.Ok
  shape : suc'.shape = { suc.shape with predecessors := suc'.jaAdPredecessorList }
  predecessors : suc'.jaAdPredecessorList = (fun l => l.erase n)^[k] suc.jaAdPredecessorList
  flushed : 0 < k → suc.jaAdRequestList ≠ [] → suc'.jaAdPredecessorList = [] →
    ∀ t ∈ (jobGetSubmitTaskIds suc).ids, taskDependIsFinished suc t = some false → ¬ suc'.Held t
  kept : suc'.jaAdPredecessorList ≠ [] ∨ k = 0 → ∀ t, suc'.Held t ↔ suc.Held t

section Recalculates
variable (srt : PSortList Range Range.min) {fuel : ℕ} {jobs jobs' jobs'' : MasterJobList}
  {T U : ℕ → ℕ → Prop} {jep pre : DependJob} {n t a : ℕ}

theorem Recalculates.refl (h : JobListOk jobs) : Recalculates (fun _ _ => False) jobs jobs where
  shapes := .refl
  jobsOk := h
  right _ _ _ _ _ _ hT := hT.elim
  kept n jep jep' hn hn' t _ _ _ := by
    obtain rfl : jep = jep' := Option.some.inj (hn.symm.trans hn')
    rfl

theorem Recalculates.trans (h : Recalculates T jobs jobs') (h' : Recalculates U jobs' jobs'') :
    Recalculates (fun n t => T n t ∨ U n t) jobs jobs'' where
  shapes := h.shapes.trans h'.shapes
  jobsOk := h'.jobsOk
  right n jep'' hn t ht hfin hTU := by
    by_cases hU : U n t
    · exact h'.right n jep'' hn t ht hfin hU
    · obtain ⟨jep', hn', hshape⟩ := h'.shapes.symm.exists_of_some hn
      have ht' : t ∈ (jobGetSubmitTaskIds jep').ids := by
        rwa [show jobGetSubmitTaskIds jep' = jobGetSubmitTaskIds jep'' from
          congrArg DependShape.submit hshape]
      have hfin' : taskDependIsFinished jep' t = some false := by
        rw [finished_shape hshape, hfin]
      rw [h'.kept n jep' jep'' hn' hn t ht' hfin' hU,
        h.right n jep' hn' t ht' hfin' (hTU.resolve_right hU), waits_congr h'.shapes hshape.symm]
  kept n jep jep'' hn hn'' t ht hfin hTU := by
    obtain ⟨hT, hU⟩ := not_or.mp hTU
    obtain ⟨jep', hn', hshape⟩ := h.shapes.exists_of_some hn
    have ht' : t ∈ (jobGetSubmitTaskIds jep').ids := by
      rwa [show jobGetSubmitTaskIds jep' = jobGetSubmitTaskIds jep from
        congrArg DependShape.submit hshape]
    rw [h'.kept n jep' jep'' hn' hn'' t ht' (by rw [finished_shape hshape, hfin]) hU,
      h.kept n jep jep' hn hn' t ht hfin hT]

theorem Recalculates.congr (h : Recalculates T jobs jobs') (hTU : ∀ n t, T n t ↔ U n t) :
    Recalculates U jobs jobs' := by
  obtain rfl : T = U := by
    funext n t
    exact propext (hTU n t)
  exact h

theorem Recalculates.of_none (h : JobListOk jobs) (hn : jobs n = none) (S : Set ℕ) :
    Recalculates (fun m t => m = n ∧ t ∈ S) jobs jobs where
  shapes := .refl
  jobsOk := h
  right m jep hm t _ _ hT := by
    obtain ⟨rfl, -⟩ := hT
    simp [hn] at hm
  kept m jep jep' hm hm' t _ _ _ := by
    obtain rfl : jep = jep' := Option.some.inj (hm.symm.trans hm')
    rfl

theorem Recalculates.of_update {jep' : DependJob} {S : Set ℕ} (h : JobListOk jobs)
    (hn : jobs n = some jep) (hok : jep'.Ok) (hshape : jep'.shape = jep.shape)
    (hright : ∀ t ∈ (jobGetSubmitTaskIds jep).ids, taskDependIsFinished jep t = some false →
      t ∈ S → (jep'.Held t ↔ Waits jobs jep t))
    (hkept : ∀ t ∈ (jobGetSubmitTaskIds jep).ids, taskDependIsFinished jep t = some false →
      t ∉ S → (jep'.Held t ↔ jep.Held t)) :
    Recalculates (fun m t => m = n ∧ t ∈ S) jobs (Function.update jobs n (some jep')) := by
  have hshapes := SameShapes.update hn hshape
  have hoks : ∀ m q, Function.update jobs n (some jep') m = some q → q.Ok := by
    intro m q hm
    by_cases hmn : m = n
    · rw [hmn, Function.update_self] at hm
      exact Option.some.inj hm ▸ hok
    · rw [Function.update_of_ne hmn] at hm
      exact h.ok m q hm
  refine ⟨hshapes, h.congr hshapes.links hoks, fun m q hm t ht hfin hT => ?_,
    fun m q q' hm hm' t ht hfin hT => ?_⟩
  · obtain ⟨rfl, hS⟩ := hT
    rw [Function.update_self] at hm
    obtain rfl := Option.some.inj hm
    rw [waits_congr hshapes hshape]
    apply hright t _ _ hS
    · rwa [show jobGetSubmitTaskIds jep = jobGetSubmitTaskIds jep' from
        congrArg DependShape.submit hshape.symm]
    · rw [finished_shape hshape.symm, hfin]
  · by_cases hmn : m = n
    · subst hmn
      rw [Function.update_self] at hm'
      obtain rfl := Option.some.inj hm'
      obtain rfl : jep = q := Option.some.inj (hn.symm.trans hm)
      exact hkept t ht hfin (fun hS => hT ⟨rfl, hS⟩)
    · rw [Function.update_of_ne hmn] at hm'
      obtain rfl : q = q' := Option.some.inj (hm.symm.trans hm')
      rfl

theorem modifyJob_update_spec (h : JobListOk jobs)
    (ht : ∀ jep, jobs n = some jep → t ∈ (jobGetSubmitTaskIds jep).ids)
    (hrun : modifyJob jobs n (fun jep => sgeTaskDependUpdate srt fuel jobs jep t) = some jobs') :
    Recalculates (fun m x => m = n ∧ x ∈ ({t} : Set ℕ)) jobs jobs' := by
  unfold modifyJob at hrun
  cases hn : jobs n with
  | none =>
      rw [hn] at hrun
      obtain rfl : jobs = jobs' := Option.some.inj hrun
      exact .of_none h hn {t}
  | some jep =>
      simp only [hn] at hrun
      obtain ⟨jep', hupd, rfl⟩ := Option.map_eq_some_iff.mp hrun
      have hspec := sgeTaskDependUpdate_spec srt h.ok (h.ok n jep hn) (ht jep hn)
        (fun m hm pre hpre => h.ranged n jep hn m hm pre hpre t (ht jep hn)) hupd
      apply Recalculates.of_update h hn hspec.ok hspec.shape
      · intro x _ hfin hx
        obtain rfl : x = t := hx
        exact hspec.right hfin
      · intro x _ _ hx
        exact hspec.kept x hx

theorem foldlM_update_spec (h : JobListOk jobs) {is : List ℕ}
    (his : ∀ x ∈ is, ∀ jep, jobs n = some jep → x ∈ (jobGetSubmitTaskIds jep).ids)
    (hrun : is.foldlM (fun jobs id => modifyJob jobs n (fun jep =>
      sgeTaskDependUpdate srt fuel jobs jep id)) jobs = some jobs') :
    Recalculates (fun m x => m = n ∧ x ∈ is) jobs jobs' := by
  induction is generalizing jobs with
  | nil =>
      obtain rfl : jobs = jobs' := Option.some.inj hrun
      exact (Recalculates.refl h).congr (by simp)
  | cons x rest ih =>
      rw [List.foldlM_cons] at hrun
      obtain ⟨mid, hmid, hrest⟩ := Option.bind_eq_some_iff.mp hrun
      have hfirst := modifyJob_update_spec srt h (fun jep hn => his x List.mem_cons_self jep hn) hmid
      have hlast := ih hfirst.jobsOk (fun y hy jep hn => by
        obtain ⟨jep', hn', hshape⟩ := hfirst.shapes.symm.exists_of_some hn
        rw [show jobGetSubmitTaskIds jep = jobGetSubmitTaskIds jep' from
          congrArg DependShape.submit hshape.symm]
        exact his y (List.mem_cons_of_mem _ hy) jep' hn') hrest
      apply (hfirst.trans hlast).congr
      intro m y
      rw [List.mem_cons, Set.mem_singleton_iff]
      tauto

theorem reached_congr {m : ℕ} (h : SameShapes jobs jobs') :
    Reached jobs' pre a m t ↔ Reached jobs pre a m t := by
  constructor
  · rintro ⟨suc', r, hm, hr, ht⟩
    obtain ⟨suc, hm', hshape⟩ := h.symm.exists_of_some hm
    exact ⟨suc, r, hm', by rw [sgeTaskDependGetRange_shape hshape rfl, hr], ht⟩
  · rintro ⟨suc, r, hm, hr, ht⟩
    obtain ⟨suc', hm', hshape⟩ := h.exists_of_some hm
    exact ⟨suc', r, hm', by rw [sgeTaskDependGetRange_shape hshape rfl, hr], ht⟩

theorem releaseTasks_spec {jid : ℕ} (h : JobListOk jobs)
    (hpre : (jobGetSubmitTaskIds pre).Valid) (ha : a ∈ (jobGetSubmitTaskIds pre).ids)
    (hrun : (match jobs jid with
      | none => some jobs
      | some sucJep =>
          match sgeTaskDependGetRange sucJep pre a with
          | none => some jobs
          | some sucRange => do
              let ids ← forIds fuel sucRange.min sucRange.max sucRange.step
              ids.foldlM (fun jobs id => modifyJob jobs jid (fun sucJep =>
                sgeTaskDependUpdate srt fuel jobs sucJep id)) jobs) = some jobs') :
    Recalculates (fun m t => m = jid ∧ Reached jobs pre a m t) jobs jobs' := by
  cases hn : jobs jid with
  | none =>
      rw [hn] at hrun
      obtain rfl : jobs = jobs' := Option.some.inj hrun
      apply (Recalculates.refl h).congr
      rintro m t
      rw [false_iff]
      rintro ⟨rfl, suc, r, hsuc, -⟩
      simp [hn] at hsuc
  | some suc =>
      simp only [hn] at hrun
      cases hr : sgeTaskDependGetRange suc pre a with
      | none =>
          rw [hr] at hrun
          obtain rfl : jobs = jobs' := Option.some.inj hrun
          apply (Recalculates.refl h).congr
          rintro m t
          rw [false_iff]
          rintro ⟨rfl, suc', r, hsuc, hr', -⟩
          obtain rfl : suc = suc' := Option.some.inj (hn.symm.trans hsuc)
          simp [hr] at hr'
      | some r =>
          simp only [hr] at hrun
          obtain ⟨is, his, hloop⟩ := Option.bind_eq_some_iff.mp hrun
          have hspec := sgeTaskDependGetRange_spec (h.ok jid suc hn).submit hpre ha hr
          have hmem : ∀ x, x ∈ is ↔ x ∈ r.ids := fun x => mem_forIds hspec.1.valid his
          have hfold := foldlM_update_spec srt h (fun x hx suc' hn' => by
            obtain rfl : suc = suc' := Option.some.inj (hn.symm.trans hn')
            exact ((hspec.2 x).mp ((hmem x).mp hx)).1) hloop
          apply hfold.congr
          intro m t
          rw [hmem]
          constructor
          · rintro ⟨rfl, ht⟩
            exact ⟨rfl, suc, r, hn, hr, ht⟩
          · rintro ⟨rfl, suc', r', hn', hr', ht⟩
            obtain rfl : suc = suc' := Option.some.inj (hn.symm.trans hn')
            obtain rfl : r = r' := Option.some.inj (hr.symm.trans hr')
            exact ⟨rfl, ht⟩

/-- `release_successor_tasks_ad` recalculates the tasks it finds in the listed successors. -/
theorem releaseSuccessorTasksAd_spec (h : JobListOk jobs)
    (hpre : (jobGetSubmitTaskIds pre).Valid) (ha : a ∈ (jobGetSubmitTaskIds pre).ids)
    (hrun : releaseSuccessorTasksAd srt fuel jobs pre a = some jobs') :
    Recalculates (fun m t => m ∈ pre.jaAdSuccessorList ∧ Reached jobs pre a m t) jobs jobs' := by
  unfold releaseSuccessorTasksAd at hrun
  generalize pre.jaAdSuccessorList = l at hrun ⊢
  induction l generalizing jobs with
  | nil =>
      obtain rfl : jobs = jobs' := Option.some.inj hrun
      exact (Recalculates.refl h).congr (by simp)
  | cons jid rest ih =>
      rw [List.foldlM_cons] at hrun
      obtain ⟨mid, hmid, hrest⟩ := Option.bind_eq_some_iff.mp hrun
      have hfirst := releaseTasks_spec srt h hpre ha hmid
      have hlast := ih hfirst.jobsOk hrest
      apply (hfirst.trans hlast).congr
      intro m t
      rw [reached_congr hfirst.shapes, List.mem_cons]
      tauto

/-- `sge_task_depend_init` makes the bits of all tasks of its job right. -/
theorem sgeTaskDependInit_spec (h : JobListOk jobs)
    (hrun : sgeTaskDependInit srt fuel jobs n = some jobs') :
    Recalculates (fun m _ => m = n ∧ ∃ jep, jobs n = some jep ∧ jep.jaAdRequestList ≠ [])
      jobs jobs' := by
  unfold sgeTaskDependInit at hrun
  cases hn : jobs n with
  | none =>
      rw [hn] at hrun
      obtain rfl : jobs = jobs' := Option.some.inj hrun
      exact (Recalculates.refl h).congr (by simp)
  | some jep =>
      simp only [hn, List.length_pos_iff, List.length_eq_zero_iff] at hrun
      split_ifs at hrun with hreq hpred
      · unfold modifyJob at hrun
        simp only [hn] at hrun
        obtain ⟨jep', hflush, rfl⟩ := Option.map_eq_some_iff.mp hrun
        obtain ⟨hok, hshape, hheld⟩ := sgeTaskDependFlush_spec srt (h.ok n jep hn) hflush
        rw [if_pos ⟨hreq, hpred⟩] at hheld
        have hupd := @Recalculates.of_update jobs jep n jep' Set.univ h hn hok hshape
          (fun t ht hfin _ => by
            have hnot : ¬ Waits jobs jep t := by
              rintro ⟨m, hm, -⟩
              simp [hpred] at hm
            simp only [hheld t ht hfin, hnot])
          (fun t _ _ ht => absurd (Set.mem_univ t) ht)
        apply hupd.congr
        simp [hreq]
      · obtain ⟨is, his, hloop⟩ := Option.bind_eq_some_iff.mp hrun
        have hmem : ∀ x, x ∈ is ↔ x ∈ (jobGetSubmitTaskIds jep).ids :=
          fun x => mem_forIds (h.ok n jep hn).submit his
        have hfold := foldlM_update_spec srt h (fun x hx jep' hn' => by
          obtain rfl : jep = jep' := Option.some.inj (hn.symm.trans hn')
          exact (hmem x).mp hx) hloop
        refine ⟨hfold.shapes, hfold.jobsOk, fun m q hm t ht hfin hT => ?_,
          fun m q q' hm hm' t ht hfin hT => ?_⟩
        · obtain ⟨rfl, -⟩ := hT
          obtain ⟨jep', hn', hshape⟩ := hfold.shapes.exists_of_some hn
          obtain rfl : q = jep' := Option.some.inj (hm.symm.trans hn')
          apply hfold.right m q hm t ht hfin
          rw [show jobGetSubmitTaskIds q = jobGetSubmitTaskIds jep from
            congrArg DependShape.submit hshape] at ht
          exact ⟨rfl, (hmem t).mpr ht⟩
        · apply hfold.kept m q q' hm hm' t ht hfin
          rintro ⟨rfl, -⟩
          exact hT ⟨rfl, jep, rfl, hreq⟩
      · obtain rfl : jobs = jobs' := Option.some.inj hrun
        apply (Recalculates.refl h).congr
        intro m t
        simp [not_not.mp hreq]

theorem foldlM_init_spec (h : JobListOk jobs) {order : List ℕ}
    (hrun : order.foldlM (sgeTaskDependInit srt fuel) jobs = some jobs') :
    Recalculates (fun m _ => m ∈ order ∧ ∃ jep, jobs m = some jep ∧ jep.jaAdRequestList ≠ [])
      jobs jobs' := by
  induction order generalizing jobs with
  | nil =>
      obtain rfl : jobs = jobs' := Option.some.inj hrun
      exact (Recalculates.refl h).congr (by simp)
  | cons n rest ih =>
      rw [List.foldlM_cons] at hrun
      obtain ⟨mid, hmid, hrest⟩ := Option.bind_eq_some_iff.mp hrun
      have hfirst := sgeTaskDependInit_spec srt h hmid
      have hlast := ih hfirst.jobsOk hrest
      apply (hfirst.trans hlast).congr
      intro m t
      have hreq : (∃ jep, mid m = some jep ∧ jep.jaAdRequestList ≠ []) ↔
          ∃ jep, jobs m = some jep ∧ jep.jaAdRequestList ≠ [] := by
        constructor
        · rintro ⟨jep, hm, hne⟩
          obtain ⟨jep', hm', hshape⟩ := hfirst.shapes.symm.exists_of_some hm
          exact ⟨jep', hm', by rwa [show jep'.jaAdRequestList = jep.jaAdRequestList from
            congrArg DependShape.requests hshape]⟩
        · rintro ⟨jep, hm, hne⟩
          obtain ⟨jep', hm', hshape⟩ := hfirst.shapes.exists_of_some hm
          exact ⟨jep', hm', by rwa [show jep'.jaAdRequestList = jep.jaAdRequestList from
            congrArg DependShape.requests hshape]⟩
      rw [hreq, List.mem_cons]
      constructor
      · rintro (⟨rfl, hm⟩ | ⟨hm, hjep⟩)
        · exact ⟨Or.inl rfl, hm⟩
        · exact ⟨Or.inr hm, hjep⟩
      · rintro ⟨rfl | hm, hjep⟩
        · exact Or.inl ⟨rfl, hjep⟩
        · exact Or.inr ⟨hm, hjep⟩

end Recalculates

section Unlinks
variable (srt : PSortList Range Range.min) {fuel : ℕ} {jobs jobs' : MasterJobList}
  {suc suc' suc'' pre : DependJob} {n m k j : ℕ}

theorem iterate_erase_nil (n k : ℕ) : (fun l : List ℕ => l.erase n)^[k] [] = [] := by
  induction k with
  | zero => rfl
  | succ k ih => rw [Function.iterate_succ_apply, List.erase_nil, ih]

theorem count_iterate_erase (l : List ℕ) (n k x : ℕ) :
    ((fun l : List ℕ => l.erase n)^[k] l).count x =
      if x = n then l.count n - k else l.count x := by
  induction k generalizing l with
  | zero => simp +contextual
  | succ k ih =>
      rw [Function.iterate_succ_apply, ih]
      split_ifs with hx
      · rw [List.count_erase_self]
        omega
      · rw [List.count_erase_of_ne hx]

theorem mem_iterate_erase {l : List ℕ} {x : ℕ} (hx : x ≠ n) :
    x ∈ (fun l : List ℕ => l.erase n)^[k] l ↔ x ∈ l := by
  rw [← List.count_pos_iff, count_iterate_erase, if_neg hx, List.count_pos_iff]

theorem Unlinks.refl (hok : suc.Ok) : Unlinks n 0 suc suc :=
  ⟨hok, rfl, rfl, fun h => absurd h (lt_irrefl 0), fun _ _ => Iff.rfl⟩

theorem Unlinks.trans (h : Unlinks n k suc suc') (h' : Unlinks n j suc' suc'') :
    Unlinks n (k + j) suc suc'' := by
  have hempty : suc'.jaAdPredecessorList = [] → suc''.jaAdPredecessorList = [] := by
    intro hnil
    rw [h'.predecessors, hnil, iterate_erase_nil]
  have hfin : ∀ t, taskDependIsFinished suc' t = taskDependIsFinished suc t := fun t =>
    congrFun (congrArg DependShape.finished h.shape) t
  have hsubmit : jobGetSubmitTaskIds suc' = jobGetSubmitTaskIds suc :=
    congrArg DependShape.submit h.shape
  have hreq : suc'.jaAdRequestList = suc.jaAdRequestList := congrArg DependShape.requests h.shape
  refine ⟨h'.ok, ?_, ?_, fun hpos hne hnil t ht hunf => ?_, fun hcase t => ?_⟩
  · rw [h'.shape, h.shape]
  · rw [h'.predecessors, h.predecessors, Nat.add_comm, Function.iterate_add_apply]
  · by_cases hj : 0 < j
    · exact h'.flushed hj (hreq ▸ hne) hnil t (hsubmit ▸ ht) (by rw [hfin, hunf])
    · obtain rfl : j = 0 := by omega
      have hnil' : suc'.jaAdPredecessorList = [] := h'.predecessors.symm.trans hnil
      rw [h'.kept (Or.inr rfl) t]
      exact h.flushed hpos hne hnil' t ht hunf
  · rcases hcase with hne | hzero
    · have hne' : suc'.jaAdPredecessorList ≠ [] := fun hnil => hne (hempty hnil)
      rw [h'.kept (Or.inl hne) t, h.kept (Or.inl hne') t]
    · rw [h'.kept (Or.inr (by omega)) t, h.kept (Or.inr (by omega)) t]

/-- One round of `release_successor_jobs_ad`. -/
theorem unlink_spec (hok : suc.Ok) (hn : pre.jobNumber = n) (hpos : n ≠ 0)
    (hrun : (if pre.jobNumber = 0 then some suc
      else sgeTaskDependFlush srt fuel { suc with
        jaAdPredecessorList := suc.jaAdPredecessorList.erase pre.jobNumber }) = some suc') :
    Unlinks n 1 suc suc' := by
  rw [hn, if_neg hpos] at hrun
  have hok' : ({ suc with
      jaAdPredecessorList := suc.jaAdPredecessorList.erase n } : DependJob).Ok :=
    ⟨hok.submit, hok.min_pos, hok.places⟩
  obtain ⟨hok'', hshape, hheld⟩ := sgeTaskDependFlush_spec srt hok' hrun
  have hpred : suc'.jaAdPredecessorList = suc.jaAdPredecessorList.erase n :=
    congrArg DependShape.predecessors hshape
  refine ⟨hok'', ?_, hpred, fun _ hreq hnil t ht hfin => ?_, fun hcase t => ?_⟩
  · rw [hshape, hpred]
    rfl
  · rw [if_pos ⟨hreq, hpred.symm.trans hnil⟩] at hheld
    exact hheld t ht hfin
  · have hne : suc.jaAdPredecessorList.erase n ≠ [] := hpred ▸ hcase.resolve_right (by omega)
    rw [if_neg (fun h => hne h.2)] at hheld
    rw [hheld]
    rfl

/-- `release_successor_jobs_ad` unlinks every successor as often as it is listed. -/
theorem releaseSuccessorJobsAd_spec (hoks : ∀ m suc, jobs m = some suc → suc.Ok)
    (hn : pre.jobNumber = n) (hpos : n ≠ 0)
    (hrun : releaseSuccessorJobsAd srt fuel jobs pre = some jobs') :
    (∀ m, jobs m = none → jobs' m = none) ∧ ∀ m suc, jobs m = some suc →
      ∃ suc', jobs' m = some suc' ∧ Unlinks n (pre.jaAdSuccessorList.count m) suc suc' := by
  unfold releaseSuccessorJobsAd at hrun
  generalize pre.jaAdSuccessorList = l at hrun ⊢
  induction l generalizing jobs with
  | nil =>
      obtain rfl : jobs = jobs' := Option.some.inj hrun
      exact ⟨fun _ hm => hm, fun m suc hm => ⟨suc, hm, .refl (hoks m suc hm)⟩⟩
  | cons jid rest ih =>
      rw [List.foldlM_cons] at hrun
      obtain ⟨mid, hmid, hrest⟩ := Option.bind_eq_some_iff.mp hrun
      have hfirst : (∀ m, jobs m = none → mid m = none) ∧ ∀ m suc, jobs m = some suc →
          ∃ suc', mid m = some suc' ∧ Unlinks n (if m = jid then 1 else 0) suc suc' := by
        unfold modifyJob at hmid
        cases hjid : jobs jid with
        | none =>
            rw [hjid] at hmid
            obtain rfl : jobs = mid := Option.some.inj hmid
            refine ⟨fun _ hm => hm, fun m suc hm => ⟨suc, hm, ?_⟩⟩
            rw [if_neg (fun heq => by simp [heq, hjid] at hm)]
            exact .refl (hoks m suc hm)
        | some suc₀ =>
            simp only [hjid] at hmid
            obtain ⟨suc₁, hsuc₁, rfl⟩ := Option.map_eq_some_iff.mp hmid
            have hone := unlink_spec srt (hoks jid suc₀ hjid) hn hpos hsuc₁
            refine ⟨fun m hm => ?_, fun m suc hm => ?_⟩
            · rwa [Function.update_of_ne (fun heq => by simp [heq, hjid] at hm)]
            · by_cases hmj : m = jid
              · subst hmj
                obtain rfl : suc₀ = suc := Option.some.inj (hjid.symm.trans hm)
                exact ⟨suc₁, Function.update_self .., by simpa using hone⟩
              · rw [Function.update_of_ne hmj, if_neg hmj]
                exact ⟨suc, hm, .refl (hoks m suc hm)⟩
      have hoks' : ∀ m suc, mid m = some suc → suc.Ok := by
        intro m suc' hm'
        cases hm : jobs m with
        | none => simp [hfirst.1 m hm] at hm'
        | some suc =>
            obtain ⟨suc₁, hsuc₁, hlink⟩ := hfirst.2 m suc hm
            obtain rfl : suc₁ = suc' := Option.some.inj (hsuc₁.symm.trans hm')
            exact hlink.ok
      obtain ⟨hnone, hsome⟩ := ih hoks' hrest
      refine ⟨fun m hm => hnone m (hfirst.1 m hm), fun m suc hm => ?_⟩
      obtain ⟨suc₁, hsuc₁, hlink₁⟩ := hfirst.2 m suc hm
      obtain ⟨suc₂, hsuc₂, hlink₂⟩ := hsome m suc₁ hsuc₁
      have hcount : (jid :: rest).count m = (if m = jid then 1 else 0) + rest.count m := by
        by_cases hmj : m = jid
        · subst hmj
          rw [List.count_cons_self, if_pos rfl, Nat.add_comm]
        · rw [List.count_cons_of_ne (Ne.symm hmj), if_neg hmj, Nat.zero_add]
      exact ⟨suc₂, hsuc₂, hcount ▸ hlink₁.trans hlink₂⟩

end Unlinks

end GridEngine
