import GridEngine.TaskDependHolds

/-!
# Updates and flushes in the master job list

A task waits when a job of the predecessor list has an unfinished task in the range of the task.
Whether it waits depends on the shapes of the jobs only, so that an update of one task makes the
bit of this task right and leaves all others as right or wrong as they were.
-/

namespace GridEngine
open Segments

/-- The task `t` of `suc` depends on the unfinished task `a` of the job with number `n`. -/
def WaitsFor (jobs : MasterJobList) (suc : DependJob) (t n a : ℕ) : Prop :=
  ∃ pre r, jobs n = some pre ∧ sgeTaskDependGetRange pre suc t = some r ∧ a ∈ r.ids ∧
    taskDependIsFinished pre a = some false

/-- Some job of the predecessor list has an unfinished task on which `t` depends. -/
def Waits (jobs : MasterJobList) (suc : DependJob) (t : ℕ) : Prop :=
  ∃ n ∈ suc.jaAdPredecessorList, ∃ a, WaitsFor jobs suc t n a

/-- The master lists agree up to holds. -/
def SameShapes (jobs jobs' : MasterJobList) : Prop :=
  ∀ n, (jobs' n).map DependJob.shape = (jobs n).map DependJob.shape

/-- The master lists agree up to holds and the ends of tasks. -/
def SameLinks (jobs jobs' : MasterJobList) : Prop :=
  ∀ n, (jobs' n).map DependJob.links = (jobs n).map DependJob.links

/-- What the callers provide: the links between the jobs, and ranges that are found. -/
structure JobListOk (jobs : MasterJobList) : Prop where
  ok : ∀ n jep, jobs n = some jep → jep.Ok
  number : ∀ n jep, jobs n = some jep → jep.jobNumber = n ∧ n ≠ 0
  /-- `job_suc_pre_ad` enters a successor for each entry of its predecessor list. -/
  linked : ∀ n m pre suc, jobs n = some pre → jobs m = some suc →
    suc.jaAdPredecessorList.count n ≤ pre.jaAdSuccessorList.count m
  /-- `job_verify_predecessors_ad` takes the predecessors from the requests. -/
  requested : ∀ n suc, jobs n = some suc → suc.jaAdPredecessorList ≠ [] →
    suc.jaAdRequestList ≠ []
  ranged : ∀ m suc, jobs m = some suc → ∀ n ∈ suc.jaAdPredecessorList, ∀ pre, jobs n = some pre →
    ∀ t ∈ (jobGetSubmitTaskIds suc).ids, sgeTaskDependGetRange pre suc t ≠ none

section Shapes
variable {jobs jobs' jobs'' : MasterJobList} {jep jep' suc suc' pre : DependJob} {t n m a : ℕ}

theorem SameShapes.refl : SameShapes jobs jobs := fun _ => rfl

theorem SameShapes.symm (h : SameShapes jobs jobs') : SameShapes jobs' jobs := fun n => (h n).symm

theorem SameShapes.trans (h : SameShapes jobs jobs') (h' : SameShapes jobs' jobs'') :
    SameShapes jobs jobs'' :=
  fun n => (h' n).trans (h n)

theorem SameShapes.exists_of_some (h : SameShapes jobs jobs') (hn : jobs n = some jep) :
    ∃ jep', jobs' n = some jep' ∧ jep'.shape = jep.shape := by
  have hmap := h n
  rw [hn, Option.map_some, Option.map_eq_some_iff] at hmap
  exact hmap

theorem SameShapes.update (hn : jobs n = some jep) (hshape : jep'.shape = jep.shape) :
    SameShapes jobs (Function.update jobs n (some jep')) := by
  intro m
  by_cases hm : m = n
  · subst hm
    rw [Function.update_self, hn, Option.map_some, Option.map_some, hshape]
  · rw [Function.update_of_ne hm]

theorem sgeTaskDependGetRange_shape {a b a' b' : DependJob} (ha : a'.shape = a.shape)
    (hb : b'.shape = b.shape) : sgeTaskDependGetRange a' b' t = sgeTaskDependGetRange a b t :=
  sgeTaskDependGetRange_congr (congrArg DependShape.isArray ha) (congrArg DependShape.isArray hb)
    (congrArg DependShape.submit ha) (congrArg DependShape.submit hb)

theorem finished_shape (h : jep'.shape = jep.shape) :
    taskDependIsFinished jep' t = taskDependIsFinished jep t :=
  congrFun (congrArg DependShape.finished h) t

theorem WaitsFor.congr (hjobs : SameShapes jobs jobs') (hsuc : suc'.shape = suc.shape)
    (h : WaitsFor jobs suc t n a) : WaitsFor jobs' suc' t n a := by
  obtain ⟨pre, r, hn, hr, ha, hfin⟩ := h
  obtain ⟨pre', hn', hpre⟩ := hjobs.exists_of_some hn
  refine ⟨pre', r, hn', ?_, ha, ?_⟩
  · rw [sgeTaskDependGetRange_shape hpre hsuc, hr]
  · rw [finished_shape hpre, hfin]

theorem waits_congr (hjobs : SameShapes jobs jobs') (hsuc : suc'.shape = suc.shape) :
    Waits jobs' suc' t ↔ Waits jobs suc t := by
  have hpre : suc'.jaAdPredecessorList = suc.jaAdPredecessorList :=
    congrArg DependShape.predecessors hsuc
  unfold Waits
  rw [hpre]
  constructor
  · rintro ⟨n, hn, a, ha⟩
    exact ⟨n, hn, a, ha.congr hjobs.symm hsuc.symm⟩
  · rintro ⟨n, hn, a, ha⟩
    exact ⟨n, hn, a, ha.congr hjobs hsuc⟩

theorem SameShapes.links (h : SameShapes jobs jobs') : SameLinks jobs jobs' := by
  intro n
  have hmap := congrArg (Option.map (fun s : DependShape => { s with
    finished := fun _ => none, placed := fun _ => (false, false) }))
    (h n)
  rw [Option.map_map, Option.map_map] at hmap
  exact hmap

theorem SameLinks.exists_of_some (h : SameLinks jobs jobs') (hn : jobs' n = some jep') :
    ∃ jep, jobs n = some jep ∧ jep'.links = jep.links := by
  have hmap := h n
  rw [hn, Option.map_some] at hmap
  obtain ⟨jep, hjep, heq⟩ := Option.map_eq_some_iff.mp hmap.symm
  exact ⟨jep, hjep, heq.symm⟩

theorem sgeTaskDependGetRange_links {a b a' b' : DependJob} (ha : a'.links = a.links)
    (hb : b'.links = b.links) : sgeTaskDependGetRange a' b' t = sgeTaskDependGetRange a b t :=
  sgeTaskDependGetRange_congr (congrArg DependShape.isArray ha) (congrArg DependShape.isArray hb)
    (congrArg DependShape.submit ha) (congrArg DependShape.submit hb)

/-- Only the links and the places of each job matter for what the callers provide. -/
theorem JobListOk.congr (h : JobListOk jobs) (hjobs : SameLinks jobs jobs')
    (hok : ∀ n jep, jobs' n = some jep → jep.Ok) : JobListOk jobs' where
  ok := hok
  number n jep' hn := by
    obtain ⟨jep, hn', hlinks⟩ := hjobs.exists_of_some hn
    have hnum := h.number n jep hn'
    rwa [show jep.jobNumber = jep'.jobNumber from
      congrArg DependShape.jobNumber hlinks.symm] at hnum
  linked n m pre' suc' hn hm := by
    obtain ⟨pre, hn', hpre⟩ := hjobs.exists_of_some hn
    obtain ⟨suc, hm', hsuc⟩ := hjobs.exists_of_some hm
    have hlink := h.linked n m pre suc hn' hm'
    rwa [show suc.jaAdPredecessorList = suc'.jaAdPredecessorList from
        congrArg DependShape.predecessors hsuc.symm,
      show pre.jaAdSuccessorList = pre'.jaAdSuccessorList from
        congrArg DependShape.successors hpre.symm] at hlink
  requested n suc' hn := by
    obtain ⟨suc, hn', hsuc⟩ := hjobs.exists_of_some hn
    have hreq := h.requested n suc hn'
    rwa [show suc.jaAdPredecessorList = suc'.jaAdPredecessorList from
        congrArg DependShape.predecessors hsuc.symm,
      show suc.jaAdRequestList = suc'.jaAdRequestList from
        congrArg DependShape.requests hsuc.symm] at hreq
  ranged m suc' hm n hmem pre' hn t ht := by
    obtain ⟨pre, hn', hpre⟩ := hjobs.exists_of_some hn
    obtain ⟨suc, hm', hsuc⟩ := hjobs.exists_of_some hm
    rw [sgeTaskDependGetRange_links hpre hsuc]
    apply h.ranged m suc hm' n _ pre hn' t
    · rwa [show jobGetSubmitTaskIds suc = jobGetSubmitTaskIds suc' from
        congrArg DependShape.submit hsuc.symm]
    · rwa [show suc.jaAdPredecessorList = suc'.jaAdPredecessorList from
        congrArg DependShape.predecessors hsuc.symm]

end Shapes

section OneJob
variable (srt : PSortList Range Range.min) {fuel : ℕ} {jobs : MasterJobList}
  {jep jep' pre : DependJob} {job' : Job} {r : Range} {t : ℕ} {d : Bool}

theorem taskDependIsFinished_eq : taskDependIsFinished jep t =
    if jobIsEnrolled jep.job t = false then some false
    else if (jobSearchTask jep.job t).isSome = true then
      if jep.jatStatus t ≠ jFinished then some false
      else if jep.jatTaskList t = [] then some true else none
    else some true := by
  rw [taskDependIsFinished]
  cases jobIsEnrolled jep.job t <;> cases jobSearchTask jep.job t <;> rfl

theorem DependJob.Ok.rehold (h : jep.Ok) (hsame : SameTasks jep.job job')
    (hplaces : ∃ p, Refines (jobGetSubmitTaskIds jep).ids job' p) :
    ({ jep with job := job' } : DependJob).Ok ∧
      ({ jep with job := job' } : DependJob).shape = jep.shape := by
  have hsubmit : jobGetSubmitTaskIds { jep with job := job' } = jobGetSubmitTaskIds jep := by
    unfold jobGetSubmitTaskIds
    rw [hsame.jaStructure_eq]
  have hfin : taskDependIsFinished { jep with job := job' } = taskDependIsFinished jep := by
    funext x
    rw [taskDependIsFinished_eq, taskDependIsFinished_eq, hsame.isEnrolled_eq,
      hsame.searchTask_eq]
  refine ⟨⟨?_, ?_, ?_⟩, ?_⟩
  · rw [hsubmit]
    exact h.submit
  · rw [hsubmit]
    exact h.min_pos
  · rw [hsubmit]
    exact hplaces
  · simp only [DependJob.shape, hsubmit, hfin, hsame.isEnrolled_eq, hsame.searchTask_eq]

theorem not_deleted_of_unfinished {p : ℕ → TaskPlace}
    (h : Refines (jobGetSubmitTaskIds jep).ids jep.job p) (ht : t ∈ (jobGetSubmitTaskIds jep).ids)
    (hfin : taskDependIsFinished jep t = some false) : p t ≠ .deleted := by
  intro hp
  obtain ⟨hen, hnone⟩ := (h.deleted_iff ht).mp hp
  rw [taskDependIsFinished_eq, hen, hnone] at hfin
  simp at hfin

theorem foldlM_unfinished {fin : ℕ → Option Bool} {ids : List ℕ} {b : Bool}
    (h : ids.foldlM (fun depend id => (fin id).map (fun f => depend || !f)) b = some d) :
    d = true ↔ b = true ∨ ∃ a ∈ ids, fin a = some false := by
  induction ids generalizing b with
  | nil =>
      obtain rfl : b = d := Option.some.inj h
      simp
  | cons a rest ih =>
      rw [List.foldlM_cons] at h
      obtain ⟨c, hc, hrest⟩ := Option.bind_eq_some_iff.mp h
      obtain ⟨f, hf, rfl⟩ := Option.map_eq_some_iff.mp hc
      rw [ih hrest]
      cases f <;> simp [hf]

theorem dependsInRange_spec (hr : r.Valid) (h : dependsInRange fuel pre r = some d) :
    d = true ↔ ∃ a ∈ r.ids, taskDependIsFinished pre a = some false := by
  unfold dependsInRange at h
  obtain ⟨ids, hids, hfold⟩ := Option.bind_eq_some_iff.mp h
  rw [foldlM_unfinished hfold]
  simp only [Bool.false_eq_true, false_or, mem_forIds hr hids]

theorem dependsOnList_spec (hjobs : ∀ n pre, jobs n = some pre → pre.Ok) (hok : jep.Ok)
    (ht : t ∈ (jobGetSubmitTaskIds jep).ids) {l : List ℕ}
    (hranged : ∀ n ∈ l, ∀ pre, jobs n = some pre → sgeTaskDependGetRange pre jep t ≠ none)
    (h : dependsOnList fuel jobs jep t l = some d) :
    d = true ↔ ∃ n ∈ l, ∃ a, WaitsFor jobs jep t n a := by
  induction l with
  | nil =>
      obtain rfl : false = d := Option.some.inj h
      simp
  | cons n rest ih =>
      have ih' := ih (fun m hm => hranged m (List.mem_cons_of_mem _ hm))
      rw [dependsOnList] at h
      cases hn : jobs n with
      | none =>
          rw [hn] at h
          have hnot : ∀ a, ¬ WaitsFor jobs jep t n a := by
            rintro a ⟨pre, r, hpre, -⟩
            simp [hn] at hpre
          simp [ih' h, hnot]
      | some pre =>
          simp only [hn] at h
          cases hr : sgeTaskDependGetRange pre jep t with
          | none => exact absurd hr (hranged n List.mem_cons_self pre hn)
          | some r =>
              simp only [hr] at h
              have hrok := (sgeTaskDependGetRange_spec (hjobs n pre hn).submit hok.submit ht hr).1
              obtain ⟨c, hc, hrest⟩ := Option.bind_eq_some_iff.mp h
              have hfirst : c = true ↔ ∃ a, WaitsFor jobs jep t n a := by
                rw [dependsInRange_spec hrok.valid hc]
                constructor
                · rintro ⟨a, ha, hfin⟩
                  exact ⟨a, pre, r, hn, hr, ha, hfin⟩
                · rintro ⟨a, pre', r', hn', hr', ha, hfin⟩
                  obtain rfl : pre = pre' := Option.some.inj (hn.symm.trans hn')
                  obtain rfl : r = r' := Option.some.inj (hr.symm.trans hr')
                  exact ⟨a, ha, hfin⟩
              cases c with
              | true =>
                  obtain rfl : true = d := Option.some.inj hrest
                  simp [hfirst.mp rfl]
              | false =>
                  have hnot : ∀ a, ¬ WaitsFor jobs jep t n a := fun a ha =>
                    Bool.false_ne_true (hfirst.mpr ⟨a, ha⟩)
                  simp [ih' hrest, hnot]

/-- An update of the task `t`. -/
structure Updates (jobs : MasterJobList) (jep : DependJob) (t : ℕ) (jep' : DependJob) : Prop where
  ok : jep'.Ok
  shape : jep'.shape = jep.shape
  kept : ∀ x ≠ t, jep'.Held x ↔ jep.Held x
  right : taskDependIsFinished jep t = some false → (jep'.Held t ↔ Waits jobs jep t)

theorem sgeTaskDependUpdate_spec (hjobs : ∀ n pre, jobs n = some pre → pre.Ok) (hok : jep.Ok)
    (ht : t ∈ (jobGetSubmitTaskIds jep).ids)
    (hranged : ∀ n ∈ jep.jaAdPredecessorList, ∀ pre, jobs n = some pre →
      sgeTaskDependGetRange pre jep t ≠ none)
    (h : sgeTaskDependUpdate srt fuel jobs jep t = some jep') : Updates jobs jep t jep' := by
  obtain ⟨p, hp⟩ := hok.places
  have htlt := hok.submit.ids_lt t ht
  unfold sgeTaskDependUpdate at h
  obtain ⟨fin, hfin, h⟩ := Option.bind_eq_some_iff.mp h
  cases fin with
  | true =>
      obtain rfl : jep = jep' := Option.some.inj h
      exact ⟨hok, rfl, fun _ _ => Iff.rfl, fun hfin' => by simp [hfin] at hfin'⟩
  | false =>
      simp only [Bool.false_eq_true, if_false] at h
      obtain ⟨depend, hdepend, h⟩ := Option.bind_eq_some_iff.mp h
      have hwaits := dependsOnList_spec hjobs hok ht hranged hdepend
      have hbit := adHoldState_bit (d := depend) (h := jobGetHoldState jep.job t)
      split_ifs at h with hnew
      · obtain rfl := Option.some.inj h
        obtain ⟨hok', hshape⟩ := hok.rehold (hp.sameTasks_setHold srt ht htlt)
          ⟨_, hp.setHoldState srt ht htlt⟩
        refine ⟨hok', hshape, fun x hx => ?_, fun _ => ?_⟩
        · unfold DependJob.Held
          rw [hp.holdState_other srt ht htlt hx]
        · unfold DependJob.Held Waits
          rw [hp.holdState_self srt ht htlt, if_neg (not_deleted_of_unfinished hp ht hfin),
            and_all_jaAd, hbit, hwaits]
      · obtain rfl : jep = jep' := Option.some.inj h
        refine ⟨hok, rfl, fun _ _ => Iff.rfl, fun _ => ?_⟩
        unfold DependJob.Held Waits
        rw [← hwaits, ← hbit, not_not.mp hnew]

/-- A flush of a job without predecessors leaves no unfinished task held. -/
theorem sgeTaskDependFlush_spec (hok : jep.Ok) (h : sgeTaskDependFlush srt fuel jep = some jep') :
    jep'.Ok ∧ jep'.shape = jep.shape ∧
      if jep.jaAdRequestList ≠ [] ∧ jep.jaAdPredecessorList = [] then
        ∀ t ∈ (jobGetSubmitTaskIds jep).ids, taskDependIsFinished jep t = some false → ¬ jep'.Held t
      else jep' = jep := by
  obtain ⟨p, hp⟩ := hok.places
  have hsmall := hok.submit.ids_lt
  unfold sgeTaskDependFlush at h
  simp only [List.length_pos_iff, List.length_eq_zero_iff] at h
  split_ifs at h ⊢ with hempty
  · obtain ⟨mid, hmid, rfl⟩ := Option.map_eq_some_iff.mp h
    have hfirst := flushNotEnrolled_spec srt hsmall hp hmid
    obtain ⟨q, hq⟩ := hfirst.refines
    have hsecond := flushEnrolled_clears srt hsmall hq
    have hboth := hfirst.trans hsecond
    obtain ⟨hok', hshape⟩ := hok.rehold hboth.same hboth.refines
    refine ⟨hok', hshape, fun t ht hfin => not_not.mpr ?_⟩
    by_cases hin : t ∈ ids ((jep.job.idLists .jaAHIds).getD []) ∪
        {x | x ∈ mid.jaTasks.map JaTask.taskNumber}
    · exact hboth.cleared t hin
    · obtain ⟨hlist, htask⟩ := not_or.mp hin
      have hplace := not_deleted_of_unfinished hp ht hfin
      rw [hboth.kept t hin]
      cases hpt : p t with
      | pending hold =>
          by_contra hne
          exact hlist ((hp.held_pending_iff ht hpt).mp hne)
      | enrolled =>
          have hsome := hp.jobSearchTask_isSome.mpr ⟨ht, hpt⟩
          rw [← hfirst.same.searchTask_eq, hq.jobSearchTask_isSome] at hsome
          exact absurd ((hq.tasks t).mpr hsome) htask
      | deleted => exact absurd hpt hplace
  · obtain rfl := Option.some.inj h
    exact ⟨hok, rfl, rfl⟩

end OneJob

end GridEngine
