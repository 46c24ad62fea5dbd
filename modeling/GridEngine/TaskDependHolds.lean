import GridEngine.TaskDepend

/-!
# The array dependency hold of one job

Setting and clearing `MINUS_H_TGT_JA_AD` leaves everything else that array dependencies read as
it was: the shape of a job. An update of a task sets its bit to the result of the look at the
predecessors, and a flush clears the bit of every task.
-/

namespace GridEngine
open Segments

/-- What array dependencies read of a job besides its hold states. -/
structure DependShape where
  jobNumber : ℕ
  isArray : Bool
  submit : Range
  finished : ℕ → Option Bool
  /-- Whether a task is enrolled and whether it has an element. -/
  placed : ℕ → Bool × Bool
  requests : List String
  predecessors : List ℕ
  successors : List ℕ

def DependJob.shape (jep : DependJob) : DependShape where
  jobNumber := jep.jobNumber
  isArray := jep.isArray
  submit := jobGetSubmitTaskIds jep
  finished := taskDependIsFinished jep
  placed := fun x => (jobIsEnrolled jep.job x, (jobSearchTask jep.job x).isSome)
  requests := jep.jaAdRequestList
  predecessors := jep.jaAdPredecessorList
  successors := jep.jaAdSuccessorList

/-- The part of the shape that no task can change. -/
def DependJob.links (jep : DependJob) : DependShape :=
  { jep.shape with finished := fun _ => none, placed := fun _ => (false, false) }

/-- `MINUS_H_TGT_JA_AD` is set for a task. -/
def DependJob.Held (jep : DependJob) (t : ℕ) : Prop :=
  jobGetHoldState jep.job t &&& minusHTgtJaAd ≠ 0

/-- Two states of a job that differ in holds only. -/
structure SameTasks (job job' : Job) : Prop where
  jaStructure_eq : job'.jaStructure = job.jaStructure
  isEnrolled_eq : ∀ x, jobIsEnrolled job' x = jobIsEnrolled job x
  searchTask_eq : ∀ x, (jobSearchTask job' x).isSome = (jobSearchTask job x).isSome

section SetHold
variable (srt : PSortList Range Range.min) {job job' job'' : Job} {p p' : ℕ → TaskPlace}
  {D S T : Set ℕ} {id st x : ℕ}

theorem SameTasks.refl : SameTasks job job := ⟨rfl, fun _ => rfl, fun _ => rfl⟩

theorem SameTasks.trans (h : SameTasks job job') (h' : SameTasks job' job'') :
    SameTasks job job'' :=
  ⟨h'.jaStructure_eq.trans h.jaStructure_eq,
    fun x => (h'.isEnrolled_eq x).trans (h.isEnrolled_eq x),
    fun x => (h'.searchTask_eq x).trans (h.searchTask_eq x)⟩

theorem Refines.sameTasks (h : Refines D job p) (h' : Refines D job' p')
    (hstructure : job'.jaStructure = job.jaStructure)
    (hpending : ∀ x, (∃ hold, p' x = .pending hold) ↔ ∃ hold, p x = .pending hold)
    (henrolled : ∀ x, p' x = .enrolled ↔ p x = .enrolled) : SameTasks job job' := by
  refine ⟨hstructure, fun x => ?_, fun x => ?_⟩
  · have hiff : jobIsEnrolled job' x = false ↔ jobIsEnrolled job x = false := by
      rw [h.jobIsEnrolled_iff, h'.jobIsEnrolled_iff, hpending]
    cases hx : jobIsEnrolled job x with
    | false => exact hiff.mpr hx
    | true => simpa [hx] using hiff
  · rw [Bool.eq_iff_iff, h.jobSearchTask_isSome, h'.jobSearchTask_isSome, henrolled]

theorem jobSetHoldState_jaStructure :
    (jobSetHoldState srt job id st).jaStructure = job.jaStructure := by
  unfold jobSetHoldState
  split_ifs <;> rfl

theorem Refines.sameTasks_setHold (h : Refines D job p) (hD : id ∈ D) (hid : id < 2 ^ 31) :
    SameTasks job (jobSetHoldState srt job id st) := by
  apply h.sameTasks (h.setHoldState srt hD hid) (jobSetHoldState_jaStructure srt)
  · intro x
    cases hp : p id with
    | pending hold =>
        by_cases hx : x = id
        · subst hx
          simp [placeStep, hp]
        · simp [placeStep, hp, hx]
    | enrolled => simp [placeStep, hp]
    | deleted => simp [placeStep, hp]
  · intro x
    cases hp : p id with
    | pending hold =>
        by_cases hx : x = id
        · subst hx
          simp [placeStep, hp]
        · simp [placeStep, hp, hx]
    | enrolled => simp [placeStep, hp]
    | deleted => simp [placeStep, hp]

theorem Refines.holdState_other (h : Refines D job p) (hD : id ∈ D) (hid : id < 2 ^ 31)
    (hx : x ≠ id) :
    jobGetHoldState (jobSetHoldState srt job id st) x = jobGetHoldState job x := by
  have h' : Refines D (jobSetHoldState srt job id st) (placeStep p (.setHoldState id st)) :=
    h.setHoldState srt hD hid
  have hx' : x ≠ (JobOp.setHoldState id st).id := hx
  refine jobGetHoldState_congr (fun attr => ?_) (jobSearchTask_apply srt hx')
  rw [Bool.eq_iff_iff, h'.inIdList_iff, h.inIdList_iff, placeStep_other hx']

theorem find?_updateTask_self (tasks : List JaTask) :
    (updateTask (JaTask.setHold st) id tasks).find? (fun t => t.taskNumber == id) =
      (tasks.find? (fun t => t.taskNumber == id)).map (JaTask.setHold st) := by
  induction tasks with
  | nil => rfl
  | cons t rest ih =>
      rw [updateTask]
      split_ifs with ht
      · have ht' : (t.setHold st).taskNumber = id := ht
        rw [List.find?_cons_of_pos (by simpa using ht'), List.find?_cons_of_pos (by simpa using ht)]
        rfl
      · rw [List.find?_cons_of_neg (by simpa using ht), List.find?_cons_of_neg (by simpa using ht),
          ih]

theorem Refines.deleted_iff (h : Refines D job p) (hD : id ∈ D) :
    p id = .deleted ↔ jobIsEnrolled job id = true ∧ jobSearchTask job id = none := by
  have hen : jobIsEnrolled job id = false ↔ _ := h.jobIsEnrolled_iff
  have hsome : (jobSearchTask job id).isSome = true ↔ _ := h.jobSearchTask_isSome
  rw [← Option.not_isSome_iff_eq_none, hsome, ← Bool.not_eq_false, hen]
  cases p id <;> simp [hD]

theorem Refines.holdState_self (h : Refines D job p) (hD : id ∈ D) (hid : id < 2 ^ 31) :
    jobGetHoldState (jobSetHoldState srt job id st) id =
      if p id = .deleted then 0 else st &&& minusHTgtAll := by
  have h' : Refines D (jobSetHoldState srt job id st) (placeStep p (.setHoldState id st)) :=
    h.setHoldState srt hD hid
  cases hp : p id with
  | pending hold =>
      simp only [reduceCtorEq, if_false]
      exact h'.jobGetHoldState_pending hD (by simp [placeStep, hp])
  | enrolled =>
      have hen : jobIsEnrolled job id = true := by
        have hiff : jobIsEnrolled job id = false ↔ _ := h.jobIsEnrolled_iff
        simpa [hp] using hiff
      have hset : jobSetHoldState srt job id st =
          { job with jaTasks := updateTask (JaTask.setHold st) id job.jaTasks } := by
        simp [jobSetHoldState, hen]
      have hen' : jobIsEnrolled (jobSetHoldState srt job id st) id = true := by
        rw [(h.sameTasks_setHold srt hD hid).isEnrolled_eq, hen]
      obtain ⟨t, ht⟩ := Option.isSome_iff_exists.mp (h.jobSearchTask_isSome.mpr ⟨hD, hp⟩)
      have hfind : jobSearchTask (jobSetHoldState srt job id st) id = some (t.setHold st) := by
        rw [hset, jobSearchTask, find?_updateTask_self]
        exact congrArg (Option.map (JaTask.setHold st)) ht
      rw [jobGetHoldState, hen', hfind]
      rfl
  | deleted =>
      obtain ⟨hen, hnone⟩ := (h.deleted_iff hD).mp hp
      have hsame : SameTasks job (jobSetHoldState srt job id st) :=
        h.sameTasks_setHold srt hD hid
      have hen' : jobIsEnrolled (jobSetHoldState srt job id st) id = true := by
        rw [hsame.isEnrolled_eq, hen]
      have hnone' : jobSearchTask (jobSetHoldState srt job id st) id = none := by
        rw [← Option.not_isSome_iff_eq_none, hsame.searchTask_eq, hnone]
        simp
      rw [jobGetHoldState, hen', hnone']
      rfl

end SetHold

section Bits
variable {d : Bool} {h : ℕ}

theorem and_all_jaAd : h &&& minusHTgtAll &&& minusHTgtJaAd = h &&& minusHTgtJaAd :=
  and_mask .jaAHIds

theorem adHoldState_bit : adHoldState d h &&& minusHTgtJaAd ≠ 0 ↔ d = true := by
  cases d with
  | true =>
      have hor : (h ||| minusHTgtJaAd) &&& minusHTgtJaAd =
          (h &&& minusHTgtJaAd) ||| minusHTgtJaAd := by
        rw [Nat.and_or_distrib_right, Nat.and_self]
      have hne : (h &&& minusHTgtJaAd) ||| minusHTgtJaAd ≠ 0 := fun h0 =>
        absurd (Nat.or_eq_zero_iff.mp h0).2 (by decide)
      simpa only [adHoldState, if_true, hor, iff_true] using hne
  | false =>
      have hand : (uLong32Max ^^^ minusHTgtJaAd) &&& minusHTgtJaAd = 0 := by decide
      simp [adHoldState, Nat.and_assoc, hand]

end Bits

/-- The bit is cleared for the tasks in `S`, and nothing else changes. -/
structure Clears (D S : Set ℕ) (job job' : Job) : Prop where
  refines : ∃ p, Refines D job' p
  same : SameTasks job job'
  kept : ∀ x ∉ S, jobGetHoldState job' x = jobGetHoldState job x
  cleared : ∀ x ∈ S, jobGetHoldState job' x &&& minusHTgtJaAd = 0

section Flush
variable (srt : PSortList Range Range.min) {fuel : ℕ} {job job' job'' : Job} {p : ℕ → TaskPlace}
  {D S T : Set ℕ} {id : ℕ}

theorem Clears.refl (h : Refines D job p) : Clears D ∅ job job :=
  ⟨⟨p, h⟩, .refl, fun _ _ => rfl, fun _ hx => hx.elim⟩

theorem Clears.trans (h : Clears D S job job') (h' : Clears D T job' job'') :
    Clears D (S ∪ T) job job'' where
  refines := h'.refines
  same := h.same.trans h'.same
  kept x hx := by
    obtain ⟨hS, hT⟩ := not_or.mp hx
    rw [h'.kept x hT, h.kept x hS]
  cleared x hx := by
    by_cases hT : x ∈ T
    · exact h'.cleared x hT
    · rw [h'.kept x hT, h.cleared x (hx.resolve_right hT)]

theorem clearJaAd_clears (h : Refines D job p) (hD : id ∈ D) (hid : id < 2 ^ 31) :
    Clears D {id} job (clearJaAd srt job id) where
  refines := ⟨_, h.setHoldState srt hD hid⟩
  same := h.sameTasks_setHold srt hD hid
  kept x hx := h.holdState_other srt hD hid hx
  cleared x hx := by
    obtain rfl : x = id := hx
    rw [clearJaAd, h.holdState_self srt hD hid]
    split_ifs
    · rfl
    · rw [and_all_jaAd]
      by_contra hne
      exact Bool.false_ne_true (adHoldState_bit.mp hne)

/-- A loop whose body clears the bit of one task clears the bits of all its tasks. -/
theorem foldl_clears {f : Job → ℕ → Job}
    (hf : ∀ job p, Refines D job p → ∀ id ∈ D, Clears D {id} job (f job id)) {ids : List ℕ}
    (hids : ∀ id ∈ ids, id ∈ D) (h : Refines D job p) :
    Clears D {x | x ∈ ids} job (ids.foldl f job) := by
  induction ids generalizing job p with
  | nil => simpa using Clears.refl h
  | cons id rest ih =>
      have hfirst := hf job p h id (hids id List.mem_cons_self)
      obtain ⟨q, hq⟩ := hfirst.refines
      have hrest := ih (fun x hx => hids x (List.mem_cons_of_mem _ hx)) hq
      have hset : {x | x ∈ id :: rest} = ({id} : Set ℕ) ∪ {x | x ∈ rest} := by
        ext x
        simp
      rw [hset, List.foldl_cons]
      exact hfirst.trans hrest

theorem foldlM_clears (hsmall : ∀ id ∈ D, id < 2 ^ 31) {l : List Range} (hl : ∀ r ∈ l, r.Ok)
    (hsub : GridEngine.ids l ⊆ D) (h : Refines D job p)
    (hrun : l.foldlM (fun job r => (forIds fuel r.min r.max r.step).map
      (fun ids => ids.foldl (clearJaAd srt) job)) job = some job') :
    Clears D (GridEngine.ids l) job job' := by
  induction l generalizing job p with
  | nil =>
      obtain rfl : job = job' := Option.some.inj hrun
      simpa using Clears.refl h
  | cons r rest ih =>
      rw [List.foldlM_cons] at hrun
      obtain ⟨mid, hmid, hrun⟩ := Option.bind_eq_some_iff.mp hrun
      obtain ⟨is, his, rfl⟩ := Option.map_eq_some_iff.mp hmid
      rw [ids_cons] at hsub ⊢
      have hset : {x | x ∈ is} = r.ids := by
        ext x
        exact mem_forIds (hl r List.mem_cons_self).valid his
      have hfirst := foldl_clears (f := clearJaAd srt)
        (fun _ _ hq id hid => clearJaAd_clears srt hq hid (hsmall id hid))
        (fun id hid => hsub (Or.inl (hset ▸ hid))) h
      rw [hset] at hfirst
      obtain ⟨q, hq⟩ := hfirst.refines
      have hrest := ih (fun q hq => hl q (List.mem_cons_of_mem _ hq))
        (fun x hx => hsub (Or.inr hx)) hq hrun
      exact hfirst.trans hrest

/-- A hold bit of a task without an element of its own is an id in `JB_ja_a_h_ids`. -/
theorem Refines.held_pending_iff (h : Refines D job p) (hD : id ∈ D) {hold : ℕ}
    (hp : p id = .pending hold) :
    jobGetHoldState job id &&& minusHTgtJaAd ≠ 0 ↔
      id ∈ ids ((job.idLists .jaAHIds).getD []) := by
  rw [h.jobGetHoldState_pending hD hp, h.ids_eq]
  have hmask : IdList.mask .jaAHIds = minusHTgtJaAd := rfl
  simp [hp, hD, TaskPlace.InList, hmask]

theorem Canonical.eq_nil {l : List Range} (h : Canonical l) (hids : ids l = ∅) : l = [] := by
  cases l with
  | nil => rfl
  | cons r rest =>
      have hmem : r.min ∈ ids (r :: rest) := ⟨r, List.mem_cons_self, (h.ok r (by simp)).min_mem⟩
      rw [hids] at hmem
      exact hmem.elim

theorem Refines.free_list (h : Refines D job p)
    (hids : ids ((job.idLists .jaAHIds).getD []) = ∅) :
    Clears D ∅ job { job with idLists := Function.update job.idLists .jaAHIds none } := by
  have hnil := (h.canonical .jaAHIds).eq_nil hids
  have hlists : ∀ attr, ((Function.update job.idLists .jaAHIds none) attr).getD [] =
      (job.idLists attr).getD [] := by
    intro attr
    by_cases hattr : attr = .jaAHIds
    · subst hattr
      simpa using hnil.symm
    · rw [Function.update_of_ne hattr]
  have hin : ∀ attr x, inIdList { job with
      idLists := Function.update job.idLists .jaAHIds none } attr x = inIdList job attr x :=
    fun attr x => congrArg (rangeListIsIdWithin · x) (hlists attr)
  refine ⟨⟨p, ⟨h.defined, fun attr => ?_, fun attr => ?_, h.nodup, h.tasks, h.hold_lt⟩⟩,
    ⟨rfl, fun x => ?_, fun _ => rfl⟩, fun x _ => ?_, fun _ hx => hx.elim⟩
  · rw [hlists]
    exact h.canonical attr
  · rw [hlists]
    exact h.ids_eq attr
  · simp only [jobIsEnrolled, hin]
  · exact jobGetHoldState_congr (fun attr => hin attr x) rfl

/-- After the first part of a flush no task without an element of its own has the bit. -/
theorem flushNotEnrolled_spec (hsmall : ∀ id ∈ D, id < 2 ^ 31) (h : Refines D job p)
    (hrun : flushNotEnrolled srt fuel job = some job') :
    Clears D (ids ((job.idLists .jaAHIds).getD [])) job job' := by
  unfold flushNotEnrolled at hrun
  cases hl : job.idLists .jaAHIds with
  | none =>
      rw [hl] at hrun
      obtain rfl : job = job' := Option.some.inj hrun
      simpa using Clears.refl h
  | some l =>
      simp only [hl] at hrun
      obtain ⟨mid, hmid, hrun⟩ := Option.bind_eq_some_iff.mp hrun
      have hgetD : (job.idLists .jaAHIds).getD [] = l := by rw [hl, Option.getD_some]
      have hcan := h.canonical .jaAHIds
      have hidsD := h.ids_eq .jaAHIds
      rw [hgetD] at hcan hidsD
      have hloop := foldlM_clears srt hsmall hcan.ok
        (fun x hx => (hidsD ▸ hx : x ∈ {id | id ∈ D ∧ (p id).InList .jaAHIds}).1) h hmid
      obtain ⟨q, hq⟩ := hloop.refines
      have hempty : ids ((mid.idLists .jaAHIds).getD []) = ∅ := by
        ext x
        simp only [Set.mem_empty_iff_false, iff_false]
        intro hx
        have hxD := hq.ids_eq .jaAHIds ▸ hx
        obtain ⟨-, hold, hqx⟩ := hq.jobIsEnrolled_iff.mp
          (GridEngine.jobIsEnrolled_iff.mpr ⟨.jaAHIds, inIdList_iff.mpr hx⟩)
        have hbit := (hq.held_pending_iff hxD.1 hqx).mpr hx
        by_cases hxl : x ∈ ids l
        · exact hbit (hloop.cleared x hxl)
        · rw [hloop.kept x hxl] at hbit
          obtain ⟨-, hold', hpx⟩ := h.jobIsEnrolled_iff.mp
            ((hloop.same.isEnrolled_eq x).symm.trans
              (hq.jobIsEnrolled_iff.mpr ⟨hxD.1, hold, hqx⟩))
          exact hxl (hgetD ▸ (h.held_pending_iff hxD.1 hpx).mp hbit)
      obtain rfl := Option.some.inj hrun
      simpa [hl] using hloop.trans (hq.free_list hempty)

theorem flushEnrolled_clears (hsmall : ∀ id ∈ D, id < 2 ^ 31) (h : Refines D job p) :
    Clears D {x | x ∈ job.jaTasks.map JaTask.taskNumber} job (flushEnrolled srt job) := by
  apply foldl_clears _ (fun id hid => ((h.tasks id).mp hid).1) h
  intro job p h id hid
  split_ifs with hbit
  · exact clearJaAd_clears srt h hid (hsmall id hid)
  · refine ⟨⟨p, h⟩, .refl, fun _ _ => rfl, fun x hx => ?_⟩
    obtain rfl : x = id := hx
    exact not_not.mp hbit

end Flush

end GridEngine
