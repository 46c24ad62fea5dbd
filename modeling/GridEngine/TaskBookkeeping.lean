import GridEngine.TaskPlaces

/-!
# Task lists over whole histories

The place of a task after a history of calls depends on the calls about this task only: a task
that was ever enrolled is enrolled, else a task that was ever deleted is deleted, else it is
pending with the hold bits of the last state set for it. With the refinement this gives the
contents of the lists, the hold states and the number of tasks after every run.
-/

namespace GridEngine
open Segments Machine

/-- The state of the last `job_set_hold_state` call for a task. -/
def lastHoldState (id : ℕ) (hist : List JobOp) : ℕ :=
  hist.foldl (fun last op => match op with
    | .setHoldState id' st => if id' = id then st else last
    | _ => last) 0

/-- The places after a history that starts with all tasks pending without hold. -/
def placesAfter (hist : List JobOp) : ℕ → TaskPlace :=
  hist.foldl placeStep (fun _ => .pending 0)

section History
variable {id : ℕ} {hist : List JobOp} {op : JobOp} {p : ℕ → TaskPlace}

theorem placeStep_other (h : id ≠ op.id) : placeStep p op id = p id := by
  cases op with
  | setHoldState id' st =>
      have hne : id ≠ id' := h
      cases hp : p id' <;> simp [placeStep, hp, hne]
  | deleteNotEnrolled id' =>
      have hne : id ≠ id' := h
      cases hp : p id' <;> simp [placeStep, hp, hne]
  | enroll id' =>
      have hne : id ≠ id' := h
      simp [placeStep, hne]

theorem placesAfter_eq : placesAfter hist id =
    if .enroll id ∈ hist then .enrolled
    else if .deleteNotEnrolled id ∈ hist then .deleted
    else .pending (lastHoldState id hist &&& minusHTgtAll) := by
  induction hist using List.reverseRecOn with
  | nil => simp [placesAfter, lastHoldState]
  | append_singleton hist op ih =>
      have hsnoc : placesAfter (hist ++ [op]) = placeStep (placesAfter hist) op := by
        simp [placesAfter]
      rw [hsnoc]
      by_cases hid : id = op.id
      · cases op with
        | setHoldState id' st =>
            obtain rfl : id = id' := hid
            by_cases hen : JobOp.enroll id ∈ hist
            · simp [placeStep, ih, hen]
            · by_cases hdel : JobOp.deleteNotEnrolled id ∈ hist
              · simp [placeStep, ih, hen, hdel]
              · simp [placeStep, ih, hen, hdel, lastHoldState]
        | deleteNotEnrolled id' =>
            obtain rfl : id = id' := hid
            by_cases hen : JobOp.enroll id ∈ hist
            · simp [placeStep, ih, hen]
            · by_cases hdel : JobOp.deleteNotEnrolled id ∈ hist
              · simp [placeStep, ih, hen, hdel]
              · simp [placeStep, ih, hen, hdel]
        | enroll id' =>
            obtain rfl : id = id' := hid
            simp [placeStep]
      · rw [placeStep_other hid, ih]
        have hen : JobOp.enroll id ≠ op := fun heq => hid (heq ▸ rfl)
        have hdel : JobOp.deleteNotEnrolled id ≠ op := fun heq => hid (heq ▸ rfl)
        have hlast : lastHoldState id (hist ++ [op]) = lastHoldState id hist := by
          cases op with
          | setHoldState id' st =>
              have hne : id' ≠ id := fun heq => hid heq.symm
              simp [lastHoldState, hne]
          | _ => simp [lastHoldState]
        simp [hen, hdel, hlast]

theorem placesAfter_pending {hold : ℕ} (h : placesAfter hist id = .pending hold) :
    .enroll id ∉ hist ∧ .deleteNotEnrolled id ∉ hist ∧
      hold = lastHoldState id hist &&& minusHTgtAll := by
  rw [placesAfter_eq] at h
  split_ifs at h with hen hdel
  exact ⟨hen, hdel, (TaskPlace.pending.inj h).symm⟩

end History

section Getters
variable (srt : PSortList Range Range.min) {fuel : ℕ} {job : Job} {p : ℕ → TaskPlace} {D : Set ℕ}
  {attr : IdList} {id : ℕ}

/-- The flags of the four hold lists put the hold bits together again. -/
theorem foldl_mask_eq : ∀ hold < 16,
    [IdList.jaUHIds, .jaOHIds, .jaSHIds, .jaAHIds].foldl
      (fun ret attr => if hold &&& attr.mask ≠ 0 then ret ||| attr.mask else ret) 0 = hold := by
  decide

theorem Refines.jobGetHoldState_pending (h : Refines D job p) (hD : id ∈ D) {hold : ℕ}
    (hp : p id = .pending hold) : jobGetHoldState job id = hold := by
  have hen : jobIsEnrolled job id = false := h.jobIsEnrolled_iff.mpr ⟨hD, hold, hp⟩
  have hin : ∀ attr, attr ≠ .jaNHIds →
      inIdList job attr id = decide (hold &&& attr.mask ≠ 0) := by
    intro attr hn
    rw [Bool.eq_iff_iff, h.inIdList_iff, hp, decide_eq_true_iff]
    simp [TaskPlace.InList, hD, hn]
  have hflags := foldl_mask_eq hold (h.hold_lt id hold hp)
  rw [jobGetHoldState, hen]
  simp only [List.foldl_cons, List.foldl_nil] at hflags ⊢
  simpa only [Bool.false_eq_true, if_false, hin _ (by decide : IdList.jaUHIds ≠ .jaNHIds),
    hin _ (by decide : IdList.jaOHIds ≠ .jaNHIds), hin _ (by decide : IdList.jaSHIds ≠ .jaNHIds),
    hin _ (by decide : IdList.jaAHIds ≠ .jaNHIds), decide_eq_true_eq] using hflags

/-- Where the lists and the element of a task agree, so does its hold state. -/
theorem jobGetHoldState_congr {job' : Job}
    (hlists : ∀ attr, inIdList job' attr id = inIdList job attr id)
    (htask : jobSearchTask job' id = jobSearchTask job id) :
    jobGetHoldState job' id = jobGetHoldState job id := by
  simp only [jobGetHoldState, jobIsEnrolled, hlists, htask]
  congr!

theorem find?_updateTask (st : ℕ) {id' : ℕ} (h : id ≠ id') (tasks : List JaTask) :
    (updateTask (JaTask.setHold st) id' tasks).find? (fun t => t.taskNumber == id) =
      tasks.find? (fun t => t.taskNumber == id) := by
  induction tasks with
  | nil => rfl
  | cons t rest ih =>
      rw [updateTask]
      split_ifs with ht
      · have hne : t.taskNumber ≠ id := fun heq => h (heq.symm.trans ht)
        have hne' : (t.setHold st).taskNumber ≠ id := hne
        rw [List.find?_cons_of_neg (by simpa using hne'), List.find?_cons_of_neg (by simpa using hne)]
      · rw [List.find?_cons, List.find?_cons, ih]

theorem jobSearchTask_apply {op : JobOp} (h : id ≠ op.id) :
    jobSearchTask (op.apply srt job) id = jobSearchTask job id := by
  cases op with
  | setHoldState id' st =>
      simp only [JobOp.apply, jobSetHoldState]
      split_ifs
      · rfl
      · exact find?_updateTask st h job.jaTasks
  | deleteNotEnrolled id' => rfl
  | enroll id' =>
      simp only [JobOp.apply, jobEnroll]
      split
      · rfl
      · have hne : id' ≠ id := fun heq => h heq.symm
        simp [jobSearchTask, jobGetJaTaskTemplatePending, objectDeleteRangeId, hne]

theorem length_tasks (h : Refines D job p) :
    job.jaTasks.length = {id | id ∈ D ∧ p id = .enrolled}.ncard := by
  have hset : {id | id ∈ D ∧ p id = .enrolled} =
      ((job.jaTasks.map JaTask.taskNumber).toFinset : Set ℕ) := by
    ext x
    rw [List.coe_toFinset]
    exact (h.tasks x).symm
  rw [hset, Set.ncard_coe_finset, List.toFinset_card_of_nodup h.nodup, List.length_map]

theorem jobGetNotEnrolledJaTasks_eq (h : Refines D job p) (hfuel : 2 ^ 31 < fuel) :
    ∃ uosa, jobGetNotEnrolledJaTasks srt fuel job = some (wadd
        (ids ((job.idLists .jaNHIds).getD [])).ncard uosa) ∧
      uosa = {id | id ∈ D ∧ ∃ attr, attr ≠ .jaNHIds ∧ (p id).InList attr}.ncard := by
  obtain ⟨uo, huo, hcuo, hidsuo⟩ := rangeListCalculateUnionSet_spec srt
    (h.canonical .jaUHIds) (h.canonical .jaOHIds) hfuel
  obtain ⟨uos, huos, hcuos, hidsuos⟩ := rangeListCalculateUnionSet_spec srt
    hcuo (h.canonical .jaSHIds) hfuel
  obtain ⟨uosa, huosa, hcuosa, hidsuosa⟩ := rangeListCalculateUnionSet_spec srt
    hcuos (h.canonical .jaAHIds) hfuel
  refine ⟨_, ?_, rfl⟩
  have hset : ids (uosa.getD []) =
      {id | id ∈ D ∧ ∃ attr, attr ≠ .jaNHIds ∧ (p id).InList attr} := by
    rw [hidsuosa, hidsuos, hidsuo, h.ids_eq, h.ids_eq, h.ids_eq, h.ids_eq]
    ext x
    simp only [Set.mem_union, Set.mem_ofPred_eq]
    constructor
    · rintro (((hx | hx) | hx) | hx)
      · exact ⟨hx.1, .jaUHIds, by decide, hx.2⟩
      · exact ⟨hx.1, .jaOHIds, by decide, hx.2⟩
      · exact ⟨hx.1, .jaSHIds, by decide, hx.2⟩
      · exact ⟨hx.1, .jaAHIds, by decide, hx.2⟩
    · rintro ⟨hx, attr, hne, hin⟩
      cases attr <;> simp_all
  rw [jobGetNotEnrolledJaTasks]
  simp only [huo, huos, huosa, Option.bind_eq_bind, Option.bind_some,
    rangeListGetNumberOfIds_eq (h.canonical .jaNHIds), rangeListGetNumberOfIds_eq hcuosa, hset]
  rfl

/-- No list but `JB_ja_n_h_ids` has a task without hold. -/
theorem not_inList_of_noHold {t : TaskPlace} (h : t.InList .jaNHIds) (hattr : attr ≠ .jaNHIds) :
    ¬ t.InList attr := by
  cases t with
  | pending hold =>
      have h0 : hold &&& minusHTgtAll = 0 := by
        by_contra hne
        exact h.mp hne rfl
      have hmask : hold &&& attr.mask = 0 := by
        rw [← and_mask attr, h0, Nat.zero_and]
      intro hin
      exact hin.mpr hattr hmask
  | enrolled => exact h.elim
  | deleted => exact h.elim

/-- The number of tasks is the number of defined ids that are not deleted. -/
theorem jobGetJaTasks_eq (h : Refines D job p) (hsmall : ∀ id ∈ D, id < 2 ^ 31)
    (hfuel : 2 ^ 31 < fuel) :
    jobGetJaTasks srt fuel job = some {id | id ∈ D ∧ p id ≠ .deleted}.ncard := by
  obtain ⟨held, hrun, rfl⟩ := jobGetNotEnrolledJaTasks_eq srt h hfuel
  rw [h.ids_eq] at hrun
  set N := {id | id ∈ D ∧ (p id).InList .jaNHIds} with hN
  set H := {id | id ∈ D ∧ ∃ attr, attr ≠ .jaNHIds ∧ (p id).InList attr} with hH
  set E := {id | id ∈ D ∧ p id = .enrolled} with hE
  have hfin : D.Finite := h.defined ▸ ids_finite
  have hNfin : N.Finite := hfin.subset (fun _ hx => hx.1)
  have hHfin : H.Finite := hfin.subset (fun _ hx => hx.1)
  have hEfin : E.Finite := hfin.subset (fun _ hx => hx.1)
  have hNH : Disjoint N H := by
    rw [Set.disjoint_left]
    rintro x hx ⟨-, attr, hattr, hin⟩
    exact not_inList_of_noHold hx.2 hattr hin
  have hpend : N ∪ H = {id | id ∈ D ∧ ∃ hold, p id = .pending hold} := by
    ext x
    simp only [hN, hH, Set.mem_union, Set.mem_ofPred_eq, ← exists_inList_iff (h.hold_lt x)]
    constructor
    · rintro (⟨hx, hin⟩ | ⟨hx, attr, -, hin⟩)
      · exact ⟨hx, _, hin⟩
      · exact ⟨hx, attr, hin⟩
    · rintro ⟨hx, attr, hin⟩
      by_cases hattr : attr = .jaNHIds
      · exact Or.inl ⟨hx, hattr ▸ hin⟩
      · exact Or.inr ⟨hx, attr, hattr, hin⟩
  have hall : {id | id ∈ D ∧ p id ≠ .deleted} = N ∪ H ∪ E := by
    rw [hpend]
    ext x
    simp only [hE, Set.mem_union, Set.mem_ofPred_eq, ← and_or_left]
    cases p x <;> simp
  have hE' : Disjoint (N ∪ H) E := by
    rw [hpend, Set.disjoint_left]
    rintro x ⟨-, hold, hp⟩ ⟨-, hen⟩
    simp [hp] at hen
  have hcard : (N ∪ H ∪ E).ncard = N.ncard + H.ncard + E.ncard := by
    rw [Set.ncard_union_eq hE' (hNfin.union hHfin) hEfin, Set.ncard_union_eq hNH hNfin hHfin]
  have hle : (N ∪ H ∪ E).ncard ≤ 2 ^ 31 :=
    ncard_le_of_lt (fun x hx => hsmall x (hall ▸ hx : x ∈ {id | id ∈ D ∧ p id ≠ .deleted}).1)
  have hlen : job.jaTasks.length = E.ncard := length_tasks h
  rw [jobGetJaTasks, hrun, jobGetEnrolledJaTasks, hlen, hall, hcard, Option.map_some,
    wadd_eq (a := N.ncard) (by omega), wadd_eq (by omega)]

theorem jobInitializeIdLists_refines {job₀ : Job} {r : Range} (hr : r.Ok)
    (hstructure : job₀.jaStructure = some [r]) (htasks : job₀.jaTasks = []) :
    Refines r.ids (jobInitializeIdLists job₀).1 (fun _ => .pending 0) := by
  have hinit : (jobInitializeIdLists job₀).1 =
      { job₀ with idLists := fun attr => if attr = .jaNHIds then some [r] else none } := by
    simp only [jobInitializeIdLists, hstructure]
  rw [hinit]
  refine ⟨by simp [hstructure], fun attr => ?_, fun attr => ?_, by simp [htasks],
    by simp [htasks], fun id hold hp => ?_⟩
  · by_cases hn : attr = .jaNHIds
    · simpa [hn] using Canonical.singleton hr
    · simpa [hn] using Canonical.nil
  · by_cases hn : attr = .jaNHIds
    · subst hn
      simp [TaskPlace.InList]
    · simp [hn, TaskPlace.InList]
  · obtain rfl := TaskPlace.pending.inj hp
    norm_num

end Getters

/-- What the task lists of `job` say after the history `hist` of the job `job₀`. -/
structure Bookkept (srt : PSortList Range Range.min) (job₀ : Job) (hist : List JobOp)
    (job : Job) : Prop where
  noHold_disjoint : ∀ id attr, attr ≠ .jaNHIds → inIdList job .jaNHIds id = true →
    inIdList job attr id = false
  listed_not_enrolled : ∀ id attr, inIdList job attr id = true → jobSearchTask job id = none
  listed_iff : ∀ id, jobIsJaTaskDefined job₀ id = true → (jobIsEnrolled job id = false ↔
    .deleteNotEnrolled id ∉ hist ∧ .enroll id ∉ hist)
  holdState : ∀ id, jobIsEnrolled job id = false →
    jobGetHoldState job id = lastHoldState id hist &&& minusHTgtAll
  holdState_other : ∀ op job', JobOp.Step srt job op job' → ∀ id, id ≠ op.id →
    jobGetHoldState job' id = jobGetHoldState job id
  /-- Deleted are the tasks that were deleted and never enrolled. -/
  count : ∀ fuel, 2 ^ 31 < fuel → jobGetJaTasks srt fuel job =
    some ({id | jobIsJaTaskDefined job₀ id = true}.ncard -
      {id | jobIsJaTaskDefined job₀ id = true ∧ .deleteNotEnrolled id ∈ hist ∧
        .enroll id ∉ hist}.ncard)

/-- The job of `qsub -t 1-5:2`. -/
def threeTasks : Job where
  jaStructure := some [⟨1, 5, 2⟩]
  idLists := fun _ => none
  jaTasks := []
  jaTemplate := ⟨0, 0, 0⟩

end GridEngine
