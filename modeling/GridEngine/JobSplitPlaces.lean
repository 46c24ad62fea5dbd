import GridEngine.JobSplit

/-!
# Every task and every id has one place

The target of a task, or of an id without a task, is a function of the job and the requested
lists, so one place for each of them is an equation for every list. What the equations leave open
are the two places where the source loses count: the ids in `JB_ja_a_h_ids` alone, and the move of
the first ids of several ranges.
-/

namespace GridEngine
open Segments

variable {α β : Type*}
variable (requested : Split → Bool) (clock : SplitJob α β → Option (SplitTask β) → ℕ)
variable (maxAjInstances : ℕ) (doCopy : Bool)

/-- The tasks of an element that may not exist. -/
def tasksOf (job : Option (SplitJob α β)) : List (SplitTask β) :=
  job.elim [] (fun j => j.jaTasks)

/-- The ids of an element that may not exist. -/
def idsOf (kind : IdList) (job : Option (SplitJob α β)) : Set ℕ :=
  job.elim ∅ (fun j => ids ((j.idLists kind).getD []))

/-- The result list for an id without a task; `none` is the input list. The ids in `admitted` are
the ones an instance limit leaves pending. -/
def idTarget (job : SplitJob α β) (admitted : List Range) : IdList → ℕ → Option Split
  | .jaNHIds, id =>
      if requested .waitingDueToPredecessor ∧ job.jidPredecessorList ≠ none then
        some .waitingDueToPredecessor
      else if requested .waitingDueToTime ∧ clock job none < job.executionTime then
        some .waitingDueToTime
      else if requested .pendingExcludedInstances ∧ ¬ rangeListIsIdWithin admitted id then
        some .pendingExcludedInstances
      else if requested .pending then some .pending
      else none
  | _, _ => if requested .hold then some .hold else none

/-- Instances that the limit leaves room for. -/
def allowedInstances (job : SplitJob α β) : ℕ :=
  ajLimit maxAjInstances job - job.jaTasks.length

/-- The count for the first ids reaches zero before the last range of `JB_ja_n_h_ids`. -/
def CountRunsOn (job : SplitJob α β) : Prop :=
  0 < allowedInstances maxAjInstances job ∧ allowedInstances maxAjInstances job ≤
    rangeListGetNumberOfIds ((job.idLists .jaNHIds).getD []).dropLast

/-- No list is requested for held ids, and nothing but ids in `JB_ja_a_h_ids` stays with the
job. -/
structure OnlyArrayHoldLeft (job : SplitJob α β) (admitted : List Range) : Prop where
  hold : requested .hold = false
  uHIds : job.idLists .jaUHIds = none
  oHIds : job.idLists .jaOHIds = none
  sHIds : job.idLists .jaSHIds = none
  tasks : ∀ t ∈ job.jaTasks, doCopy = false ∧ taskTarget requested clock job t ≠ none
  nHIds : ∀ id ∈ ids ((job.idLists .jaNHIds).getD []),
    idTarget requested clock job admitted .jaNHIds id ≠ none

/-- Every task and every id of a job is in the one place its target names, and every element
keeps the attributes of the job. -/
structure SortsOut (job : SplitJob α β) (admitted : List Range) (out : SplitOut α β) : Prop where
  requested_of_piece : ∀ d, out.piece d ≠ none → requested d = true
  bare_piece : ∀ d, ∀ j ∈ out.piece d, j.bare = job.bare
  bare_left : ∀ j ∈ out.left, j.bare = job.bare
  tasks_piece : ∀ d, tasksOf (out.piece d) =
    job.jaTasks.filter (fun t => taskTarget requested clock job t = some d)
  tasks_left : tasksOf out.left =
    job.jaTasks.filter (fun t => doCopy || taskTarget requested clock job t = none)
  ids_piece : ∀ kind d, idsOf kind (out.piece d) = {id | id ∈ ids ((job.idLists kind).getD []) ∧
    idTarget requested clock job admitted kind id = some d}
  ids_left : ∀ kind, kind ≠ .jaAHIds ∨ ¬ OnlyArrayHoldLeft requested clock doCopy job admitted →
    idsOf kind out.left = {id | id ∈ ids ((job.idLists kind).getD []) ∧
      idTarget requested clock job admitted kind id = none}
  admitted_first : requested .pendingExcludedInstances = true → ¬ CountRunsOn maxAjInstances job →
    ¬ (requested .waitingDueToPredecessor = true ∧ job.jidPredecessorList ≠ none) →
    ¬ (requested .waitingDueToTime = true ∧ clock job none < job.executionTime) →
      FirstN (allowedInstances maxAjInstances job) (ids ((job.idLists .jaNHIds).getD []))
        (ids admitted)
  instances_le : requested .pendingExcludedInstances = true → maxAjInstances ≠ 0 →
    ¬ CountRunsOn maxAjInstances job → (tasksOf (out.piece .running)).length +
      (tasksOf (out.piece .pending)).length + (idsOf .jaNHIds (out.piece .pending)).ncard ≤
        max maxAjInstances job.jaTasks.length

/-- A job whose id lists are canonical and whose words are words. -/
structure SplitJob.Ok (job : SplitJob α β) : Prop where
  canonical : ∀ kind, Canonical ((job.idLists kind).getD [])
  concurrency_lt : job.jaTaskConcurrency < 2 ^ 32

/-- What `splitIds` decides for one job. -/
inductive IdsDecided (job : SplitJob α β) : TargetIds → Prop
  | predecessor (hreq : requested .waitingDueToPredecessor = true)
      (hpred : job.jidPredecessorList ≠ none) :
      IdsDecided job ⟨some .waitingDueToPredecessor, job.idLists .jaNHIds, none⟩
  | time (hno : ¬ (requested .waitingDueToPredecessor = true ∧ job.jidPredecessorList ≠ none))
      (hreq : requested .waitingDueToTime = true) (htime : clock job none < job.executionTime) :
      IdsDecided job ⟨some .waitingDueToTime, job.idLists .jaNHIds, none⟩
  | instances (rest moved : Option (List Range))
      (hno : ¬ (requested .waitingDueToPredecessor = true ∧ job.jidPredecessorList ≠ none))
      (hnow : ¬ (requested .waitingDueToTime = true ∧ clock job none < job.executionTime))
      (hreq : requested .pendingExcludedInstances = true)
      (hsub : ids (moved.getD []) ⊆ ids ((job.idLists .jaNHIds).getD []))
      (hrest : ids (rest.getD []) = ids ((job.idLists .jaNHIds).getD []) \ ids (moved.getD []))
      (hfirst : ¬ CountRunsOn maxAjInstances job → FirstN (allowedInstances maxAjInstances job)
        (ids ((job.idLists .jaNHIds).getD [])) (ids (moved.getD []))) :
      IdsDecided job ⟨some .pendingExcludedInstances, rest, moved⟩
  | pending (hno : ¬ (requested .waitingDueToPredecessor = true ∧ job.jidPredecessorList ≠ none))
      (hnow : ¬ (requested .waitingDueToTime = true ∧ clock job none < job.executionTime))
      (hexc : requested .pendingExcludedInstances = false) :
      IdsDecided job ⟨none, none, job.idLists .jaNHIds⟩

section Tasks
variable {requested clock doCopy} {job : SplitJob α β}

theorem foldl_putTask (ts : List (SplitTask β)) (acc : TargetTasks β) :
    (∀ d, (ts.foldl (putTask requested clock doCopy job) acc).target d = acc.target d ++
        ts.filter (fun t => taskTarget requested clock job t = some d)) ∧
      (ts.foldl (putTask requested clock doCopy job) acc).left = acc.left ++
        ts.filter (fun t => doCopy || taskTarget requested clock job t = none) := by
  induction ts generalizing acc with
  | nil => simp
  | cons t ts ih =>
      obtain ⟨htarget, hleft⟩ := ih (putTask requested clock doCopy job acc t)
      rw [List.foldl_cons]
      refine ⟨fun d => ?_, ?_⟩
      · rw [htarget d, List.filter_cons]
        cases hd : taskTarget requested clock job t with
        | none => simp [putTask, hd]
        | some e =>
            by_cases hde : e = d
            · subst hde
              simp [putTask, hd]
            · simp [putTask, hd, Function.update_of_ne (Ne.symm hde), hde]
      · rw [hleft, List.filter_cons]
        cases hd : taskTarget requested clock job t with
        | none => simp [putTask, hd]
        | some e => cases doCopy <;> simp [putTask, hd]

theorem splitTasks_target (d : Split) : (splitTasks requested clock doCopy job).target d =
    job.jaTasks.filter (fun t => taskTarget requested clock job t = some d) := by
  rw [splitTasks, (foldl_putTask job.jaTasks ⟨fun _ => [], []⟩).1 d, List.nil_append]

theorem splitTasks_left : (splitTasks requested clock doCopy job).left =
    job.jaTasks.filter (fun t => doCopy || taskTarget requested clock job t = none) := by
  rw [splitTasks, (foldl_putTask job.jaTasks ⟨fun _ => [], []⟩).2, List.nil_append]

theorem requested_of_taskTarget {t : SplitTask β} {d : Split}
    (h : taskTarget requested clock job t = some d) : requested d = true := by
  unfold taskTarget at h
  split_ifs at h with h₁ h₂ h₃ h₄ h₅ h₆ h₇ h₈ h₉
  all_goals
    obtain rfl := Option.some.inj h
  exacts [h₁.1, h₂.1, h₃.1, h₄.1, h₅.1, h₆.1, h₇.1, h₈.1, h₉.1]

end Tasks

section Ids
variable {requested clock maxAjInstances doCopy} {job : SplitJob α β} {split : TargetIds}
variable {tasks : TargetTasks β} {kind : IdList} {d : Split} {id : ℕ}

theorem splitIds_spec (srt : PSortList Range Range.min) {fuel : ℕ} (hok : job.Ok)
    (hmax : maxAjInstances < 2 ^ 32) (hfuel : 2 ^ 31 < fuel) :
    ∃ split, splitIds srt fuel requested clock maxAjInstances job = some split ∧
      IdsDecided requested clock maxAjInstances job split := by
  have hc := hok.canonical .jaNHIds
  rw [splitIds]
  by_cases hpred : requested .waitingDueToPredecessor = true ∧ job.jidPredecessorList ≠ none
  · rw [if_pos hpred]
    exact ⟨_, rfl, .predecessor hpred.1 hpred.2⟩
  rw [if_neg hpred]
  by_cases htime : requested .waitingDueToTime = true ∧ clock job none < job.executionTime
  · rw [if_pos htime]
    exact ⟨_, rfl, .time hpred htime.1 htime.2⟩
  rw [if_neg htime]
  by_cases hexc : requested .pendingExcludedInstances = true
  · rw [if_pos hexc]
    by_cases hroom : job.jaTasks.length < ajLimit maxAjInstances job
    · have hlimit : ajLimit maxAjInstances job < 2 ^ 32 := by
        have hconc := hok.concurrency_lt
        rw [ajLimit]
        split_ifs <;> assumption
      obtain ⟨rest, moved, heq, -, -, hsub, hrest, hfirst⟩ := rangeListMoveFirstNIds_spec srt
        (n := ajLimit maxAjInstances job - job.jaTasks.length) hc (by omega) hfuel
      rw [if_pos hroom, heq]
      refine ⟨_, rfl, .instances rest moved hpred htime hexc hsub hrest fun hrun => ?_⟩
      simp only [CountRunsOn, allowedInstances, not_and, not_le] at hrun
      exact hfirst (hrun (by omega))
    · rw [if_neg hroom]
      refine ⟨_, rfl, .instances _ none hpred htime hexc (by simp) (by simp) fun _ => ?_⟩
      have hzero : allowedInstances maxAjInstances job = 0 := by
        rw [allowedInstances]
        omega
      rw [hzero]
      exact ⟨by simp, by simp⟩
  · rw [if_neg hexc]
    exact ⟨_, rfl, .pending hpred htime (by simpa using hexc)⟩

theorem requested_of_idTarget {admitted : List Range}
    (h : idTarget requested clock job admitted kind id = some d) : requested d = true := by
  unfold idTarget at h
  split at h <;> split_ifs at h
  all_goals
    obtain rfl := Option.some.inj h
  all_goals tauto

theorem pieceIds_hold (hkind : kind ≠ .jaNHIds) :
    pieceIds job split d kind = if d = .hold then job.idLists kind else none := by
  cases kind with
  | jaNHIds => exact absurd rfl hkind
  | _ => rfl

theorem leftIds_hold (hkind : kind ≠ .jaNHIds) :
    leftIds requested job split kind = if requested .hold then none else job.idLists kind := by
  cases kind with
  | jaNHIds => exact absurd rfl hkind
  | _ => rfl

theorem idTarget_hold {admitted : List Range} (hkind : kind ≠ .jaNHIds) :
    idTarget requested clock job admitted kind id =
      if requested .hold then some .hold else none := by
  cases kind with
  | jaNHIds => exact absurd rfl hkind
  | _ => rfl

/-- The target of an id without hold, by what was decided for the job. -/
theorem IdsDecided.idTarget_eq (h : IdsDecided requested clock maxAjInstances job split) :
    idTarget requested clock job (split.nHIds.getD []) .jaNHIds id =
      if split.target ≠ none ∧ ¬ rangeListIsIdWithin (split.nHIds.getD []) id then split.target
      else if requested .pending then some .pending else none := by
  have hempty : rangeListIsIdWithin [] id = false := rfl
  rw [idTarget]
  cases h with
  | predecessor hr hpred => simp [hr, hpred, hempty]
  | time hno hr htime =>
      rw [if_neg hno, if_pos ⟨hr, htime⟩]
      simp [hempty]
  | instances rest moved hno hnow hr hsub hrest hfirst =>
      rw [if_neg hno, if_neg hnow]
      simp [hr]
  | pending hno hnow hexc =>
      rw [if_neg hno, if_neg hnow]
      simp [hexc]

/-- The ids without hold are the decided ones and the ones that stay pending. -/
theorem IdsDecided.ids_split (h : IdsDecided requested clock maxAjInstances job split) :
    ids (split.nHIds.getD []) ⊆ ids ((job.idLists .jaNHIds).getD []) ∧
      (split.target ≠ none → split.target ≠ some .pending ∧ ids (split.targetIds.getD []) =
        ids ((job.idLists .jaNHIds).getD []) \ ids (split.nHIds.getD [])) ∧
      (split.target = none → split.nHIds = job.idLists .jaNHIds) := by
  cases h with
  | predecessor hr hpred => simp
  | time hno hr htime => simp
  | instances rest moved hno hnow hr hsub hrest hfirst => exact ⟨hsub, by simp [hrest], by simp⟩
  | pending hno hnow hexc => simp

/-- The ids of a requested result list are the ones it is the target of. -/
theorem ids_pieceIds (h : IdsDecided requested clock maxAjInstances job split)
    (hreq : requested d = true) : ids ((pieceIds job split d kind).getD []) =
      {id | id ∈ ids ((job.idLists kind).getD []) ∧
        idTarget requested clock job (split.nHIds.getD []) kind id = some d} := by
  ext id
  rw [Set.mem_ofPred_eq]
  by_cases hkind : kind = .jaNHIds
  · subst hkind
    obtain ⟨hsub, hdecided, hrest⟩ := h.ids_split
    have hwithin := @rangeListIsIdWithin_iff (split.nHIds.getD []) id
    rw [h.idTarget_eq, pieceIds]
    by_cases hnone : split.target = none
    · by_cases hd : d = .pending
      · subst hd
        simp [hnone, hrest hnone, hreq]
      · simp [hnone, hd, Ne.symm hd]
    · obtain ⟨hpending, hids⟩ := hdecided hnone
      by_cases hd : split.target = some d
      · have hdp : Split.pending ≠ d := fun heq => hpending (heq ▸ hd)
        by_cases hmem : id ∈ ids (split.nHIds.getD []) <;> simp [hwithin, hd, hids, hmem, hdp]
      · by_cases hdp : d = .pending
        · subst hdp
          by_cases hmem : id ∈ ids (split.nHIds.getD [])
          · simp [hwithin, hmem, hd, hreq, hsub hmem]
          · simp [hwithin, hd, hmem, hnone]
        · by_cases hmem : id ∈ ids (split.nHIds.getD []) <;>
            simp [hwithin, hd, hdp, hmem, hnone, Ne.symm hdp]
  · rw [pieceIds_hold hkind, idTarget_hold hkind]
    by_cases hd : d = .hold
    · subst hd
      simp [hreq]
    · simp [hd, Ne.symm hd]

theorem ids_leftIds (h : IdsDecided requested clock maxAjInstances job split) :
    ids ((leftIds requested job split kind).getD []) =
      {id | id ∈ ids ((job.idLists kind).getD []) ∧
        idTarget requested clock job (split.nHIds.getD []) kind id = none} := by
  ext id
  rw [Set.mem_ofPred_eq]
  by_cases hkind : kind = .jaNHIds
  · subst hkind
    obtain ⟨hsub, -, hrest⟩ := h.ids_split
    have hwithin := @rangeListIsIdWithin_iff (split.nHIds.getD []) id
    rw [h.idTarget_eq, leftIds]
    by_cases hp : requested .pending = true
    · by_cases hmem : id ∈ ids (split.nHIds.getD []) <;>
        by_cases hnone : split.target = none <;> simp [hwithin, hp, hmem, hnone]
    · by_cases hnone : split.target = none
      · simp [hp, hnone, hrest hnone]
      · by_cases hmem : id ∈ ids (split.nHIds.getD [])
        · simp [hwithin, hp, hmem, hsub hmem]
        · simp [hwithin, hp, hmem, hnone]
  · rw [leftIds_hold hkind, idTarget_hold hkind]
    by_cases hhold : requested .hold = true <;> simp [hhold]

/-- A job without an element in a requested list has no task and no id for it. -/
theorem pieceIds_of_not_wanted (hreq : requested d = true)
    (h : ¬ Wanted requested job tasks split d) :
    tasks.target d = [] ∧ pieceIds job split d kind = none := by
  simp only [Wanted, SplitJob.Held, not_and, not_or, not_not] at h
  obtain ⟨htasks, htarget, hpending, hhold⟩ := h hreq
  refine ⟨htasks, ?_⟩
  cases kind with
  | jaNHIds =>
      simp only [pieceIds]
      split_ifs with h₁ h₂
      exacts [htarget h₁, hpending h₂, rfl]
  | _ =>
      simp only [pieceIds]
      split_ifs with h₁
      · have := hhold h₁
        tauto
      · rfl

/-- Without the test for remaining tasks nothing is left but ids in `JB_ja_a_h_ids`. -/
theorem leftIds_of_not_remaining (h : ¬ Remaining requested job tasks split) :
    tasks.left = [] ∧ (kind ≠ .jaAHIds ∨ requested .hold = true ∨
      job.idLists .jaAHIds = none → leftIds requested job split kind = none) := by
  simp only [Remaining, not_or, not_and, not_not] at h
  obtain ⟨htasks, hpending, hhold⟩ := h
  refine ⟨htasks, fun hkind => ?_⟩
  cases kind with
  | jaNHIds =>
      simp only [leftIds]
      split_ifs with hp
      · rfl
      · exact hpending (by simpa using hp)
  | _ =>
      simp only [leftIds]
      split_ifs with hp
      · rfl
      · have := hhold (by simpa using hp)
        tauto

theorem tasksOf_piece {p : Prop} [Decidable p] {j : SplitJob α β} :
    tasksOf (if p then some j else none) = if p then j.jaTasks else [] := by
  split_ifs <;> rfl

theorem idsOf_piece {p : Prop} [Decidable p] {j : SplitJob α β} :
    idsOf kind (if p then some j else none) =
      ids ((if p then j.idLists kind else none).getD []) := by
  split_ifs
  · rfl
  · simp [idsOf]

/-- With a list for excluded ids, the pending ones are the admitted ones. -/
theorem IdsDecided.pending_le (h : IdsDecided requested clock maxAjInstances job split)
    (hreq : requested .pendingExcludedInstances = true) (hrun : ¬ CountRunsOn maxAjInstances job) :
    {id | id ∈ ids ((job.idLists .jaNHIds).getD []) ∧
      idTarget requested clock job (split.nHIds.getD []) .jaNHIds id = some .pending}.ncard ≤
        allowedInstances maxAjInstances job := by
  have hsub : {id | id ∈ ids ((job.idLists .jaNHIds).getD []) ∧
      idTarget requested clock job (split.nHIds.getD []) .jaNHIds id = some .pending} ⊆
        ids (split.nHIds.getD []) := by
    rintro id ⟨-, hid⟩
    by_contra hnot
    have hwithin : ¬ rangeListIsIdWithin (split.nHIds.getD []) id = true :=
      fun hin => hnot (rangeListIsIdWithin_iff.mp hin)
    have htarget : split.target ≠ none := by
      cases h with
      | pending hno hnow hexc => exact absurd (hreq.symm.trans hexc) (by decide)
      | _ => simp
    rw [h.idTarget_eq, if_pos ⟨htarget, hwithin⟩] at hid
    exact (h.ids_split.2.1 htarget).1 hid
  refine (Set.ncard_le_ncard hsub ids_finite).trans ?_
  cases h with
  | predecessor hr hpred => simp
  | time hno hr htime => simp
  | instances rest moved hno hnow hr hsub hrest hfirst =>
      rw [(hfirst hrun).ncard_eq]
      exact min_le_left _ _
  | pending hno hnow hexc => exact absurd (hreq.symm.trans hexc) (by decide)

theorem length_filter_add_le (ts : List (SplitTask β)) {d e : Split} (hne : d ≠ e) :
    (ts.filter (fun t => taskTarget requested clock job t = some d)).length +
      (ts.filter (fun t => taskTarget requested clock job t = some e)).length ≤ ts.length := by
  induction ts with
  | nil => simp
  | cons t ts ih =>
      simp only [List.filter_cons, List.length_cons]
      by_cases hd : taskTarget requested clock job t = some d
      · have he : taskTarget requested clock job t ≠ some e := fun he =>
          hne (Option.some.inj (hd.symm.trans he))
        simp only [hd, Option.some.injEq, hne, decide_true, decide_false, if_true, List.length_cons]
        simp only [Bool.false_eq_true, if_false]
        omega
      · split_ifs with h₁ h₂ h₂
        · exact absurd (of_decide_eq_true h₁) hd
        · exact absurd (of_decide_eq_true h₁) hd
        · simp only [List.length_cons]
          omega
        · omega

theorem ajLimit_le (hmax : maxAjInstances ≠ 0) : ajLimit maxAjInstances job ≤ maxAjInstances := by
  rw [ajLimit]
  split_ifs with h
  · omega
  · exact le_rfl

/-- Ids are missing in the input list only when `OnlyArrayHoldLeft` says so. -/
theorem onlyArrayHoldLeft_of_lost (h : IdsDecided requested clock maxAjInstances job split)
    (hrem : ¬ Remaining requested job (splitTasks requested clock doCopy job) split)
    (hlost : leftIds requested job split kind ≠ none) :
    kind = .jaAHIds ∧
      OnlyArrayHoldLeft requested clock doCopy job (split.nHIds.getD []) := by
  obtain ⟨htasks, hnone⟩ := @leftIds_of_not_remaining _ _ requested job split _ kind hrem
  have hcase : ¬ (kind ≠ .jaAHIds ∨ requested .hold = true ∨ job.idLists .jaAHIds = none) :=
    fun hk => hlost (hnone hk)
  simp only [not_or, not_not, Bool.not_eq_true] at hcase
  simp only [Remaining, not_or, not_and, not_not] at hrem
  obtain ⟨hu, ho, hs, -⟩ := hrem.2.2 hcase.2.1
  refine ⟨hcase.1, hcase.2.1, hu, ho, hs, fun t ht => ?_, fun id hid hnot => ?_⟩
  · rw [splitTasks_left, List.filter_eq_nil_iff] at htasks
    have hkeep := htasks t ht
    simpa using hkeep
  · have hleft : id ∈ ids ((leftIds requested job split .jaNHIds).getD []) := by
      rw [ids_leftIds h]
      exact ⟨hid, hnot⟩
    rw [leftIds] at hleft
    split_ifs at hleft with hp
    · simp at hleft
    · rw [hrem.2.1 (by simpa using hp)] at hleft
      simp at hleft

theorem splitJob_spec [DecidableEq β] (srt : PSortList Range Range.min) {fuel : ℕ} (hok : job.Ok)
    (hmax : maxAjInstances < 2 ^ 32) (hfuel : 2 ^ 31 < fuel) :
    ∃ out admitted, splitJob srt fuel requested clock maxAjInstances doCopy job = some out ∧
      SortsOut requested clock maxAjInstances doCopy job admitted out := by
  obtain ⟨split, hsplit, hdec⟩ := @splitIds_spec _ _ requested clock _ _ srt fuel hok hmax hfuel
  have hpiece : ∀ d, requested d ≠ true →
      ¬ Wanted requested job (splitTasks requested clock doCopy job) split d :=
    fun d hreq h => hreq h.1
  have hids : ∀ kind d, ids ((if Wanted requested job (splitTasks requested clock doCopy job) split d
      then pieceIds job split d kind else none).getD []) =
        {id | id ∈ ids ((job.idLists kind).getD []) ∧
          idTarget requested clock job (split.nHIds.getD []) kind id = some d} := by
    intro kind d
    by_cases hreq : requested d = true
    · rw [← ids_pieceIds hdec hreq]
      split_ifs with hw
      · rfl
      · rw [(pieceIds_of_not_wanted hreq hw).2]
    · rw [if_neg (hpiece d hreq)]
      ext id
      simp only [Option.getD_none, ids_nil, Set.mem_empty_iff_false, Set.mem_ofPred_eq, false_iff]
      exact fun hid => hreq (requested_of_idTarget hid.2)
  have htasks : ∀ d, (if Wanted requested job (splitTasks requested clock doCopy job) split d
      then (splitTasks requested clock doCopy job).target d else []) =
        job.jaTasks.filter (fun t => taskTarget requested clock job t = some d) := by
    intro d
    by_cases hreq : requested d = true
    · rw [← @splitTasks_target _ _ requested clock doCopy]
      split_ifs with hw
      · rfl
      · exact (@pieceIds_of_not_wanted _ _ _ _ _ _ .jaNHIds _ hreq hw).1.symm
    · rw [if_neg (hpiece d hreq), eq_comm, List.filter_eq_nil_iff]
      intro t ht htarget
      exact hreq (requested_of_taskTarget (of_decide_eq_true htarget))
  refine ⟨_, split.nHIds.getD [], by rw [splitJob, hsplit]; rfl, ?_⟩
  refine ⟨fun d hd => ?_, fun d j hj => ?_, fun j hj => ?_, fun d => ?_, ?_, fun kind d => ?_,
    fun kind hkind => ?_, fun hreq hrun hpred htime => ?_, fun hreq hzero hrun => ?_⟩
  · by_contra hreq
    exact hd (if_neg (hpiece d hreq))
  · simp only [Option.mem_def] at hj
    split_ifs at hj
    exact Option.some.inj hj ▸ rfl
  · simp only [Option.mem_def] at hj
    split_ifs at hj
    all_goals exact Option.some.inj hj ▸ rfl
  · rw [tasksOf_piece]
    exact htasks d
  · by_cases hrem : Remaining requested job (splitTasks requested clock doCopy job) split
    · simp only [if_pos hrem, tasksOf, Option.elim_some]
      exact splitTasks_left
    · rw [← splitTasks_left, (@leftIds_of_not_remaining _ _ _ _ _ _ .jaNHIds hrem).1]
      simp only [if_neg hrem]
      split_ifs <;> rfl
  · rw [idsOf_piece]
    exact hids kind d
  · rw [← ids_leftIds hdec]
    by_cases hrem : Remaining requested job (splitTasks requested clock doCopy job) split
    · simp only [if_pos hrem]
      rfl
    · have hnone : leftIds requested job split kind = none := by
        by_contra hlost
        obtain ⟨ha, honly⟩ := onlyArrayHoldLeft_of_lost hdec hrem hlost
        exact hkind.elim (fun hne => hne ha) (fun hnot => hnot honly)
      rw [hnone]
      simp only [if_neg hrem]
      split_ifs <;> simp [idsOf, SplitJob.bare]
  · cases hdec with
    | predecessor hr hp => exact absurd ⟨hr, hp⟩ hpred
    | time hno hr ht => exact absurd ⟨hr, ht⟩ htime
    | instances rest moved hno hnow hr hsub hrest hfirst => exact hfirst hrun
    | pending hno hnow hexc => exact absurd (hreq.symm.trans hexc) (by decide)
  · have hpend := hdec.pending_le hreq hrun
    have hlimit := @ajLimit_le _ _ maxAjInstances job hzero
    have hfilter := @length_filter_add_le _ _ requested clock job job.jaTasks .running .pending
      (by decide)
    simp only [tasksOf_piece, idsOf_piece, htasks, hids]
    rw [allowedInstances] at hpend
    have hroom := Nat.sub_le_sub_right hlimit job.jaTasks.length
    omega

end Ids

section Jobs
variable [DecidableEq β]

theorem foldlM_splitJob (srt : PSortList Range Range.min) {fuel : ℕ} (jobs : List (SplitJob α β))
    (hok : ∀ job ∈ jobs, job.Ok) (hmax : maxAjInstances < 2 ^ 32) (hfuel : 2 ^ 31 < fuel)
    (acc : List (SplitJob α β) × (Split → List (SplitJob α β))) :
    ∃ outs : List (SplitOut α β),
      jobs.foldlM (fun (acc : List (SplitJob α β) × (Split → List (SplitJob α β))) job =>
        (splitJob srt fuel requested clock maxAjInstances doCopy job).map fun out =>
          (acc.1 ++ out.left.toList, fun d => acc.2 d ++ (out.piece d).toList)) acc =
        some (acc.1 ++ outs.filterMap (fun out => out.left),
          fun d => acc.2 d ++ outs.filterMap (fun out => out.piece d)) ∧
      List.Forall₂ (fun job out => ∃ admitted,
        SortsOut requested clock maxAjInstances doCopy job admitted out) jobs outs := by
  induction jobs generalizing acc with
  | nil => exact ⟨[], by simp, .nil⟩
  | cons job jobs ih =>
      obtain ⟨out, admitted, hout, hspec⟩ := @splitJob_spec _ _ requested clock maxAjInstances doCopy
        job _ srt fuel (hok job (by simp)) hmax hfuel
      obtain ⟨outs, houts, hall⟩ := ih (fun j hj => hok j (by simp [hj]))
        (acc.1 ++ out.left.toList, fun d => acc.2 d ++ (out.piece d).toList)
      refine ⟨out :: outs, ?_, .cons ⟨admitted, hspec⟩ hall⟩
      rw [List.foldlM_cons, hout]
      have hcons : ∀ f : SplitOut α β → Option (SplitJob α β),
          (f out).toList ++ outs.filterMap f = (out :: outs).filterMap f := by
        intro f
        rw [List.filterMap_cons]
        cases f out <;> rfl
      have hleft : acc.1 ++ out.left.toList ++ outs.filterMap (fun out => out.left) =
          acc.1 ++ (out :: outs).filterMap (fun out => out.left) := by
        rw [List.append_assoc]
        exact congrArg (acc.1 ++ ·) (hcons fun out => out.left)
      have hpiece : (fun d => acc.2 d ++ (out.piece d).toList ++
          outs.filterMap (fun out => out.piece d)) =
            fun d => acc.2 d ++ (out :: outs).filterMap (fun out => out.piece d) := by
        funext d
        rw [List.append_assoc]
        exact congrArg (acc.2 d ++ ·) (hcons fun out => out.piece d)
      rw [← hleft, ← hpiece]
      exact houts

/-- Every job of the list is sorted out, and the elements are appended to the result lists and
left in the input list in the order of the jobs. -/
theorem splitJobs_sortsOut (srt : PSortList Range Range.min) (fuel : ℕ)
    (jobs : List (SplitJob α β)) (results : Split → List (SplitJob α β))
    (hok : ∀ job ∈ jobs, job.Ok) (hmax : maxAjInstances < 2 ^ 32) (hfuel : 2 ^ 31 < fuel) :
    ∃ outs : List (SplitOut α β),
      splitJobs srt fuel requested clock maxAjInstances doCopy jobs results =
        some (outs.filterMap (fun out => out.left),
          fun d => results d ++ outs.filterMap (fun out => out.piece d)) ∧
      List.Forall₂ (fun job out => ∃ admitted,
        SortsOut requested clock maxAjInstances doCopy job admitted out) jobs outs := by
  obtain ⟨outs, houts, hall⟩ := foldlM_splitJob requested clock maxAjInstances doCopy srt jobs hok
    hmax hfuel ([], results)
  exact ⟨outs, by rw [splitJobs, houts, List.nil_append], hall⟩

end Jobs

/-- An array job with three running tasks and two ids without hold. -/
def threeRunning : SplitJob Unit Unit where
  jobNumber := 1
  executionTime := 0
  jidPredecessorList := none
  jaTaskConcurrency := 0
  idLists := fun kind => if kind = .jaNHIds then some [⟨4, 5, 1⟩] else none
  jaTasks := [⟨1, 0x80, 0, 0, ()⟩, ⟨2, 0x80, 0, 0, ()⟩, ⟨3, 0x80, 0, 0, ()⟩]
  attrs := ()

theorem threeRunning_sortsOut :
    ∃ outs : List (SplitOut Unit Unit),
      splitJobs (PSortList.stable Range Range.min) (2 ^ 31 + 1) (fun _ => true) (fun _ _ => 0) 4
          false [threeRunning] (fun _ => []) =
        some (outs.filterMap (fun out => out.left),
          fun d => [] ++ outs.filterMap (fun out => out.piece d)) ∧
      List.Forall₂ (fun job out => ∃ admitted,
        SortsOut (fun _ => true) (fun _ _ => 0) 4 false job admitted out) [threeRunning] outs := by
  apply splitJobs_sortsOut
  · intro job hjob
    rw [List.mem_singleton.mp hjob]
    refine ⟨fun kind => ?_, by decide⟩
    cases kind with
    | jaNHIds =>
        refine Canonical.singleton ⟨?_, by norm_num, by norm_num, by norm_num⟩
        exact mem_segment_iff_mod.mpr (by decide)
    | _ => exact Canonical.nil
  · norm_num
  · norm_num

/-- With all lists requested and a limit of two, the three running tasks stay in their list. With
the pending list alone, a limit of one leaves both ids of the job pending. -/
theorem threeRunning_over_limit :
    (splitJobs (PSortList.stable Range Range.min) 8 (fun _ => true) (fun _ _ => 0) 2 false
        [threeRunning] (fun _ => [])).map
      (fun r => (r.2 .running).map (fun job => job.jaTasks.length)) = some [3] ∧
    (splitJobs (PSortList.stable Range Range.min) 8 (fun d => decide (d = .pending)) (fun _ _ => 0) 1
        false [threeRunning] (fun _ => [])).map
      (fun r => (r.2 .pending).map (fun job => job.idLists .jaNHIds)) =
        some [some [⟨4, 5, 1⟩]] := by
  decide

end GridEngine
