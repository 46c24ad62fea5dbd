import GridEngine.JobTasks
import GridEngine.Machine

/-!
# Every task is in one place

The purpose of the five id lists and of `JB_ja_tasks` is to give every defined task one place:
it is pending with some hold bits, enrolled, or deleted. Each call moves one task, and the lists
of the job always spell out the places. All facts about whole histories follow from the places,
which depend on the calls about a task only.
-/

namespace GridEngine
open Segments Machine

/-- The place of a defined task. -/
inductive TaskPlace
  | pending (hold : ℕ)
  | enrolled
  | deleted
deriving DecidableEq, Repr

/-- What a call means for the places. -/
def placeStep (p : ℕ → TaskPlace) : JobOp → ℕ → TaskPlace
  | .setHoldState id newHoldState =>
      match p id with
      | .pending _ => Function.update p id (.pending (newHoldState &&& minusHTgtAll))
      | _ => p
  | .deleteNotEnrolled id =>
      match p id with
      | .pending _ => Function.update p id .deleted
      | _ => p
  | .enroll id => Function.update p id .enrolled

namespace TaskPlace

/-- The lists that hold the id of a task at this place. -/
def InList (attr : IdList) : TaskPlace → Prop
  | pending hold => hold &&& attr.mask ≠ 0 ↔ attr ≠ .jaNHIds
  | _ => False

end TaskPlace

/-- The lists of `job` are those of the places `p` of the tasks in `D`. -/
structure Refines (D : Set ℕ) (job : Job) (p : ℕ → TaskPlace) : Prop where
  defined : ids (job.jaStructure.getD []) = D
  canonical : ∀ attr, Canonical ((job.idLists attr).getD [])
  ids_eq : ∀ attr, ids ((job.idLists attr).getD []) = {id | id ∈ D ∧ (p id).InList attr}
  nodup : (job.jaTasks.map JaTask.taskNumber).Nodup
  tasks : ∀ id, id ∈ job.jaTasks.map JaTask.taskNumber ↔ id ∈ D ∧ p id = .enrolled
  hold_lt : ∀ id hold, p id = .pending hold → hold < 16

section Lists
variable (srt : PSortList Range Range.min) {job : Job} {attr : IdList} {id st : ℕ}

theorem inIdList_iff : inIdList job attr id = true ↔ id ∈ ids ((job.idLists attr).getD []) :=
  rangeListIsIdWithin_iff

theorem jobIsEnrolled_iff :
    jobIsEnrolled job id = false ↔ ∃ attr, inIdList job attr id = true := by
  simp only [jobIsEnrolled, Bool.not_eq_false', Bool.or_eq_true]
  constructor
  · rintro ((((h | h) | h) | h) | h) <;> exact ⟨_, h⟩
  · rintro ⟨attr, h⟩
    cases attr <;> simp [h]

theorem foldl_idLists (f : IdList → Option (List Range) → Option (List Range)) :
    [IdList.jaNHIds, .jaUHIds, .jaOHIds, .jaSHIds, .jaAHIds].foldl (fun job attr =>
      { job with idLists := Function.update job.idLists attr (f attr (job.idLists attr)) }) job =
    { job with idLists := fun attr => f attr (job.idLists attr) } := by
  simp only [List.foldl_cons, List.foldl_nil, Job.mk.injEq, true_and, and_true]
  funext attr
  cases attr <;> rfl

/-- `out` is a canonical list that differs from `l` only in whether it has `id`. -/
structure SetsId (id : ℕ) (b : Prop) (l out : Option (List Range)) : Prop where
  canonical : Canonical (out.getD [])
  mem_iff : ∀ x, x ∈ ids (out.getD []) ↔ x = id ∧ b ∨ x ≠ id ∧ x ∈ ids (l.getD [])

variable {l : Option (List Range)}

theorem insert_setsId (h : Canonical (l.getD [])) (hid : id < 2 ^ 31) :
    SetsId id True l ((rangeListInsertIdOpt srt l id).map rangeListCompress) := by
  obtain ⟨hc, hids⟩ := rangeListInsertIdOpt_spec srt h hid
  obtain ⟨hc', hids'⟩ := compressOpt_spec hc
  refine ⟨hc', fun x => ?_⟩
  rw [hids', hids, Set.mem_insert_iff]
  tauto

theorem remove_setsId (id : ℕ) (h : Canonical (l.getD [])) :
    SetsId id False l ((rangeListRemoveId l id).map rangeListCompress) := by
  obtain ⟨hc, hids⟩ := rangeListRemoveId_spec id h
  obtain ⟨hc', hids'⟩ := compressOpt_spec hc
  refine ⟨hc', fun x => ?_⟩
  rw [hids', hids, Set.mem_sdiff, Set.mem_singleton_iff]
  tauto

theorem and_mask (attr : IdList) : st &&& minusHTgtAll &&& attr.mask = st &&& attr.mask := by
  rw [Nat.and_assoc]
  cases attr <;> rfl

theorem setHoldList_setsId (h : Canonical (l.getD [])) (hid : id < 2 ^ 31) :
    SetsId id ((TaskPlace.pending (st &&& minusHTgtAll)).InList attr) l
      (setHoldList srt attr st id l) := by
  have hins := insert_setsId srt h hid
  have hrem := remove_setsId id h
  simp only [TaskPlace.InList, and_mask]
  by_cases hn : attr = .jaNHIds
  · subst hn
    by_cases hst : st &&& IdList.jaNHIds.mask = 0
    · simpa [setHoldList, elseFunction, hst] using hins
    · simpa [setHoldList, ifFunction, hst] using hrem
  · by_cases hst : st &&& attr.mask = 0
    · simpa [setHoldList, elseFunction, hst, hn] using hrem
    · simpa [setHoldList, ifFunction, hst, hn] using hins

theorem updateTask_taskNumber (st id : ℕ) (tasks : List JaTask) :
    (updateTask (JaTask.setHold st) id tasks).map JaTask.taskNumber =
      tasks.map JaTask.taskNumber := by
  induction tasks with
  | nil => rfl
  | cons t rest ih =>
      rw [updateTask]
      split_ifs
      · rfl
      · rw [List.map_cons, List.map_cons, ih]

end Lists

section Steps
variable (srt : PSortList Range Range.min) {job : Job} {p : ℕ → TaskPlace} {D : Set ℕ}
  {attr : IdList} {id st : ℕ}

/-- Some list holds the id of every pending task, since its hold bits fit into the masks. -/
theorem exists_inList_iff (hlt : ∀ hold, p id = .pending hold → hold < 16) :
    (∃ attr, (p id).InList attr) ↔ ∃ hold, p id = .pending hold := by
  cases hp : p id with
  | pending hold =>
      have hbits : ∀ h < 16, h &&& 15 = 0 ∨ h &&& 1 ≠ 0 ∨ h &&& 2 ≠ 0 ∨ h &&& 4 ≠ 0 ∨
          h &&& 8 ≠ 0 := by decide
      refine ⟨fun _ => ⟨hold, rfl⟩, fun _ => ?_⟩
      rcases hbits hold (hlt hold hp) with h0 | h1 | h2 | h4 | h8
      · exact ⟨.jaNHIds, fun hne => absurd h0 hne, fun hne => absurd rfl hne⟩
      · exact ⟨.jaUHIds, fun _ => by decide, fun _ => h1⟩
      · exact ⟨.jaOHIds, fun _ => by decide, fun _ => h2⟩
      · exact ⟨.jaSHIds, fun _ => by decide, fun _ => h4⟩
      · exact ⟨.jaAHIds, fun _ => by decide, fun _ => h8⟩
  | enrolled => simp [TaskPlace.InList]
  | deleted => simp [TaskPlace.InList]

namespace Refines
variable (h : Refines D job p)
include h

theorem inIdList_iff : inIdList job attr id = true ↔ id ∈ D ∧ (p id).InList attr := by
  rw [GridEngine.inIdList_iff, h.ids_eq]
  rfl

theorem defined_iff : jobIsJaTaskDefined job id = true ↔ id ∈ D := by
  rw [jobIsJaTaskDefined, rangeListIsIdWithin_iff, h.defined]

theorem jobIsEnrolled_iff :
    jobIsEnrolled job id = false ↔ id ∈ D ∧ ∃ hold, p id = .pending hold := by
  rw [GridEngine.jobIsEnrolled_iff, ← exists_inList_iff (fun hold => h.hold_lt id hold)]
  simp only [h.inIdList_iff, exists_and_left]

theorem jobSearchTask_isSome : (jobSearchTask job id).isSome = true ↔
    id ∈ D ∧ p id = .enrolled := by
  rw [← h.tasks, jobSearchTask, List.find?_isSome, List.mem_map]
  simp

theorem not_pending (hen : ¬ jobIsEnrolled job id = false) (hD : id ∈ D) (hold : ℕ) :
    p id ≠ .pending hold :=
  fun hp => hen (h.jobIsEnrolled_iff.mpr ⟨hD, hold, hp⟩)

/-- Changing every list as one update of the places demands keeps the refinement. -/
theorem update_lists {f : IdList → Option (List Range) → Option (List Range)} {t : TaskPlace}
    (hf : ∀ attr, SetsId id (t.InList attr) (job.idLists attr) (f attr (job.idLists attr)))
    (hD : id ∈ D) (ht : p id = .enrolled ↔ t = .enrolled)
    (hlt : ∀ hold, t = .pending hold → hold < 16) :
    Refines D { job with idLists := fun attr => f attr (job.idLists attr) }
      (Function.update p id t) where
  defined := h.defined
  canonical attr := (hf attr).canonical
  ids_eq attr := by
    ext x
    rw [(hf attr).mem_iff, h.ids_eq]
    by_cases hx : x = id
    · subst hx
      simp [hD]
    · simp [hx]
  nodup := h.nodup
  tasks x := by
    rw [h.tasks]
    by_cases hx : x = id
    · subst hx
      simp [ht]
    · simp [hx]
  hold_lt x hold := by
    by_cases hx : x = id
    · subst hx
      simpa using hlt hold
    · simpa [hx] using h.hold_lt x hold

/-- Changing elements of `JB_ja_tasks` other than by their number moves no task. -/
theorem update_tasks {tasks : List JaTask}
    (htasks : tasks.map JaTask.taskNumber = job.jaTasks.map JaTask.taskNumber) :
    Refines D { job with jaTasks := tasks } p :=
  ⟨h.defined, h.canonical, h.ids_eq, by simpa only [htasks] using h.nodup,
    by simpa only [htasks] using h.tasks, h.hold_lt⟩

theorem setHoldState (hD : id ∈ D) (hid : id < 2 ^ 31) :
    Refines D (jobSetHoldState srt job id st) (placeStep p (.setHoldState id st)) := by
  by_cases hen : jobIsEnrolled job id = false
  · obtain ⟨-, hold, hp⟩ := h.jobIsEnrolled_iff.mp hen
    have hlists : jobSetHoldState srt job id st =
        { job with idLists := fun attr => setHoldList srt attr st id (job.idLists attr) } := by
      rw [jobSetHoldState, hen]
      exact foldl_idLists (fun attr => setHoldList srt attr st id)
    simp only [hlists, placeStep, hp]
    apply h.update_lists (fun attr => setHoldList_setsId srt (h.canonical attr) hid) hD
    · simp [hp]
    · intro hold' heq
      obtain rfl := TaskPlace.pending.inj heq
      exact Nat.and_lt_two_pow st (by norm_num [minusHTgtAll] : minusHTgtAll < 2 ^ 4)
  · have hplace : placeStep p (.setHoldState id st) = p := by
      cases hp : p id with
      | pending hold => exact absurd hp (h.not_pending hen hD hold)
      | enrolled => simp [placeStep, hp]
      | deleted => simp [placeStep, hp]
    rw [jobSetHoldState, if_neg (by simpa using hen), hplace]
    exact h.update_tasks (updateTask_taskNumber _ id job.jaTasks)

/-- Taking the id out of some lists, where the other lists do not have it, deletes a task that
is not enrolled. -/
theorem remove_from {f : IdList → Option (List Range) → Option (List Range)}
    (hf : ∀ attr, SetsId id False (job.idLists attr) (f attr (job.idLists attr))) (hD : id ∈ D) :
    Refines D { job with idLists := fun attr => f attr (job.idLists attr) }
      (if p id = .enrolled then p else Function.update p id .deleted) := by
  split_ifs with hp
  · have hup := h.update_lists (t := .enrolled) hf hD (by simp [hp]) (by simp)
    rwa [← hp, Function.update_eq_self] at hup
  · exact h.update_lists hf hD (by simp [hp]) (by simp)

theorem deleteNotEnrolled (hD : id ∈ D) :
    Refines D (jobDeleteNotEnrolledJaTask job id) (placeStep p (.deleteNotEnrolled id)) := by
  have hlists : jobDeleteNotEnrolledJaTask job id = { job with
      idLists := fun attr => (rangeListRemoveId (job.idLists attr) id).map rangeListCompress } :=
    foldl_idLists (fun _ l => (rangeListRemoveId l id).map rangeListCompress)
  have hplace : placeStep p (.deleteNotEnrolled id) =
      if p id = .enrolled then p else Function.update p id .deleted := by
    cases hp : p id with
    | pending hold => simp [placeStep, hp]
    | enrolled => simp [placeStep, hp]
    | deleted =>
        simp only [placeStep, hp, reduceCtorEq, if_false]
        rw [← hp, Function.update_eq_self]
  rw [hlists, hplace]
  exact h.remove_from (f := fun _ l => (rangeListRemoveId l id).map rangeListCompress)
    (fun attr => remove_setsId id (h.canonical attr)) hD

theorem append_task (hD : id ∈ D) (hp : p id = .deleted) (t : JaTask) (ht : t.taskNumber = id) :
    Refines D { job with jaTemplate := t, jaTasks := job.jaTasks ++ [t] }
      (Function.update p id .enrolled) where
  defined := h.defined
  canonical := h.canonical
  ids_eq attr := by
    ext x
    rw [h.ids_eq]
    by_cases hx : x = id
    · subst hx
      simp [hp, TaskPlace.InList]
    · simp [hx]
  nodup := by
    have hnot : id ∉ job.jaTasks.map JaTask.taskNumber := by
      rw [h.tasks]
      simp [hp]
    rw [List.map_append, List.map_singleton, ht, ← List.concat_eq_append]
    exact h.nodup.concat hnot
  tasks x := by
    rw [List.map_append, List.mem_append, h.tasks, List.map_singleton, List.mem_singleton, ht]
    by_cases hx : x = id
    · subst hx
      simp [hD]
    · simp [hx]
  hold_lt x hold := by
    by_cases hx : x = id
    · subst hx
      simp
    · simpa [hx] using h.hold_lt x hold

theorem enroll (hD : id ∈ D)
    (hhold : ∀ attr, attr ≠ .jaNHIds → GridEngine.inIdList job attr id = false) :
    Refines D (jobEnroll job id) (placeStep p (.enroll id)) := by
  have hremoved := h.remove_from (f := fun attr l =>
      if attr = .jaNHIds then (rangeListRemoveId l id).map rangeListCompress else l)
    (fun attr => by
      by_cases hn : attr = .jaNHIds
      · simpa [hn] using remove_setsId id (h.canonical .jaNHIds)
      · have hnot : id ∉ ids ((job.idLists attr).getD []) := fun hin => by
          simpa [hhold attr hn] using GridEngine.inIdList_iff.mpr hin
        simp only [hn, if_false]
        refine ⟨h.canonical attr, fun x => ?_⟩
        constructor
        · intro hx
          exact Or.inr ⟨fun heq => hnot (heq ▸ hx), hx⟩
        · rintro (hx | hx)
          · exact hx.2.elim
          · exact hx.2) hD
  have hlists : objectDeleteRangeId job .jaNHIds id = { job with
      idLists := fun attr => if attr = .jaNHIds
        then (rangeListRemoveId (job.idLists attr) id).map rangeListCompress
        else job.idLists attr } := by
    simp only [objectDeleteRangeId, Job.mk.injEq, true_and, and_true]
    funext attr
    by_cases hn : attr = .jaNHIds
    · subst hn
      simp
    · simp [hn]
  rw [← hlists] at hremoved
  simp only [jobEnroll, placeStep]
  cases hs : jobSearchTask (objectDeleteRangeId job .jaNHIds id) id with
  | some t =>
      have hp : p id = .enrolled := by
        have := hremoved.jobSearchTask_isSome.mp (by rw [hs]; rfl)
        by_contra hne
        simp [hne] at this
      rw [← hp, Function.update_eq_self]
      simpa [hp] using hremoved
  | none =>
      have hp : p id ≠ .enrolled := fun hp => by
        have := hremoved.jobSearchTask_isSome.mpr ⟨hD, by simp [hp]⟩
        simp [hs] at this
      simp only [hp, if_false] at hremoved
      have happ := hremoved.append_task hD (Function.update_self ..)
        (jobGetJaTaskTemplatePending (objectDeleteRangeId job .jaNHIds id) id).jaTemplate rfl
      rwa [Function.update_idem] at happ

theorem step (hsmall : ∀ id ∈ D, id < 2 ^ 31) {op : JobOp} {job' : Job}
    (hstep : op.Step srt job job') : Refines D job' (placeStep p op) := by
  obtain ⟨⟨hdef, hhold⟩, rfl⟩ := hstep
  have hD := h.defined_iff.mp hdef
  cases op with
  | setHoldState id st => exact h.setHoldState srt hD (hsmall _ hD)
  | deleteNotEnrolled id => exact h.deleteNotEnrolled hD
  | enroll id => exact h.enroll hD (hhold id rfl)

end Refines
end Steps

end GridEngine
