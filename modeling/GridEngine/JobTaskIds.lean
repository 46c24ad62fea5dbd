import GridEngine.JobTasks
import GridEngine.PeSlots

/-!
# The smallest and the biggest task id that is not enrolled

Both ids are folded over the first and the last ids of the five id lists, where zero stands for an
empty list. The last step, for the array dependency holds, asks for a result of zero where the
steps before it ask for a positive one.
-/

namespace GridEngine
open Segments

/-- An id list whose ranges ascend and end on their step grids. All ids are positive. -/
structure AscendingIds (l : List Range) : Prop where
  max_mem : ∀ r ∈ l, r.max ∈ r.ids
  sorted : l.Pairwise (fun a b => a.max < b.min)
  pos : ∀ r ∈ l, 0 < r.min

section Model
variable (job : Job)

/-- The step of the source for the second to the fourth list. -/
def nextId (f : ℕ → ℕ → ℕ) (ret id : ℕ) : ℕ :=
  if 0 < ret ∧ 0 < id then f ret id else if 0 < id then id else ret

/-- The step for the last list. -/
def nextDependencyId (f : ℕ → ℕ → ℕ) (ret id : ℕ) : ℕ :=
  if ret = 0 ∧ 0 < id then f ret id else if 0 < id then id else ret

/-- `job_get_smallest_unenrolled_task_id`. -/
def jobGetSmallestUnenrolledTaskId : ℕ :=
  let firstId := fun attr => rangeListGetFirstId ((job.idLists attr).getD [])
  let ret := firstId .jaNHIds
  let ret := nextId min ret (firstId .jaUHIds)
  let ret := nextId min ret (firstId .jaOHIds)
  let ret := nextId min ret (firstId .jaSHIds)
  nextDependencyId min ret (firstId .jaAHIds)

/-- `job_get_biggest_unenrolled_task_id`. -/
def jobGetBiggestUnenrolledTaskId : ℕ :=
  let lastId := fun attr => rangeListGetLastId ((job.idLists attr).getD [])
  let ret := lastId .jaNHIds
  let ret := nextId max ret (lastId .jaUHIds)
  let ret := nextId max ret (lastId .jaOHIds)
  let ret := nextId max ret (lastId .jaSHIds)
  nextDependencyId max ret (lastId .jaAHIds)

/-- The ids of one list of a job. -/
def listIds (attr : IdList) : Set ℕ := ids ((job.idLists attr).getD [])

/-- The ids of the lists without the array dependency holds. -/
def otherIds : Set ℕ :=
  listIds job .jaNHIds ∪ listIds job .jaUHIds ∪ listIds job .jaOHIds ∪ listIds job .jaSHIds

/-- The ids that are not enrolled. -/
def unenrolledIds : Set ℕ := {id | ∃ attr, id ∈ listIds job attr}

/-- Both functions return what they are for. -/
def ReturnsEnds : Prop :=
  (unenrolledIds job = ∅ →
    jobGetSmallestUnenrolledTaskId job = 0 ∧ jobGetBiggestUnenrolledTaskId job = 0) ∧
  (unenrolledIds job ≠ ∅ → IsLeast (unenrolledIds job) (jobGetSmallestUnenrolledTaskId job) ∧
    IsGreatest (unenrolledIds job) (jobGetBiggestUnenrolledTaskId job))

/-- No task has an array dependency hold, or such tasks enclose the other ones. -/
def DependencyEncloses : Prop :=
  listIds job .jaAHIds = ∅ ∨ otherIds job ≠ ∅ ∧ ∀ id ∈ otherIds job,
    (∃ low ∈ listIds job .jaAHIds, low ≤ id) ∧ ∃ high ∈ listIds job .jaAHIds, id ≤ high

end Model

/-- `v` is the end of `S` in the sense of `P`, or zero when there is none. -/
def EndOrZero (P : Set ℕ → ℕ → Prop) (S : Set ℕ) (v : ℕ) : Prop :=
  S = ∅ ∧ v = 0 ∨ S ≠ ∅ ∧ 0 < v ∧ P S v

section Ends
variable {P : Set ℕ → ℕ → Prop} {f : ℕ → ℕ → ℕ} {S T : Set ℕ} {v w : ℕ}

theorem EndOrZero.nextId (hunion : ∀ {a b}, P S a → P T b → P (S ∪ T) (f a b))
    (hpos : ∀ a b, 0 < a → 0 < b → 0 < f a b) (hS : EndOrZero P S v) (hT : EndOrZero P T w) :
    EndOrZero P (S ∪ T) (nextId f v w) := by
  rcases hS with ⟨rfl, rfl⟩ | ⟨hS, hv, hPv⟩
  · have hret : GridEngine.nextId f 0 w = w := by
      unfold GridEngine.nextId
      split_ifs with h h'
      · exact absurd h.1 (lt_irrefl 0)
      · rfl
      · omega
    rwa [Set.empty_union, hret]
  · rcases hT with ⟨rfl, rfl⟩ | ⟨hT, hw, hPw⟩
    · have hret : GridEngine.nextId f v 0 = v := by
        simp only [GridEngine.nextId, lt_irrefl, and_false, if_false]
      rw [Set.union_empty, hret]
      exact Or.inr ⟨hS, hv, hPv⟩
    · have hret : GridEngine.nextId f v w = f v w := if_pos ⟨hv, hw⟩
      rw [hret]
      exact Or.inr ⟨fun h => hS (Set.union_empty_iff.mp h).1, hpos v w hv hw, hunion hPv hPw⟩

variable {l : List Range} {job : Job}

theorem AscendingIds.min_le (h : AscendingIds l) : ∀ r ∈ l, r.min ≤ r.max :=
  fun r hr => (segment_le (h.max_mem r hr)).1

theorem AscendingIds.endOrZero_first (h : AscendingIds l) :
    EndOrZero IsLeast (ids l) (rangeListGetFirstId l) := by
  cases l with
  | nil => exact Or.inl ⟨ids_nil, rfl⟩
  | cons r l =>
      have hmin : r.min ∈ ids (r :: l) :=
        ⟨r, List.mem_cons_self, left_mem_grid, h.min_le r List.mem_cons_self⟩
      refine Or.inr ⟨Set.nonempty_iff_ne_empty.mp ⟨_, hmin⟩, h.pos r List.mem_cons_self, hmin, ?_⟩
      intro x hx
      obtain ⟨q, hq, hxq⟩ := hx
      have hlow := (segment_le hxq).1
      have hle := h.min_le r List.mem_cons_self
      change r.min ≤ x
      rcases List.mem_cons.mp hq with rfl | hq
      · exact hlow
      · have hlt := (List.pairwise_cons.mp h.sorted).1 q hq
        omega

theorem AscendingIds.endOrZero_last (h : AscendingIds l) :
    EndOrZero IsGreatest (ids l) (rangeListGetLastId l) := by
  rcases List.eq_nil_or_concat' l with rfl | ⟨init, r, rfl⟩
  · exact Or.inl ⟨ids_nil, rfl⟩
  · have hr : r ∈ init ++ [r] := by simp
    have hlast : rangeListGetLastId (init ++ [r]) = r.max := by
      simp [rangeListGetLastId]
    have hle := h.min_le r hr
    have hpos := h.pos r hr
    have hmax : r.max ∈ ids (init ++ [r]) := ⟨r, hr, h.max_mem r hr⟩
    rw [hlast]
    refine Or.inr ⟨Set.nonempty_iff_ne_empty.mp ⟨_, hmax⟩, by omega, hmax, ?_⟩
    intro x hx
    obtain ⟨q, hq, hxq⟩ := hx
    have hhigh := (segment_le hxq).2
    rcases List.mem_append.mp hq with hq | hq
    · have hlt := (List.pairwise_append.mp h.sorted).2.2 q hq r (by simp)
      omega
    · rwa [List.mem_singleton.mp hq] at hhigh

theorem unenrolledIds_eq : unenrolledIds job = otherIds job ∪ listIds job .jaAHIds := by
  ext id
  simp only [unenrolledIds, otherIds, Set.mem_union, Set.mem_ofPred_eq]
  constructor
  · rintro ⟨attr, h⟩
    cases attr <;> simp [h]
  · rintro ((((h | h) | h) | h) | h) <;> exact ⟨_, h⟩

/-- The step for the array dependency holds, where `v` is the end of the other ids. -/
theorem nextDependencyId_end (hpos : f 0 w = 0 ∨ f 0 w = w) (hS : EndOrZero P S v)
    (hT : EndOrZero P T w) :
    nextDependencyId f v w = if T = ∅ then v else if S = ∅ then f 0 w else w := by
  rcases hT with ⟨rfl, rfl⟩ | ⟨hT, hw, -⟩
  · simp only [nextDependencyId, lt_irrefl, and_false, if_false, if_true]
  · rw [if_neg hT]
    rcases hS with ⟨rfl, rfl⟩ | ⟨hS, hv, -⟩
    · simp only [nextDependencyId, hw, and_true, if_true]
    · rw [if_neg hS, nextDependencyId, if_neg (by omega), if_pos hw]

end Ends

section Result
variable {job : Job} (h : ∀ attr, AscendingIds ((job.idLists attr).getD []))

include h in
theorem endOrZero_otherSmallest : ∃ v, EndOrZero IsLeast (otherIds job) v ∧
    jobGetSmallestUnenrolledTaskId job =
      nextDependencyId min v (rangeListGetFirstId ((job.idLists .jaAHIds).getD [])) := by
  have hunion : ∀ {S T : Set ℕ} {a b}, IsLeast S a → IsLeast T b → IsLeast (S ∪ T) (min a b) :=
    fun ha hb => ha.union hb
  have hpos : ∀ a b : ℕ, 0 < a → 0 < b → 0 < min a b := fun a b ha hb => lt_min ha hb
  have hn := (h .jaNHIds).endOrZero_first
  have hu := (h .jaUHIds).endOrZero_first
  have ho := (h .jaOHIds).endOrZero_first
  have hs := (h .jaSHIds).endOrZero_first
  have hnu := hn.nextId hunion hpos hu
  have hnuo := hnu.nextId hunion hpos ho
  exact ⟨_, hnuo.nextId hunion hpos hs, rfl⟩

include h in
theorem endOrZero_otherBiggest : ∃ v, EndOrZero IsGreatest (otherIds job) v ∧
    jobGetBiggestUnenrolledTaskId job =
      nextDependencyId max v (rangeListGetLastId ((job.idLists .jaAHIds).getD [])) := by
  have hunion : ∀ {S T : Set ℕ} {a b},
      IsGreatest S a → IsGreatest T b → IsGreatest (S ∪ T) (max a b) :=
    fun ha hb => ha.union hb
  have hpos : ∀ a b : ℕ, 0 < a → 0 < b → 0 < max a b := fun a b ha _ => lt_max_of_lt_left ha
  have hn := (h .jaNHIds).endOrZero_last
  have hu := (h .jaUHIds).endOrZero_last
  have ho := (h .jaOHIds).endOrZero_last
  have hs := (h .jaSHIds).endOrZero_last
  have hnu := hn.nextId hunion hpos hu
  have hnuo := hnu.nextId hunion hpos ho
  exact ⟨_, hnuo.nextId hunion hpos hs, rfl⟩

/-- The ends of the array dependency holds are those of the union if they enclose the others. -/
theorem ends_union_iff {S T : Set ℕ} {w W : ℕ} (hw : IsLeast T w) (hW : IsGreatest T W) :
    IsLeast (S ∪ T) w ∧ IsGreatest (S ∪ T) W ↔
      ∀ id ∈ S, (∃ low ∈ T, low ≤ id) ∧ ∃ high ∈ T, id ≤ high := by
  constructor
  · intro hends id hid
    have hlow := hends.1.2 (Set.mem_union_left T hid)
    have hhigh := hends.2.2 (Set.mem_union_left T hid)
    exact ⟨⟨w, hw.1, hlow⟩, W, hW.1, hhigh⟩
  · intro hall
    constructor
    · refine ⟨Set.mem_union_right S hw.1, ?_⟩
      rintro id (hid | hid)
      · obtain ⟨low, hlow, hle⟩ := (hall id hid).1
        exact (hw.2 hlow).trans hle
      · exact hw.2 hid
    · refine ⟨Set.mem_union_right S hW.1, ?_⟩
      rintro id (hid | hid)
      · obtain ⟨high, hhigh, hle⟩ := (hall id hid).2
        exact hle.trans (hW.2 hhigh)
      · exact hW.2 hid

/-- A job with array dependency holds on its tasks one to three and some user holds. -/
def dependentJob (user : Option (List Range)) : Job where
  jaStructure := some [⟨1, 3, 1⟩]
  idLists := fun attr =>
    if attr = .jaAHIds then some [⟨1, 3, 1⟩] else if attr = .jaUHIds then user else none
  jaTasks := []
  jaTemplate := ⟨0, 0, 0⟩

theorem ascendingIds_nil : AscendingIds [] := ⟨nofun, List.Pairwise.nil, nofun⟩

theorem ascendingIds_singleton {r : Range} (hmax : r.max ∈ r.ids) (hmin : 0 < r.min) :
    AscendingIds [r] := by
  refine ⟨fun q hq => ?_, List.pairwise_singleton _ r, fun q hq => ?_⟩
  · rwa [List.mem_singleton.mp hq]
  · rwa [List.mem_singleton.mp hq]

theorem dependentJob_ascendingIds {user : Option (List Range)} (h : AscendingIds (user.getD [])) :
    ∀ attr, AscendingIds (((dependentJob user).idLists attr).getD []) := by
  intro attr
  cases attr with
  | jaNHIds => exact ascendingIds_nil
  | jaUHIds => exact h
  | jaOHIds => exact ascendingIds_nil
  | jaSHIds => exact ascendingIds_nil
  | jaAHIds => exact ascendingIds_singleton ⟨⟨2, rfl⟩, le_rfl⟩ Nat.one_pos

end Result

end GridEngine
