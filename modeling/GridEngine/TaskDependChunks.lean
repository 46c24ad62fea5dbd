import GridEngine.TaskDepend

/-!
# Dependencies between jobs with different steps

A task stands for a chunk of numbers that is cut at the end of the submit range. For all tasks but
the last one `sge_task_depend_get_range` finds exactly the tasks whose chunks meet. The number behind
the last chunk has to lie in the last chunk of the other job, or else the call fails.
-/

namespace GridEngine
open Segments

namespace Range
variable {r : Range} {i : ℕ}

/-- The last id of a range. -/
def lastId (r : Range) : ℕ := blockStart r.min r.step r.max

/-- The numbers that a task stands for. -/
def chunk (r : Range) (i : ℕ) : Set ℕ := {k | i ≤ k ∧ k < i + r.step ∧ k ≤ r.max}

/-- A submit range of words. -/
structure Submit (r : Range) : Prop where
  le : r.min ≤ r.max
  max_lt : r.max < 2 ^ 32
  step_pos : 1 ≤ r.step
  step_lt : r.step < 2 ^ 32

theorem Submit.lastId_mem (h : r.Submit) : r.lastId ∈ r.ids :=
  ⟨blockStart_mem_grid, blockStart_le h.le⟩

theorem Submit.max_lt_lastId (h : r.Submit) : r.max < r.lastId + r.step :=
  lt_blockStart_add h.step_pos h.le

theorem Submit.le_lastId (h : r.Submit) (hi : i ∈ r.ids) : i ≤ r.lastId :=
  (le_blockStart_iff h.step_pos h.le hi.1).mpr hi.2

/-- Every task but the last one has a whole chunk. -/
theorem Submit.add_step_le (h : r.Submit) (hi : i ∈ r.ids) (hne : i ≠ r.lastId) :
    i + r.step ≤ r.lastId := by
  have hlt := lt_of_le_of_ne (h.le_lastId hi) hne
  exact grid_le (grid_lt_add blockStart_mem_grid hi.1 hlt)

theorem Submit.blockStart_le_max_iff {x : ℕ} (h : r.Submit) (hx : r.min ≤ x) :
    blockStart r.min r.step x ≤ r.max ↔ x < r.lastId + r.step := by
  have hiff : blockStart r.min r.step x ≤ r.lastId ↔ x < r.lastId + r.step :=
    blockStart_le_iff h.step_pos hx blockStart_mem_grid
  rw [← hiff]
  constructor
  · intro hle
    exact h.le_lastId ⟨blockStart_mem_grid, hle⟩
  · intro hle
    exact hle.trans h.lastId_mem.2

/-- The last chunk of `b` ends within the last chunk of `a`. Behind the largest word a sum starts
again at zero, and the last id of `a` has to lie below that. -/
def LastChunkFits (a b : Range) : Prop :=
  (b.lastId + b.step ≤ a.lastId + a.step ∧ b.lastId + b.step ≤ a.min + 2 ^ 32) ∨
    a.lastId + 2 ^ 32 < b.lastId + b.step

end Range

/-- The upper bound that `task_depend` stores for the last chunk, whose end may be behind the largest
word. -/
theorem nearestIndexInA_last {r : Range} {e s : ℕ} (h : r.Submit) (he : r.min ≤ e)
    (he' : e ≤ r.max) (hend : r.max < e + s) (hs : s < 2 ^ 32) :
    (r.lastId ≤ nearestIndexInA (wsub (wadd e s) 1) r.min r.step ∧
        nearestIndexInA (wsub (wadd e s) 1) r.min r.step ≤ r.max) ↔
      (e + s ≤ r.lastId + r.step ∧ e + s ≤ r.min + 2 ^ 32) ∨ r.lastId + 2 ^ 32 < e + s := by
  have hmax := h.max_lt
  have hlow := (segment_le h.lastId_mem).1
  have hhigh := h.lastId_mem.2
  have hbeyond := h.max_lt_lastId
  have hbounds : ∀ x, r.min ≤ x → (r.lastId ≤ blockStart r.min r.step x ∧
      blockStart r.min r.step x ≤ r.max ↔ r.lastId ≤ x ∧ x < r.lastId + r.step) := by
    intro x hx
    rw [le_blockStart_iff h.step_pos hx h.lastId_mem.1, h.blockStart_le_max_iff hx]
  by_cases hword : e + s ≤ 2 ^ 32
  · have hx : wsub (wadd e s) 1 = e + s - 1 := by
      unfold wadd wsub
      omega
    rw [hx, nearestIndexInA_eq (by omega) (by omega), hbounds _ (by omega)]
    omega
  · have hx : wsub (wadd e s) 1 = e + s - 1 - 2 ^ 32 := by
      unfold wadd wsub
      omega
    rw [hx]
    by_cases hin : r.min ≤ e + s - 1 - 2 ^ 32
    · rw [nearestIndexInA_eq hin (by omega), hbounds _ hin]
      omega
    · have hdiff : wsub (e + s - 1 - 2 ^ 32) r.min = e + s - 1 - r.min := by
        unfold wsub
        omega
      have hdiv := Nat.div_mul_le_self (e + s - 1 - r.min) r.step
      have hnear : nearestIndexInA (e + s - 1 - 2 ^ 32) r.min r.step =
          blockStart r.min r.step (e + s - 1) % 2 ^ 32 := by
        rw [nearestIndexInA, hdiff, wmul_eq (by omega)]
        rfl
      have hblock := hbounds (e + s - 1) (by omega)
      have hle := blockStart_le (s := r.step) (show r.min ≤ e + s - 1 by omega)
      rw [hnear]
      generalize blockStart r.min r.step (e + s - 1) = x at hblock hle ⊢
      omega

/-- Two array jobs with the same submit bounds. -/
structure SameBounds (a b : DependJob) : Prop where
  isArray : a.isArray = true
  isArray' : b.isArray = true
  min_eq : (jobGetSubmitTaskIds a).min = (jobGetSubmitTaskIds b).min
  max_eq : (jobGetSubmitTaskIds a).max = (jobGetSubmitTaskIds b).max
  submit : (jobGetSubmitTaskIds a).Submit
  submit' : (jobGetSubmitTaskIds b).Submit

/-- The task `t` of the successor `b` depends on the tasks of `a` whose chunks meet its own. -/
def FindsChunks (a b : DependJob) (t : ℕ) : Prop :=
  ∃ r, sgeTaskDependGetRange a b t = some r ∧ ∀ j, j ∈ r.ids ↔ j ∈ (jobGetSubmitTaskIds a).ids ∧
    ((jobGetSubmitTaskIds a).chunk j ∩ (jobGetSubmitTaskIds b).chunk t).Nonempty

/-- The dependencies of `b` on `a` are those of the chunks, asked from either side. -/
structure ChunksDepend (a b : DependJob) : Prop where
  finds : ∀ i ∈ (jobGetSubmitTaskIds b).ids, FindsChunks a b i
  symmetric : ∀ i ∈ (jobGetSubmitTaskIds b).ids, ∀ j ∈ (jobGetSubmitTaskIds a).ids,
    (∃ r, sgeTaskDependGetRange a b i = some r ∧ j ∈ r.ids) ↔
      ∃ q, sgeTaskDependGetRange b a j = some q ∧ i ∈ q.ids

namespace SameBounds
variable {a b : DependJob} {i j t : ℕ}

theorem symm (h : SameBounds a b) : SameBounds b a :=
  ⟨h.isArray', h.isArray, h.min_eq.symm, h.max_eq.symm, h.submit', h.submit⟩

theorem meet_iff (h : SameBounds a b) (hj : j ∈ (jobGetSubmitTaskIds a).ids)
    (hi : i ∈ (jobGetSubmitTaskIds b).ids) :
    ((jobGetSubmitTaskIds a).chunk j ∩ (jobGetSubmitTaskIds b).chunk i).Nonempty ↔
      BlocksMeet j (jobGetSubmitTaskIds a).step i (jobGetSubmitTaskIds b).step := by
  have hmax := h.max_eq
  have hjmax := hj.2
  have himax := hi.2
  have hsa := h.submit.step_pos
  have hsb := h.submit'.step_pos
  constructor
  · rintro ⟨k, ⟨hjk, hkj, -⟩, ⟨hik, hki, -⟩⟩
    exact ⟨by omega, by omega⟩
  · rintro ⟨hji, hij⟩
    refine ⟨max j i, ⟨le_max_left j i, ?_, ?_⟩, ⟨le_max_right j i, ?_, ?_⟩⟩
    all_goals omega

/-- What is left of `sge_task_depend_get_range` for a task of the successor. -/
theorem getRange_eq (h : SameBounds a b) (ht : t ∈ (jobGetSubmitTaskIds b).ids) :
    sgeTaskDependGetRange a b t =
      if (jobGetSubmitTaskIds a).max < nearestIndexInA
          (wsub (wadd t (jobGetSubmitTaskIds b).step) 1) (jobGetSubmitTaskIds a).min
          (jobGetSubmitTaskIds a).step then none
      else some (rangeSetAllIds
        (blockStart (jobGetSubmitTaskIds a).min (jobGetSubmitTaskIds a).step t)
        (nearestIndexInA (wsub (wadd t (jobGetSubmitTaskIds b).step) 1)
          (jobGetSubmitTaskIds a).min (jobGetSubmitTaskIds a).step)
        (jobGetSubmitTaskIds a).step) := by
  obtain ⟨hmin, htmax, hmod⟩ := mem_segment_iff_mod.mp ht
  have hmax := h.submit'.max_lt
  have hsame : sgeTaskDependIsSameRange a b = true :=
    sgeTaskDependIsSameRange_iff.mpr ⟨h.isArray, h.isArray', h.min_eq, h.max_eq⟩
  have hfirst : ¬ (t < (jobGetSubmitTaskIds b).min ∨
      wsub t (jobGetSubmitTaskIds b).min % (jobGetSubmitTaskIds b).step ≠ 0) := by
    rw [wsub_eq hmin (by omega), hmod]
    omega
  have hstart : nearestIndexInA t (jobGetSubmitTaskIds a).min (jobGetSubmitTaskIds a).step =
      blockStart (jobGetSubmitTaskIds a).min (jobGetSubmitTaskIds a).step t :=
    nearestIndexInA_eq (by rw [h.min_eq]; exact hmin) (by omega)
  have hlow : ¬ blockStart (jobGetSubmitTaskIds a).min (jobGetSubmitTaskIds a).step t <
      (jobGetSubmitTaskIds a).min := not_lt.mpr (grid_le blockStart_mem_grid)
  simp only [sgeTaskDependGetRange, hsame, Bool.not_true, Bool.false_eq_true, if_false, if_neg hfirst,
    taskDepend, hstart, hlow, false_or]

theorem findsChunks_inner (h : SameBounds a b) (ht : t ∈ (jobGetSubmitTaskIds b).ids)
    (hne : t ≠ (jobGetSubmitTaskIds b).lastId) : FindsChunks a b t := by
  have hmin := (segment_le ht).1
  have hnext := h.submit'.add_step_le ht hne
  have hlast := h.submit'.lastId_mem.2
  have hmax := h.submit'.max_lt
  have hsb := h.submit'.step_pos
  have hamin := h.min_eq
  have hamax := h.max_eq
  have hup : nearestIndexInA (wsub (wadd t (jobGetSubmitTaskIds b).step) 1)
      (jobGetSubmitTaskIds a).min (jobGetSubmitTaskIds a).step =
      blockStart (jobGetSubmitTaskIds a).min (jobGetSubmitTaskIds a).step
        (t + (jobGetSubmitTaskIds b).step - 1) := by
    rw [wadd_eq (by omega), wsub_eq (by omega) (by omega)]
    exact nearestIndexInA_eq (by omega) (by omega)
  have hle : blockStart (jobGetSubmitTaskIds a).min (jobGetSubmitTaskIds a).step
      (t + (jobGetSubmitTaskIds b).step - 1) ≤ (jobGetSubmitTaskIds a).max :=
    (blockStart_le (by omega)).trans (by omega)
  refine ⟨_, by rw [h.getRange_eq ht, hup, if_neg (not_lt.mpr hle)], fun j => ?_⟩
  rw [rangeSetAllIds_ids, mem_segment_blocks_iff h.submit.step_pos hsb (by omega)]
  constructor
  · rintro ⟨hgrid, hmeet⟩
    have hj : j ∈ (jobGetSubmitTaskIds a).ids := ⟨hgrid, by
      have := (segment_le ((mem_segment_blocks_iff h.submit.step_pos hsb (by omega)).mpr
        ⟨hgrid, hmeet⟩)).2
      omega⟩
    exact ⟨hj, (h.meet_iff hj ht).mpr hmeet⟩
  · rintro ⟨hj, hmeet⟩
    exact ⟨hj.1, (h.meet_iff hj ht).mp hmeet⟩

/-- The last task depends on the tasks from the one it lies in to the last one. -/
theorem mem_last_iff (h : SameBounds a b) :
    j ∈ (jobGetSubmitTaskIds a).ids ∧ ((jobGetSubmitTaskIds a).chunk j ∩
        (jobGetSubmitTaskIds b).chunk (jobGetSubmitTaskIds b).lastId).Nonempty ↔
      j ∈ segment (blockStart (jobGetSubmitTaskIds a).min (jobGetSubmitTaskIds a).step
        (jobGetSubmitTaskIds b).lastId) (jobGetSubmitTaskIds a).lastId
        (jobGetSubmitTaskIds a).step := by
  have hlast := h.submit'.lastId_mem
  have hmin := (segment_le hlast).1
  have hamin := h.min_eq
  have hamax := h.max_eq
  have hbeyond := h.submit'.max_lt_lastId
  constructor
  · rintro ⟨hj, hmeet⟩
    have hle : blockStart (jobGetSubmitTaskIds a).min (jobGetSubmitTaskIds a).step
        (jobGetSubmitTaskIds b).lastId ≤ j :=
      (blockStart_le_iff h.submit.step_pos (by omega) hj.1).mpr ((h.meet_iff hj hlast).mp hmeet).2
    exact ⟨grid_of_le hj.1 blockStart_mem_grid hle, h.submit.le_lastId hj⟩
  · rintro ⟨hgrid, hle⟩
    have hj : j ∈ (jobGetSubmitTaskIds a).ids :=
      ⟨grid_trans blockStart_mem_grid hgrid, hle.trans h.submit.lastId_mem.2⟩
    have hjmax := hj.2
    refine ⟨hj, (h.meet_iff hj hlast).mpr ⟨by omega, ?_⟩⟩
    exact (blockStart_le_iff h.submit.step_pos (by omega) hj.1).mp (grid_le hgrid)

theorem findsChunks_last (h : SameBounds a b) :
    FindsChunks a b (jobGetSubmitTaskIds b).lastId ↔
      (jobGetSubmitTaskIds a).LastChunkFits (jobGetSubmitTaskIds b) := by
  have hlast := h.submit'.lastId_mem
  have hmin := (segment_le hlast).1
  have hmax := hlast.2
  have hbeyond := h.submit'.max_lt_lastId
  have hamin := h.min_eq
  have hamax := h.max_eq
  rw [Range.LastChunkFits, ← nearestIndexInA_last h.submit (by omega) (by omega) (by omega)
    h.submit'.step_lt]
  generalize hup : nearestIndexInA
    (wsub (wadd (jobGetSubmitTaskIds b).lastId (jobGetSubmitTaskIds b).step) 1)
    (jobGetSubmitTaskIds a).min (jobGetSubmitTaskIds a).step = up
  have hlow : blockStart (jobGetSubmitTaskIds a).min (jobGetSubmitTaskIds a).step
      (jobGetSubmitTaskIds b).lastId ≤ (jobGetSubmitTaskIds a).lastId :=
    h.submit.le_lastId ⟨blockStart_mem_grid, (blockStart_le (by omega)).trans (by omega)⟩
  have hin : (jobGetSubmitTaskIds a).lastId ∈ segment
      (blockStart (jobGetSubmitTaskIds a).min (jobGetSubmitTaskIds a).step
        (jobGetSubmitTaskIds b).lastId) (jobGetSubmitTaskIds a).lastId
      (jobGetSubmitTaskIds a).step :=
    ⟨grid_of_le blockStart_mem_grid blockStart_mem_grid hlow, le_rfl⟩
  constructor
  · rintro ⟨r, hr, hids⟩
    rw [h.getRange_eq hlast, hup] at hr
    split at hr
    · cases hr
    · rename_i hfits
      obtain rfl := Option.some.inj hr
      have hmem := (hids _).mpr (h.mem_last_iff.mpr hin)
      rw [rangeSetAllIds_ids] at hmem
      exact ⟨hmem.2, not_lt.mp hfits⟩
  · rintro ⟨hle, hfits⟩
    refine ⟨_, by rw [h.getRange_eq hlast, hup, if_neg (not_lt.mpr hfits)], fun j => ?_⟩
    rw [rangeSetAllIds_ids, h.mem_last_iff]
    constructor
    · rintro ⟨hgrid, hj⟩
      have hmem : j ∈ (jobGetSubmitTaskIds a).ids :=
        ⟨grid_trans blockStart_mem_grid hgrid, hj.trans hfits⟩
      exact ⟨hgrid, h.submit.le_lastId hmem⟩
    · rintro ⟨hgrid, hj⟩
      exact ⟨hgrid, hj.trans hle⟩

theorem mem_ids_of_getRange {r : Range} (h : SameBounds a b)
    (ht : t ∈ (jobGetSubmitTaskIds b).ids) (hr : sgeTaskDependGetRange a b t = some r)
    (hj : j ∈ r.ids) : j ∈ (jobGetSubmitTaskIds a).ids := by
  rw [h.getRange_eq ht] at hr
  split at hr
  · cases hr
  · rename_i hfits
    obtain rfl := Option.some.inj hr
    rw [rangeSetAllIds_ids] at hj
    exact ⟨grid_trans blockStart_mem_grid hj.1, hj.2.trans (not_lt.mp hfits)⟩

theorem findsChunks_iff (h : SameBounds a b) :
    (∀ i ∈ (jobGetSubmitTaskIds b).ids, FindsChunks a b i) ↔
      (jobGetSubmitTaskIds a).LastChunkFits (jobGetSubmitTaskIds b) := by
  constructor
  · intro hall
    exact h.findsChunks_last.mp (hall _ h.submit'.lastId_mem)
  · intro hfits i hi
    by_cases hlast : i = (jobGetSubmitTaskIds b).lastId
    · rw [hlast]
      exact h.findsChunks_last.mpr hfits
    · exact h.findsChunks_inner hi hlast

end SameBounds

/-- `sge_task_depend_get_range` follows the chunks from both sides exactly when the last chunk of
each job ends within the last chunk of the other one. -/
theorem chunksDepend_iff {a b : DependJob} (h : SameBounds a b) :
    ChunksDepend a b ↔ (jobGetSubmitTaskIds a).LastChunkFits (jobGetSubmitTaskIds b) ∧
      (jobGetSubmitTaskIds b).LastChunkFits (jobGetSubmitTaskIds a) := by
  rw [← h.findsChunks_iff, ← h.symm.findsChunks_iff]
  constructor
  · rintro ⟨hfinds, hsymm⟩
    refine ⟨hfinds, fun j hj => ?_⟩
    have hin : ∀ i ∈ (jobGetSubmitTaskIds b).ids,
        (∃ q, sgeTaskDependGetRange b a j = some q ∧ i ∈ q.ids) ↔
          BlocksMeet i (jobGetSubmitTaskIds b).step j (jobGetSubmitTaskIds a).step := by
      intro i hi
      obtain ⟨r, hr, hids⟩ := hfinds i hi
      rw [← hsymm i hi j hj, blocksMeet_comm, ← h.meet_iff hj hi]
      constructor
      · rintro ⟨r', hr', hmem⟩
        obtain rfl : r = r' := Option.some.inj (hr.symm.trans hr')
        exact ((hids j).mp hmem).2
      · intro hmeet
        exact ⟨r, hr, (hids j).mpr ⟨hj, hmeet⟩⟩
    have hamin := h.min_eq
    have hamax := h.max_eq
    have hjmin := (segment_le hj).1
    have hjmax := hj.2
    have hstart : blockStart (jobGetSubmitTaskIds b).min (jobGetSubmitTaskIds b).step j ∈
        (jobGetSubmitTaskIds b).ids :=
      ⟨blockStart_mem_grid, (blockStart_le (by omega)).trans (by omega)⟩
    have hmeet : BlocksMeet (blockStart (jobGetSubmitTaskIds b).min (jobGetSubmitTaskIds b).step j)
        (jobGetSubmitTaskIds b).step j (jobGetSubmitTaskIds a).step := by
      have hle := blockStart_le (s := (jobGetSubmitTaskIds b).step) (hamin ▸ hjmin)
      have hlt := lt_blockStart_add h.submit'.step_pos (hamin ▸ hjmin)
      have hsa := h.submit.step_pos
      exact ⟨by omega, hlt⟩
    obtain ⟨q, hq, -⟩ := (hin _ hstart).mpr hmeet
    refine ⟨q, hq, fun i => ?_⟩
    constructor
    · intro hi
      have hmem := h.symm.mem_ids_of_getRange hj hq hi
      exact ⟨hmem, (h.symm.meet_iff hmem hj).mpr ((hin i hmem).mp ⟨q, hq, hi⟩)⟩
    · rintro ⟨hmem, hmeet⟩
      obtain ⟨q', hq', hi⟩ := (hin i hmem).mpr ((h.symm.meet_iff hmem hj).mp hmeet)
      obtain rfl : q = q' := Option.some.inj (hq.symm.trans hq')
      exact hi
  · rintro ⟨hfinds, hfinds'⟩
    refine ⟨hfinds, fun i hi j hj => ?_⟩
    obtain ⟨r, hr, hids⟩ := hfinds i hi
    obtain ⟨q, hq, hids'⟩ := hfinds' j hj
    constructor
    · rintro ⟨r', hr', hmem⟩
      obtain rfl : r = r' := Option.some.inj (hr.symm.trans hr')
      refine ⟨q, hq, (hids' i).mpr ⟨hi, ?_⟩⟩
      rw [Set.inter_comm]
      exact ((hids j).mp hmem).2
    · rintro ⟨q', hq', hmem⟩
      obtain rfl : q = q' := Option.some.inj (hq.symm.trans hq')
      refine ⟨r, hr, (hids j).mpr ⟨hj, ?_⟩⟩
      rw [Set.inter_comm]
      exact ((hids' i).mp hmem).2

/-- `qsub -t 1-max:step`. -/
def stridedJob (max step : ℕ) : DependJob where
  jobNumber := 1
  isArray := true
  job := (jobInitializeIdLists ⟨some [⟨1, max, step⟩], fun _ => none, [], ⟨0, 0, 0⟩⟩).1
  jatStatus := fun _ => 0
  jatTaskList := fun _ => []
  jaAdRequestList := []
  jaAdPredecessorList := []
  jaAdSuccessorList := []

/-- With 1-50 and 1-50:2 both last chunks end at 50. -/
theorem evenStride_depends : SameBounds (stridedJob 50 1) (stridedJob 50 2) ∧
    ChunksDepend (stridedJob 50 1) (stridedJob 50 2) := by
  have h : SameBounds (stridedJob 50 1) (stridedJob 50 2) :=
    ⟨rfl, rfl, rfl, rfl, ⟨by decide, by decide, by decide, by decide⟩,
      ⟨by decide, by decide, by decide, by decide⟩⟩
  exact ⟨h, (chunksDepend_iff h).mpr ⟨.inl (by decide), .inl (by decide)⟩⟩

/-- With 1-3 and 1-3:2 the chunk of the last task ends at 4, and the call for it fails. -/
theorem oddStride_fails : SameBounds (stridedJob 3 1) (stridedJob 3 2) ∧
    sgeTaskDependGetRange (stridedJob 3 1) (stridedJob 3 2) 3 = none ∧
    ¬ ChunksDepend (stridedJob 3 1) (stridedJob 3 2) := by
  have hnone : sgeTaskDependGetRange (stridedJob 3 1) (stridedJob 3 2) 3 = none := by decide
  refine ⟨⟨rfl, rfl, rfl, rfl, ⟨by decide, by decide, by decide, by decide⟩,
    ⟨by decide, by decide, by decide, by decide⟩⟩, hnone, fun h => ?_⟩
  obtain ⟨r, hr, -⟩ := h.finds 3 (mem_segment_iff_mod.mpr (by decide))
  rw [hnone] at hr
  cases hr

end GridEngine
