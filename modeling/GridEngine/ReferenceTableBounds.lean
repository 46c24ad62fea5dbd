import GridEngine.ReferenceTables

/-!
# The bounds of the reference tables

The filling pass walks only over the ids without hold and the counting pass counts all ids of a
job, so as long as the counters do not overflow no job gets more references than were counted.
-/

namespace GridEngine.ReferenceTables

section Integers
variable {x : ℤ}

theorem toInt_eq (hnonneg : 0 ≤ x) (hlt : x < 2 ^ 31) : toInt x = x := by
  rw [toInt, Int.bmod_def]
  split_ifs <;> omega

theorem toUlong_eq (hnonneg : 0 ≤ x) (hlt : x < 2 ^ 31) : (toUlong x : ℤ) = x := by
  rw [toUlong, Int.toNat_of_nonneg (Int.emod_nonneg _ (by norm_num)),
    Int.emod_eq_of_lt hnonneg (by omega)]

end Integers

section Jobs
variable (srt : PSortList Range Range.min) (fuel : ℕ)

/-- The active tasks among the enrolled ones that are looked at. -/
def activeTasks (job : EeJob) (max : ℕ) : ℕ := (job.jaTasks.take max).countP (jobIsActive job)

/-- The ids with some hold, counted as in `job_get_not_enrolled_ja_tasks`. -/
def heldTasks (job : Job) : Option ℕ := do
  let uo ← rangeListCalculateUnionSet srt fuel (job.idLists .jaUHIds) (job.idLists .jaOHIds)
  let uos ← rangeListCalculateUnionSet srt fuel uo (job.idLists .jaSHIds)
  let uosa ← rangeListCalculateUnionSet srt fuel uos (job.idLists .jaAHIds)
  return rangeListGetNumberOfIds (uosa.getD [])

/-- The ids of the ranges without hold. -/
def noHoldTasks (job : Job) : ℕ :=
  (((job.idLists .jaNHIds).getD []).map rangeGetNumberOfIds).sum

/-- The ids that are not enrolled. -/
def unenrolledTasks (job : Job) : ℕ := noHoldTasks job + (heldTasks srt fuel job).getD 0

/-- What a queued job contributes to the number of references. -/
def pendingTasks (max : ℕ) (job : EeJob) : ℕ :=
  activeTasks job max + min (max - job.jaTasks.length) (unenrolledTasks srt fuel job.toJob)

/-- The number of unenrolled tasks fits into an `int`, and the ids without hold can be walked
over without an overflow. -/
structure IdsFit (job : Job) : Prop where
  held : (heldTasks srt fuel job).isSome
  unenrolled_lt : unenrolledTasks srt fuel job < 2 ^ 31
  step_pos : ∀ range ∈ (job.idLists .jaNHIds).getD [], 1 ≤ range.step
  max_lt : ∀ range ∈ (job.idLists .jaNHIds).getD [], range.max + range.step < 2 ^ 32

variable {srt fuel} {job : EeJob} {max : ℕ}

theorem foldl_wadd (l : List Range) (acc : ℕ)
    (h : acc + (l.map rangeGetNumberOfIds).sum < 2 ^ 32) :
    l.foldl (fun ret r => wadd ret (rangeGetNumberOfIds r)) acc =
      acc + (l.map rangeGetNumberOfIds).sum := by
  induction l generalizing acc with
  | nil => rfl
  | cons r l ih =>
      rw [List.map_cons, List.sum_cons] at h ⊢
      rw [List.foldl_cons, wadd_eq (by omega), ih _ (by omega), Nat.add_assoc]

/-- `job_get_not_enrolled_ja_tasks` counts all ids that are not enrolled. -/
theorem jobGetNotEnrolledJaTasks_of_fit {job : Job} (h : IdsFit srt fuel job) :
    jobGetNotEnrolledJaTasks srt fuel job = some (unenrolledTasks srt fuel job) := by
  obtain ⟨held, hheld⟩ := Option.isSome_iff_exists.mp h.held
  have hlt := h.unenrolled_lt
  have hunion : jobGetNotEnrolledJaTasks srt fuel job =
      (heldTasks srt fuel job).map (wadd (rangeListGetNumberOfIds
        ((job.idLists .jaNHIds).getD []))) := by
    simp only [jobGetNotEnrolledJaTasks, heldTasks, Option.bind_eq_bind, Option.pure_def,
      Option.map_bind, Function.comp_def, Option.map_some]
  rw [hunion]
  rw [unenrolledTasks, hheld, Option.getD_some] at hlt ⊢
  have hcount : rangeListGetNumberOfIds ((job.idLists .jaNHIds).getD []) = noHoldTasks job := by
    rw [rangeListGetNumberOfIds, foldl_wadd]
    · exact Nat.zero_add _
    · rw [noHoldTasks] at hlt
      omega
  rw [Option.map_some, hcount, wadd_eq (by omega)]

end Jobs

section Counting
variable {srt : PSortList Range Range.min} {fuel max : ℕ} {job : EeJob} {a u : ℕ}

theorem countEnrolled_spec (job : EeJob) (jaTasks : List JaTask) (taskCnt a : ℕ) (counts : Counts) (hle : taskCnt ≤ max)
    (hjobs : counts.numJobs = a)
    (hfit : a + (jaTasks.take (max - taskCnt)).countP (jobIsActive job) < 2 ^ 31) :
    ∃ counts', countEnrolled job max jaTasks taskCnt counts =
        (if taskCnt + jaTasks.length ≤ max then taskCnt + jaTasks.length else max + 1, counts') ∧
      counts'.numJobs = ((a + (jaTasks.take (max - taskCnt)).countP (jobIsActive job) : ℕ) : ℤ) ∧
      counts'.numUnenrolledTasks = counts.numUnenrolledTasks := by
  induction jaTasks generalizing taskCnt counts a with
  | nil =>
      refine ⟨counts, ?_, by simpa using hjobs, rfl⟩
      rw [countEnrolled, if_pos (by simpa using hle)]
      rfl
  | cons jaTask jaTasks ih =>
      rw [countEnrolled]
      by_cases hlast : max < taskCnt + 1
      · obtain rfl : taskCnt = max := by omega
        refine ⟨counts, ?_, by simpa using hjobs, rfl⟩
        rw [if_pos hlast, if_neg (by simp)]
      · obtain ⟨k, hk⟩ : ∃ k, max - taskCnt = k + 1 := ⟨max - taskCnt - 1, by omega⟩
        have hk' : max - (taskCnt + 1) = k := by omega
        rw [hk, List.take_succ_cons, List.countP_cons] at hfit
        rw [if_neg hlast, hk, List.take_succ_cons, List.countP_cons]
        have hlength : taskCnt + (jaTask :: jaTasks).length = taskCnt + 1 + jaTasks.length := by
          rw [List.length_cons]
          omega
        rw [hlength]
        cases hactive : jobIsActive job jaTask with
        | true =>
            rw [hactive, if_pos rfl] at hfit
            obtain ⟨counts', hrun, hjobs', hunenrolled⟩ := ih (taskCnt + 1) (a + 1)
              { counts with
                numJobs := toInt (counts.numJobs + 1)
                numQueuedJobs := toInt (counts.numQueuedJobs + 1) } (by omega)
              (by
                dsimp only
                rw [hjobs, toInt_eq (by omega) (by omega)]
                rfl)
              (by rw [hk']; omega)
            refine ⟨counts', hrun, ?_, hunenrolled⟩
            rw [hjobs', hk', if_pos rfl]
            push_cast
            ring
        | false =>
            rw [hactive, if_neg Bool.false_ne_true] at hfit
            obtain ⟨counts', hrun, hjobs', hunenrolled⟩ := ih (taskCnt + 1) a counts
              (by omega) hjobs (by rw [hk']; omega)
            refine ⟨counts', hrun, ?_, hunenrolled⟩
            rw [hjobs', hk', if_neg Bool.false_ne_true, Nat.add_zero]

/-- A queued job is counted with its active tasks and the unenrolled ones that there is space
for. -/
theorem countQueued_spec (hmax : max < 2 ^ 31) (hids : IdsFit srt fuel job.toJob)
    (counts : Counts) (hjobs : counts.numJobs = a) (hunenrolled : counts.numUnenrolledTasks = u)
    (hle : u ≤ a) (hfit : a + pendingTasks srt fuel max job < 2 ^ 31) :
    ∃ counts', countQueued srt fuel max counts job = some counts' ∧
      counts'.numJobs = ((a + pendingTasks srt fuel max job : ℕ) : ℤ) ∧
      counts'.numUnenrolledTasks =
        u + min (max - job.jaTasks.length) (unenrolledTasks srt fuel job.toJob) := by
  have hlt := hids.unenrolled_lt
  rw [pendingTasks, activeTasks] at hfit ⊢
  obtain ⟨counts', hrun, hjobs', hunenrolled'⟩ := countEnrolled_spec job job.jaTasks 0 a
    counts (Nat.zero_le max) hjobs (by rw [Nat.sub_zero]; omega)
  rw [Nat.sub_zero] at hjobs'
  rw [countQueued, hrun, Nat.zero_add]
  dsimp only
  by_cases hspace : job.jaTasks.length ≤ max
  · have hint : toInt ((max : ℤ) - (job.jaTasks.length : ℕ)) = ((max - job.jaTasks.length : ℕ) : ℤ) := by
      rw [toInt_eq (by omega) (by omega), Nat.cast_sub hspace]
    have hmin : min (((max - job.jaTasks.length : ℕ) : ℤ))
        ((unenrolledTasks srt fuel job.toJob : ℕ) : ℤ) =
        ((min (max - job.jaTasks.length) (unenrolledTasks srt fuel job.toJob) : ℕ) : ℤ) :=
      (Nat.cast_min _ _).symm
    have hnumber : toUlong ((min (max - job.jaTasks.length)
        (unenrolledTasks srt fuel job.toJob) : ℕ) : ℤ) =
        min (max - job.jaTasks.length) (unenrolledTasks srt fuel job.toJob) := by
      have hcast := toUlong_eq (x := ((min (max - job.jaTasks.length)
        (unenrolledTasks srt fuel job.toJob) : ℕ) : ℤ)) (by omega) (by omega)
      exact_mod_cast hcast
    have htasks : toInt ((unenrolledTasks srt fuel job.toJob : ℕ) : ℤ) =
        ((unenrolledTasks srt fuel job.toJob : ℕ) : ℤ) := toInt_eq (by omega) (by omega)
    rw [if_pos hspace, if_pos (by omega), jobGetNotEnrolledJaTasks_of_fit hids, Option.map_some,
      hint, htasks, hmin, hnumber]
    refine ⟨_, rfl, ?_, ?_⟩
    · dsimp only
      rw [hjobs', toInt_eq (by omega) (by omega)]
      push_cast
      ring
    · dsimp only
      rw [hunenrolled', hunenrolled, wadd_eq (by omega)]
  · rw [if_neg hspace, if_neg (by omega)]
    refine ⟨counts', rfl, ?_, ?_⟩
    · rw [hjobs']
      congr 1
      omega
    · rw [hunenrolled', hunenrolled]
      omega

theorem foldlM_countQueued (hmax : max < 2 ^ 31) (queued : List EeJob)
    (hids : ∀ job ∈ queued, IdsFit srt fuel job.toJob) (counts : Counts)
    (hjobs : counts.numJobs = a) (hunenrolled : counts.numUnenrolledTasks = u) (hle : u ≤ a)
    (hfit : a + (queued.map (pendingTasks srt fuel max)).sum < 2 ^ 31) :
    ∃ counts', queued.foldlM (countQueued srt fuel max) counts = some counts' ∧
      counts'.numJobs = ((a + (queued.map (pendingTasks srt fuel max)).sum : ℕ) : ℤ) ∧
      counts'.numUnenrolledTasks = u + (queued.map fun job =>
        min (max - job.jaTasks.length) (unenrolledTasks srt fuel job.toJob)).sum := by
  induction queued generalizing counts a u with
  | nil => exact ⟨counts, rfl, by simpa using hjobs, by simpa using hunenrolled⟩
  | cons job queued ih =>
      rw [List.map_cons, List.sum_cons] at hfit
      obtain ⟨counts₁, hrun, hjobs₁, hunenrolled₁⟩ :=
        countQueued_spec hmax (hids job List.mem_cons_self) counts hjobs hunenrolled hle (by omega)
      have hle₁ : u + min (max - job.jaTasks.length) (unenrolledTasks srt fuel job.toJob) ≤
          a + pendingTasks srt fuel max job := by
        rw [pendingTasks]
        omega
      obtain ⟨counts₂, hrest, hjobs₂, hunenrolled₂⟩ :=
        ih (fun job hjob => hids job (List.mem_cons_of_mem _ hjob)) counts₁ hjobs₁ hunenrolled₁ hle₁
          (by omega)
      refine ⟨counts₂, ?_, ?_, ?_⟩
      · rw [List.foldlM_cons, hrun]
        exact hrest
      · rw [hjobs₂, List.map_cons, List.sum_cons, Nat.add_assoc]
      · rw [hunenrolled₂, List.map_cons, List.sum_cons, Nat.add_assoc]

/-- The number of active tasks of a running job. -/
def runningTasks (job : EeJob) : ℕ := job.jaTasks.countP (jobIsActive job)

theorem foldl_active (job : EeJob) (jaTasks : List JaTask) (counts : Counts) (hjobs : counts.numJobs = a)
    (hfit : a + jaTasks.countP (jobIsActive job) < 2 ^ 31) :
    (jaTasks.foldl (fun counts jaTask =>
      if jobIsActive job jaTask then { counts with numJobs := toInt (counts.numJobs + 1) }
      else counts) counts).numJobs = ((a + jaTasks.countP (jobIsActive job) : ℕ) : ℤ) ∧
    (jaTasks.foldl (fun counts jaTask =>
      if jobIsActive job jaTask then { counts with numJobs := toInt (counts.numJobs + 1) }
      else counts) counts).numUnenrolledTasks = counts.numUnenrolledTasks := by
  induction jaTasks generalizing counts a with
  | nil => exact ⟨by simpa using hjobs, rfl⟩
  | cons jaTask jaTasks ih =>
      rw [List.countP_cons] at hfit
      rw [List.foldl_cons, List.countP_cons]
      cases hactive : jobIsActive job jaTask with
      | true =>
          rw [hactive, if_pos rfl] at hfit
          rw [if_pos rfl, if_pos rfl]
          have hnext : toInt (counts.numJobs + 1) = ((a + 1 : ℕ) : ℤ) := by
            rw [hjobs, toInt_eq (by omega) (by omega)]
            rfl
          obtain ⟨hjobs', hunenrolled⟩ := ih (a := a + 1)
            { counts with numJobs := toInt (counts.numJobs + 1) } hnext (by omega)
          refine ⟨?_, hunenrolled⟩
          rw [hjobs']
          congr 1
          omega
      | false =>
          rw [hactive, if_neg Bool.false_ne_true] at hfit
          rw [if_neg Bool.false_ne_true, if_neg Bool.false_ne_true, Nat.add_zero]
          exact ih counts hjobs (by omega)

theorem foldl_countRunning (running : List EeJob) (counts : Counts) (hjobs : counts.numJobs = a)
    (hfit : a + (running.map runningTasks).sum < 2 ^ 31) :
    (running.foldl countRunning counts).numJobs =
        ((a + (running.map runningTasks).sum : ℕ) : ℤ) ∧
      (running.foldl countRunning counts).numUnenrolledTasks = counts.numUnenrolledTasks := by
  induction running generalizing counts a with
  | nil => exact ⟨by simpa using hjobs, rfl⟩
  | cons job running ih =>
      rw [List.map_cons, List.sum_cons] at hfit
      obtain ⟨hjobs₁, hunenrolled₁⟩ := foldl_active job job.jaTasks counts hjobs
        (by rw [runningTasks] at hfit; omega)
      obtain ⟨hjobs₂, hunenrolled₂⟩ := ih (countRunning counts job) hjobs₁
        (by rw [runningTasks] at hfit; omega)
      rw [List.foldl_cons, List.map_cons, List.sum_cons]
      refine ⟨?_, hunenrolled₂.trans hunenrolled₁⟩
      rw [hjobs₂, runningTasks, Nat.add_assoc]

end Counting

section Filling
namespace Filled

/-- The accesses so far are below the next indices. -/
def Ok (filled : Filled) : Prop :=
  ∀ access ∈ filled.accesses,
    match access with
    | .jobRef index => index < filled.jobNdx
    | .taskRef index => index < filled.jaTaskNdx

/-- More references are filled, some of them of unenrolled tasks. -/
structure Grows (filled filled' : Filled) (tasks unenrolled : ℕ) : Prop where
  jobNdx : filled'.jobNdx = filled.jobNdx + tasks
  jaTaskNdx : filled'.jaTaskNdx = filled.jaTaskNdx + unenrolled
  ok : filled.Ok → filled'.Ok

theorem Grows.refl (filled : Filled) : Grows filled filled 0 0 := ⟨rfl, rfl, id⟩

theorem Grows.trans {filled filled₁ filled₂ : Filled} {t t' u u' : ℕ}
    (h : Grows filled filled₁ t u) (h' : Grows filled₁ filled₂ t' u') :
    Grows filled filled₂ (t + t') (u + u') where
  jobNdx := by rw [h'.jobNdx, h.jobNdx, Nat.add_assoc]
  jaTaskNdx := by rw [h'.jaTaskNdx, h.jaTaskNdx, Nat.add_assoc]
  ok := fun hok => h'.ok (h.ok hok)

theorem grows_addTask (filled : Filled) : Grows filled filled.addTask 1 0 where
  jobNdx := rfl
  jaTaskNdx := rfl
  ok := by
    intro hok access haccess
    rcases List.mem_append.mp haccess with hmem | hmem
    · have := hok access hmem
      cases access with
      | jobRef index => exact Nat.lt_succ_of_lt this
      | taskRef index => exact this
    · obtain rfl := List.mem_singleton.mp hmem
      exact Nat.lt_succ_self _

theorem grows_addUnenrolled (filled : Filled) : Grows filled filled.addUnenrolled 1 1 where
  jobNdx := rfl
  jaTaskNdx := rfl
  ok := by
    intro hok access haccess
    rcases List.mem_append.mp haccess with hmem | hmem
    · have := hok access hmem
      cases access with
      | jobRef index => exact Nat.lt_succ_of_lt this
      | taskRef index => exact Nat.lt_succ_of_lt this
    · rcases List.mem_pair.mp hmem with rfl | rfl
      · exact Nat.lt_succ_self _
      · exact Nat.lt_succ_self _

end Filled

open Filled

theorem grows_fillRunning (filled : Filled) (job : EeJob) :
    Grows filled (fillRunning filled job) (runningTasks job) 0 := by
  unfold fillRunning runningTasks
  induction job.jaTasks generalizing filled with
  | nil => exact Grows.refl filled
  | cons jaTask jaTasks ih =>
      rw [List.foldl_cons, List.countP_cons]
      cases hactive : jobIsActive job jaTask with
      | true =>
          rw [if_pos rfl, if_pos rfl, Nat.add_comm]
          exact (grows_addTask filled).trans (ih _)
      | false => exact ih filled

theorem grows_foldl_fillEnrolled (job : EeJob) (max : ℕ) (jaTasks : List JaTask) (taskCnt : ℕ) (filled : Filled) :
    ∃ filled', jaTasks.foldl (fillEnrolled job max) (taskCnt, filled) =
        (taskCnt + jaTasks.length, filled') ∧
      Grows filled filled' ((jaTasks.take (max - taskCnt)).countP (jobIsActive job)) 0 := by
  induction jaTasks generalizing taskCnt filled with
  | nil => exact ⟨filled, rfl, by simpa using Grows.refl filled⟩
  | cons jaTask jaTasks ih =>
      have hlength : taskCnt + (jaTask :: jaTasks).length = taskCnt + 1 + jaTasks.length := by
        rw [List.length_cons]
        omega
      rw [List.foldl_cons, hlength, fillEnrolled]
      by_cases hlast : max < taskCnt + 1
      · have hzero : max - taskCnt = 0 := by omega
        have hzero' : max - (taskCnt + 1) = 0 := by omega
        obtain ⟨filled', hrun, hgrows⟩ := ih (taskCnt + 1) filled
        rw [hzero'] at hgrows
        refine ⟨filled', ?_, by rw [hzero]; exact hgrows⟩
        rw [← hrun]
        simp only [hlast, decide_true, Bool.true_or, if_true]
      · obtain ⟨k, hk⟩ : ∃ k, max - taskCnt = k + 1 := ⟨max - taskCnt - 1, by omega⟩
        have hk' : max - (taskCnt + 1) = k := by omega
        rw [hk, List.take_succ_cons, List.countP_cons]
        cases hactive : jobIsActive job jaTask with
        | true =>
            obtain ⟨filled', hrun, hgrows⟩ := ih (taskCnt + 1) filled.addTask
            rw [hk'] at hgrows
            refine ⟨filled', ?_, ?_⟩
            · rw [← hrun]
              simp only [hlast, decide_false, Bool.not_true, Bool.or_self, Bool.false_eq_true,
                if_false]
            · rw [if_pos rfl, Nat.add_comm]
              exact (grows_addTask filled).trans hgrows
        | false =>
            obtain ⟨filled', hrun, hgrows⟩ := ih (taskCnt + 1) filled
            rw [hk'] at hgrows
            refine ⟨filled', ?_, ?_⟩
            · rw [← hrun]
              simp only [Bool.not_false, Bool.or_true, if_true]
            · rw [if_neg Bool.false_ne_true, Nat.add_zero]
              exact hgrows

/-- A range gets no more references than there is space for, and no more than it has ids. -/
theorem grows_fillIds (max : ℕ) (range : Range) (hstep : 1 ≤ range.step)
    (hmax : range.max + range.step < 2 ^ 32) (taskCnt id : ℕ) (filled : Filled) :
    ∃ w taskCnt' filled', fillIds max range taskCnt id filled = (taskCnt', filled') ∧
      Grows filled filled' w w ∧ taskCnt + w ≤ taskCnt' ∧ w ≤ max - taskCnt ∧
      w ≤ (range.max + range.step - id) / range.step := by
  induction taskCnt, id, filled using fillIds.induct max range with
  | case1 taskCnt id filled hid hlast =>
      refine ⟨0, taskCnt + 1, filled, ?_, Grows.refl filled, Nat.le_succ _, Nat.zero_le _,
        Nat.zero_le _⟩
      rw [fillIds, if_pos hid, if_pos hlast]
  | case2 taskCnt id filled hid hlast ih =>
      obtain ⟨w, taskCnt', filled', hrun, hgrows, htaskCnt, hspace, hids⟩ := ih
      have hnext : wadd id range.step = id + range.step := wadd_eq (by omega)
      refine ⟨w + 1, taskCnt', filled', ?_, ?_, by omega, by omega, ?_⟩
      · rw [fillIds, if_pos hid, if_neg hlast]
        exact hrun
      · rw [Nat.add_comm]
        exact (grows_addUnenrolled filled).trans hgrows
      · have hcount : (range.max + range.step - id) / range.step =
            (range.max - id) / range.step + 1 := by
          rw [← Nat.add_div_right _ hstep]
          congr 1
          omega
        rw [hnext, Nat.add_sub_add_right] at hids
        omega
  | case3 taskCnt id filled hid =>
      refine ⟨0, taskCnt, filled, ?_, Grows.refl filled, Nat.le_refl _, Nat.zero_le _,
        Nat.zero_le _⟩
      rw [fillIds, if_neg hid]

theorem ids_le_number (range : Range) (hstep : 1 ≤ range.step)
    (hmax : range.max + range.step < 2 ^ 32) :
    (range.max + range.step - range.min) / range.step ≤ rangeGetNumberOfIds range := by
  by_cases hle : range.min ≤ range.max
  · have hcount : (range.max + range.step - range.min) / range.step =
        (range.max - range.min) / range.step + 1 := by
      rw [← Nat.add_div_right _ hstep]
      congr 1
      omega
    have hdiv := Nat.div_le_self (range.max - range.min) range.step
    rw [hcount, rangeGetNumberOfIds, wsub_eq hle (by omega), wadd_eq (by omega), Nat.add_comm]
  · rw [Nat.div_eq_of_lt (by omega)]
    exact Nat.zero_le _

theorem grows_foldl_fillIds (max : ℕ) (ranges : List Range) (hstep : ∀ range ∈ ranges, 1 ≤ range.step)
    (hmax : ∀ range ∈ ranges, range.max + range.step < 2 ^ 32) (taskCnt : ℕ) (filled : Filled) :
    ∃ w, Grows filled (ranges.foldl (fun state range =>
        fillIds max range state.1 range.min state.2) (taskCnt, filled)).2 w w ∧
      w ≤ max - taskCnt ∧ w ≤ (ranges.map rangeGetNumberOfIds).sum := by
  induction ranges generalizing taskCnt filled with
  | nil => exact ⟨0, Grows.refl filled, Nat.zero_le _, Nat.zero_le _⟩
  | cons range ranges ih =>
      have hstep' := hstep range List.mem_cons_self
      have hmax' := hmax range List.mem_cons_self
      obtain ⟨w, taskCnt', filled', hrun, hgrows, htaskCnt, hspace, hids⟩ :=
        grows_fillIds max range hstep' hmax' taskCnt range.min filled
      obtain ⟨w', hgrows', hspace', hids'⟩ :=
        ih (fun r hr => hstep r (List.mem_cons_of_mem _ hr))
          (fun r hr => hmax r (List.mem_cons_of_mem _ hr)) taskCnt' filled'
      have hnumber := hids.trans (ids_le_number range hstep' hmax')
      rw [List.foldl_cons, List.map_cons, List.sum_cons, hrun]
      exact ⟨w + w', hgrows.trans hgrows', by omega, by omega⟩

theorem grows_fillQueued {max : ℕ} {srt : PSortList Range Range.min} {fuel : ℕ} (job : EeJob)
    (hids : IdsFit srt fuel job.toJob) (filled : Filled) :
    ∃ w, Grows filled (fillQueued max filled job) (activeTasks job max + w) w ∧
      w ≤ min (max - job.jaTasks.length) (unenrolledTasks srt fuel job.toJob) := by
  obtain ⟨filled₁, henrolled, hgrows₁⟩ :=
    grows_foldl_fillEnrolled job max job.jaTasks 0 filled
  obtain ⟨w, hgrows₂, hspace, hnumber⟩ := grows_foldl_fillIds max
    ((job.idLists .jaNHIds).getD []) hids.step_pos hids.max_lt job.jaTasks.length filled₁
  rw [Nat.zero_add] at henrolled
  rw [Nat.sub_zero] at hgrows₁
  refine ⟨w, ?_, ?_⟩
  · have hgrows := hgrows₁.trans hgrows₂
    rw [Nat.zero_add] at hgrows
    rw [fillQueued, henrolled]
    exact hgrows
  · have hheld : noHoldTasks job.toJob ≤ unenrolledTasks srt fuel job.toJob :=
      Nat.le_add_right _ _
    rw [noHoldTasks] at hheld
    omega

theorem grows_foldl_fillRunning (running : List EeJob) (filled : Filled) :
    Grows filled (running.foldl fillRunning filled) (running.map runningTasks).sum 0 := by
  induction running generalizing filled with
  | nil => exact Grows.refl filled
  | cons job running ih =>
      rw [List.foldl_cons, List.map_cons, List.sum_cons]
      exact (grows_fillRunning filled job).trans (ih _)

theorem grows_foldl_fillQueued {srt : PSortList Range Range.min} {fuel : ℕ} (max : ℕ)
    (queued : List EeJob)
    (hids : ∀ job ∈ queued, IdsFit srt fuel job.toJob) (filled : Filled) :
    ∃ t w, Grows filled (queued.foldl (fillQueued max) filled) t w ∧
      t ≤ (queued.map (pendingTasks srt fuel max)).sum ∧
      w ≤ (queued.map fun job =>
        min (max - job.jaTasks.length) (unenrolledTasks srt fuel job.toJob)).sum := by
  induction queued generalizing filled with
  | nil => exact ⟨0, 0, Grows.refl filled, Nat.le_refl _, Nat.le_refl _⟩
  | cons job queued ih =>
      obtain ⟨w, hgrows, hle⟩ := grows_fillQueued job (hids job List.mem_cons_self) filled
      obtain ⟨t', w', hgrows', ht', hw'⟩ :=
        ih (fun job hjob => hids job (List.mem_cons_of_mem _ hjob)) (fillQueued max filled job)
      rw [List.foldl_cons, List.map_cons, List.sum_cons, List.map_cons, List.sum_cons]
      refine ⟨_, _, hgrows.trans hgrows', ?_, by omega⟩
      rw [pendingTasks]
      omega

end Filling

section Runs
variable (srt : PSortList Range Range.min) (fuel : ℕ)

/-- The counters of a call do not overflow. -/
structure Call.CountsFit (call : Call) : Prop where
  freeQslots_lt : call.freeQslots < 2 ^ 31 - 1
  ids : ∀ job ∈ call.queued, IdsFit srt fuel job.toJob
  total_lt : (call.running.map runningTasks).sum +
    (call.queued.map (pendingTasks srt fuel call.max)).sum < 2 ^ 31

variable {srt fuel}

theorem Call.CountsFit.max_lt {call : Call} (h : call.CountsFit srt fuel) : call.max < 2 ^ 31 := by
  have hfree := h.freeQslots_lt
  have hadd : wadd call.freeQslots 1 = call.freeQslots + 1 := wadd_eq (by omega)
  rw [Call.max, hadd]
  omega

theorem sgeCalcTickets_safe {call : Call} (h : call.CountsFit srt fuel) (taskRefEntries : ℕ) :
    ∃ outcome, sgeCalcTickets srt fuel taskRefEntries call = some outcome ∧ outcome.Safe := by
  have htotal := h.total_lt
  obtain ⟨counts, hcount, hjobs, hunenrolled⟩ := foldlM_countQueued (a := 0) (u := 0) h.max_lt
    call.queued h.ids ⟨0, 0, 0⟩ rfl rfl (Nat.le_refl 0) (by omega)
  obtain ⟨hjobs', hunenrolled'⟩ := foldl_countRunning call.running counts hjobs (by omega)
  obtain ⟨t, w, hgrows, ht, hw⟩ := grows_foldl_fillQueued call.max call.queued h.ids
    (call.running.foldl fillRunning ⟨0, 0, []⟩)
  have hfill := (grows_foldl_fillRunning call.running ⟨0, 0, []⟩).trans hgrows
  rw [sgeCalcTickets, hcount]
  refine ⟨_, rfl, ?_⟩
  have hempty : Filled.Ok ⟨0, 0, []⟩ := by
    intro access haccess
    exact absurd haccess List.not_mem_nil
  intro access haccess
  have hbelow := hfill.ok hempty access haccess
  rw [hfill.jobNdx, hfill.jaTaskNdx] at hbelow
  cases access with
  | jobRef index =>
      dsimp only at hbelow ⊢
      rw [hjobs']
      omega
  | taskRef index =>
      dsimp only at hbelow ⊢
      rw [hunenrolled', hunenrolled, taskRefInitializeTable]
      split_ifs <;> omega

/-- In a run whose counters do not overflow every access is to an existing element, also of a table
kept from an earlier call. -/
theorem schedulingRuns_safe {calls : List Call} (h : ∀ call ∈ calls, call.CountsFit srt fuel)
    (taskRefEntries : ℕ) :
    ∃ outcomes, schedulingRuns srt fuel taskRefEntries calls = some outcomes ∧
      ∀ outcome ∈ outcomes, outcome.Safe := by
  induction calls generalizing taskRefEntries with
  | nil => exact ⟨[], rfl, fun outcome hmem => absurd hmem List.not_mem_nil⟩
  | cons call calls ih =>
      obtain ⟨outcome, hcall, hsafe⟩ := sgeCalcTickets_safe (h call List.mem_cons_self) taskRefEntries
      obtain ⟨outcomes, hcalls, hall⟩ :=
        ih (fun call hcall => h call (List.mem_cons_of_mem _ hcall)) outcome.taskRefEntries
      refine ⟨outcome :: outcomes, ?_, ?_⟩
      · rw [schedulingRuns, hcall, Option.bind_eq_bind, Option.bind_some, hcalls]
        rfl
      · intro o ho
        rcases List.mem_cons.mp ho with rfl | ho
        · exact hsafe
        · exact hall o ho

/-- An array job without enrolled tasks. -/
def arrayJob (number : ℕ) : EeJob where
  jaStructure := some [⟨1, number, 1⟩]
  idLists attr := if attr = .jaNHIds then some [⟨1, number, 1⟩] else none
  jaTasks := []
  jaTemplate := ⟨1, 0, 0⟩
  jatStatus _ := jIdle

/-- The array job is queued, and the limit is one task. -/
def arrayCall (number : ℕ) : Call where
  running := []
  queued := [arrayJob number]
  maxPendingTasksPerJob := 1
  freeQslots := 10

/-- The table of the first call is kept for the second one. -/
theorem arrayCall_safe : ∃ outcomes,
    schedulingRuns (PSortList.stable Range Range.min) 1 0 [arrayCall 10, arrayCall 20] =
      some outcomes ∧ ∀ outcome ∈ outcomes, outcome.Safe := by
  apply schedulingRuns_safe
  intro call hcall
  have hfit : ∀ number, number = 10 ∨ number = 20 →
      (arrayCall number).CountsFit (PSortList.stable Range Range.min) 1 := by
    rintro number (rfl | rfl)
    · refine ⟨by decide, ?_, by decide⟩
      intro job hjob
      obtain rfl := List.mem_singleton.mp hjob
      exact ⟨rfl, by decide, by decide, by decide⟩
    · refine ⟨by decide, ?_, by decide⟩
      intro job hjob
      obtain rfl := List.mem_singleton.mp hjob
      exact ⟨rfl, by decide, by decide, by decide⟩
  rcases List.mem_pair.mp hcall with rfl | rfl
  · exact hfit 10 (Or.inl rfl)
  · exact hfit 20 (Or.inr rfl)

/-- With 3000000000 ids the number of tasks is negative as an `int`, and the task that there is
space for has no reference. -/
theorem arrayCall_unsafe : ∃ outcome,
    sgeCalcTickets (PSortList.stable Range Range.min) 1 0 (arrayCall 3000000000) = some outcome ∧
      ¬ outcome.Safe := by
  have hfill : (fillQueued 1 ⟨0, 0, []⟩ (arrayJob 3000000000)).accesses =
      [.jobRef 0, .taskRef 0] := by
    simp [fillQueued, arrayJob, fillIds, Filled.addUnenrolled, wadd]
  refine ⟨_, rfl, ?_⟩
  intro hsafe
  have haccess := hsafe (.jobRef 0) (by
    change Access.jobRef 0 ∈ (fillQueued 1 ⟨0, 0, []⟩ (arrayJob 3000000000)).accesses
    rw [hfill]
    exact List.mem_cons_self)
  exact absurd haccess (by decide)

end Runs

end GridEngine.ReferenceTables
