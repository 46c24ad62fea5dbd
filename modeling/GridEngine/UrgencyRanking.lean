import GridEngine.EvalExpression
import GridEngine.FirstLeast
import GridEngine.PendingResort
import GridEngine.RangeParse
import GridEngine.ReferenceTables
import GridEngine.ResourceDebit

/-!
# The urgency of the jobs

The urgency of a job is the sum of a part for its waiting time, a part for its deadline and a part
for its resource requests, which is kept in the category of the job. The urgencies of all pending
and running jobs are normalised to the range from the least to the greatest one. The range is
tracked from `DBL_MAX` and `DBL_MIN`, and the latter is greater than every urgency that is not
positive.
-/

namespace GridEngine.Urgency
open PendingOrder

section Model

/-- What the urgency uses of a `CE_Type` element of the complex. -/
structure Centry where
  name : String
  shortcut : String
  urgencyWeight : Option String
  valtype : ValueType

/-- What the urgency uses of a `PE_Type` element. -/
structure UrgencyPe extends ParallelEnvironment where
  name : String
  urgencySlots : String

/-- An element of `JB_hard_resource_list`. -/
structure Request (K : Type) where
  name : String
  doubleval : K

structure Job (K : Type) where
  submissionTime : ℕ
  deadline : ℕ
  category : Option ℕ
  pe : Option String
  peRange : List Range
  hardResourceList : List (Request K)
  dlcontr : K
  rrcontr : K
  wtcontr : K
  urg : K
  nurg : K

/-- What the urgency uses of a `CT_Type` element. -/
structure Category (K : Type) where
  rcValid : Bool
  resourceContribution : K

/-- The scheduler configuration with the complex and the parallel environments. `parseInt` is
`parse_ulong_val` for `TYPE_INT`, and `fnmatch` takes the pattern first. -/
structure Config (K : Type) where
  weightDeadline : K
  weightWaitingTime : K
  centryList : List Centry
  peList : List UrgencyPe
  parseInt : String → Option K
  fnmatch : String → String → Bool

/-- `centry_list_locate`. -/
def centryListLocate (centryList : List Centry) (name : String) : Option Centry :=
  (centryList.find? fun centry => centry.name = name).or
    (centryList.find? fun centry => centry.shortcut = name)

/-- The numbers of the loop in `range_list_get_average`. -/
def idsUpTo (range : Range) (upperbound : ℕ) : List ℕ :=
  let max := if upperbound ≠ 0 then min range.max upperbound else range.max
  List.range' range.min ((max + range.step - range.min) / range.step) range.step

/-- `range_list_get_average`. -/
def rangeListGetAverage (rangeList : List Range) (upperbound : ℕ) : ℚ :=
  let numbers := rangeList.flatMap fun range => idsUpTo range upperbound
  if 0 < numbers.length then (numbers.sum : ℚ) / numbers.length else 0

/-- `pe_urgency_slots`. -/
def peUrgencySlots (pe : UrgencyPe) (rangeList : List Range) : ℤ :=
  if strcasecmp pe.urgencySlots "min" then ReferenceTables.toInt (rangeListGetFirstId rangeList)
  else if strcasecmp pe.urgencySlots "max" then
    let n := ReferenceTables.toInt (rangeListGetLastId rangeList)
    if n = rangeInfinity then ReferenceTables.toInt pe.slots else n
  else if strcasecmp pe.urgencySlots "avg" then ⌊rangeListGetAverage rangeList pe.slots⌋
  else if pe.urgencySlots.toList.head?.any Char.isDigit then
    ReferenceTables.toInt (atoi pe.urgencySlots)
  else 1

variable {K : Type}

/-- `sge_job_slot_request`. -/
def sgeJobSlotRequest (cfg : Config K) (job : Job K) : ℤ :=
  match job.pe with
  | none => 1
  | some peName =>
      if rangeListGetNumberOfIds job.peRange = 1 then
        ReferenceTables.toInt (rangeListGetFirstId job.peRange)
      else
        let pep :=
          if !(peName.toList.any EvalExpression.isPattern) then
            cfg.peList.find? fun pe => pe.name = peName
          else cfg.peList.find? fun pe => cfg.fnmatch peName pe.name
        match pep with
        | none => 1
        | some pe => peUrgencySlots pe job.peRange

variable [Field K]

/-- `centry_urgency_contribution`. -/
def centryUrgencyContribution (cfg : Config K) (slots : ℤ) (value : K) (centry : Centry) : K :=
  match centry.urgencyWeight.bind cfg.parseInt with
  | none => 0
  | some weight =>
      match centry.valtype with
      | .int | .tim | .mem | .boo | .double => value * weight * slots
      | .str | .cstr | .host | .restr => weight
      | .unknown => 0

/-- The contribution of the requests when it is not kept in the category, and none without the
complex `slots`. -/
def requestContribution (cfg : Config K) (job : Job K) : Option K :=
  let slots := sgeJobSlotRequest cfg job
  (centryListLocate cfg.centryList "slots").map fun centry =>
    job.hardResourceList.foldl
      (fun rrc request =>
        match centryListLocate cfg.centryList request.name with
        | none => rrc
        | some centry => rrc + centryUrgencyContribution cfg slots request.doubleval centry)
      (0 + centryUrgencyContribution cfg slots 1 centry)

def waitingContribution (cfg : Config K) (now : ℕ) (job : Job K) : K :=
  cfg.weightWaitingTime * ReferenceTables.toUlong ((now : ℤ) - job.submissionTime)

def deadlineContribution (cfg : Config K) (now : ℕ) (job : Job K) : K :=
  if job.deadline ≠ 0 then
    let timeLeft := ReferenceTables.toInt ((job.deadline : ℤ) - now)
    cfg.weightDeadline / ((max timeLeft 1 : ℤ) : K)
  else 0

/-- What the loop over the jobs changes beside them. -/
structure Tracked (K : Type) where
  minUrgency : K
  maxUrgency : K
  categories : ℕ → Category K

/-- The contribution of the requests from the category, or computed and put into it. -/
def cachedContribution (cfg : Config K) (categories : ℕ → Category K) (job : Job K) :
    Option (K × (ℕ → Category K)) :=
  match job.category with
  | none => (requestContribution cfg job).map fun rrc => (rrc, categories)
  | some cat =>
      if (categories cat).rcValid then some ((categories cat).resourceContribution, categories)
      else (requestContribution cfg job).map fun rrc =>
        (rrc, Function.update categories cat ⟨true, rrc⟩)

variable [LinearOrder K]

/-- `sge_urgency`. -/
def sgeUrgency (cfg : Config K) (now : ℕ) : List (Job K) → Tracked K → List (Job K) × Tracked K
  | [], tracked => ([], tracked)
  | job :: jobs, tracked =>
      match cachedContribution cfg tracked.categories job with
      | none =>
          let rest := sgeUrgency cfg now jobs tracked
          (job :: rest.1, rest.2)
      | some (rrc, categories) =>
          let wtc := waitingContribution cfg now job
          let dtc := deadlineContribution cfg now job
          let absoluteUrgency := wtc + dtc + rrc
          let rest := sgeUrgency cfg now jobs
            ⟨min tracked.minUrgency absoluteUrgency, max tracked.maxUrgency absoluteUrgency,
              categories⟩
          ({ job with dlcontr := dtc, rrcontr := rrc, wtcontr := wtc, urg := absoluteUrgency } ::
            rest.1, rest.2)

/-- `sge_normalize_urgency`. -/
def sgeNormalizeUrgency (tracked : Tracked K) (jobs : List (Job K)) : List (Job K) :=
  jobs.map fun job =>
    { job with nurg := sgeNormalizeValue job.urg tracked.minUrgency tracked.maxUrgency }

/-- `DBL_MIN`, the smallest positive normal number. -/
def dblMin : K := 1 / 2 ^ 1022

/-- `DBL_MAX`. -/
def dblMax : K := (2 ^ 53 - 1) * 2 ^ 971

/-- `sge_do_urgency`, with the running and the pending jobs and the categories afterwards. -/
def sgeDoUrgency (cfg : Config K) (now : ℕ) (runningJobs pendingJobs : List (Job K))
    (categories : ℕ → Category K) : List (Job K) × List (Job K) × (ℕ → Category K) :=
  let pending := sgeUrgency cfg now pendingJobs ⟨dblMax, dblMin, categories⟩
  let running := sgeUrgency cfg now runningJobs pending.2
  (sgeNormalizeUrgency running.2 running.1, sgeNormalizeUrgency running.2 pending.1,
    running.2.categories)

/-- What `sge_reset_job_category` does before each scheduling run. -/
def sgeResetJobCategory (categories : ℕ → Category K) (cat : ℕ) : Category K :=
  { categories cat with rcValid := false }

end Model

section Spec
variable {K : Type} [Field K]

/-- The urgency of a job without the categories. -/
def urgency (cfg : Config K) (now : ℕ) (job : Job K) : K :=
  waitingContribution cfg now job + deadlineContribution cfg now job +
    (requestContribution cfg job).getD 0

/-- Jobs of one category have the same requests. -/
def CategoriesAgree (jobs : List (Job K)) : Prop :=
  ∀ job ∈ jobs, ∀ job' ∈ jobs, job.category ≠ none → job.category = job'.category →
    job.pe = job'.pe ∧ job.peRange = job'.peRange ∧
      job.hardResourceList = job'.hardResourceList

variable [LinearOrder K]

/-- `SGE_EPSILON`. -/
def sgeEpsilon : K := 0.00001

/-- The normalised urgencies rank the jobs between 0 and 1, or none above another when the
urgencies are nearly equal. -/
structure IsRanking (jobs : List (Job K)) : Prop where
  nonneg : ∀ job ∈ jobs, 0 ≤ job.nurg
  le_one : ∀ job ∈ jobs, job.nurg ≤ 1
  monotone : ∀ job ∈ jobs, ∀ job' ∈ jobs, job.urg ≤ job'.urg → job.nurg ≤ job'.nurg
  spread : ∀ least ∈ jobs, ∀ most ∈ jobs,
    (∀ job ∈ jobs, least.urg ≤ job.urg ∧ job.urg ≤ most.urg) →
      sgeEpsilon ≤ most.urg - least.urg → least.nurg = 0 ∧ most.nurg = 1
  close : (∀ job ∈ jobs, ∀ job' ∈ jobs, job.urg - job'.urg < sgeEpsilon) →
    ∀ job ∈ jobs, job.nurg = 1 / 2

/-- The jobs get the urgencies that they have without the categories, and these are ranked. -/
structure RanksUrgency (cfg : Config K) (now : ℕ) (runningJobs pendingJobs : List (Job K))
    (result : List (Job K) × List (Job K) × (ℕ → Category K)) : Prop where
  running : result.1.map Job.urg = runningJobs.map (urgency cfg now)
  pending : result.2.1.map Job.urg = pendingJobs.map (urgency cfg now)
  ranking : IsRanking (result.2.1 ++ result.1)

end Spec

section Categories
variable {K : Type} [Field K] {cfg : Config K} {categories : ℕ → Category K} {jobs : List (Job K)}
  {job job' : Job K}

theorem requestContribution_congr (hpe : job.pe = job'.pe) (hrange : job.peRange = job'.peRange)
    (hlist : job.hardResourceList = job'.hardResourceList) :
    requestContribution cfg job = requestContribution cfg job' := by
  have hslots : sgeJobSlotRequest cfg job = sgeJobSlotRequest cfg job' := by
    rw [sgeJobSlotRequest, sgeJobSlotRequest, hpe, hrange]
  rw [requestContribution, requestContribution, hslots, hlist]

theorem requestContribution_eq (job : Job K)
    (hslots : centryListLocate cfg.centryList "slots" ≠ none) :
    requestContribution cfg job = some ((requestContribution cfg job).getD 0) := by
  obtain ⟨centry, hcentry⟩ := Option.ne_none_iff_exists'.mp hslots
  rw [requestContribution, hcentry]
  rfl

/-- What a category keeps is the contribution of each of its jobs. -/
def Cached (cfg : Config K) (jobs : List (Job K)) (categories : ℕ → Category K) : Prop :=
  ∀ job ∈ jobs, ∀ cat, job.category = some cat → (categories cat).rcValid = true →
    requestContribution cfg job = some (categories cat).resourceContribution

theorem cached_reset : Cached cfg jobs (sgeResetJobCategory categories) := by
  intro job _ cat _ hvalid
  cases hvalid

theorem cachedContribution_spec (hslots : centryListLocate cfg.centryList "slots" ≠ none)
    (hagree : CategoriesAgree jobs) (hcached : Cached cfg jobs categories) (hjob : job ∈ jobs) :
    ∃ categories', cachedContribution cfg categories job =
        some ((requestContribution cfg job).getD 0, categories') ∧
      Cached cfg jobs categories' := by
  have hrequest := requestContribution_eq job hslots
  cases hcat : job.category with
  | none =>
      rw [cachedContribution, hcat]
      dsimp only
      rw [hrequest]
      exact ⟨categories, rfl, hcached⟩
  | some cat =>
      by_cases hvalid : (categories cat).rcValid = true
      · rw [cachedContribution, hcat]
        dsimp only
        rw [if_pos hvalid, hcached job hjob cat hcat hvalid]
        exact ⟨categories, rfl, hcached⟩
      · rw [cachedContribution, hcat]
        dsimp only
        rw [if_neg hvalid, hrequest]
        refine ⟨_, rfl, fun job' hjob' cat' hcat' hvalid' => ?_⟩
        by_cases heq : cat' = cat
        · subst heq
          obtain ⟨hpe, hrange, hlist⟩ :=
            hagree job' hjob' job hjob (by simp [hcat']) (hcat'.trans hcat.symm)
          rw [Function.update_self, requestContribution_congr hpe hrange hlist]
          exact hrequest
        · rw [Function.update_of_ne heq] at hvalid' ⊢
          exact hcached job' hjob' cat' hcat' hvalid'

variable [LinearOrder K] {now : ℕ}

/-- A job with its contributions. -/
def withUrgency (cfg : Config K) (now : ℕ) (job : Job K) : Job K :=
  { job with
    dlcontr := deadlineContribution cfg now job
    rrcontr := (requestContribution cfg job).getD 0
    wtcontr := waitingContribution cfg now job
    urg := urgency cfg now job }

/-- The loop gives each job its urgency and tracks the least and the greatest one. -/
theorem sgeUrgency_spec (now : ℕ) (hslots : centryListLocate cfg.centryList "slots" ≠ none)
    (hagree : CategoriesAgree jobs) {list : List (Job K)} (hlist : list ⊆ jobs)
    (tracked : Tracked K) (hcached : Cached cfg jobs tracked.categories) :
    ∃ categories', sgeUrgency cfg now list tracked =
        (list.map (withUrgency cfg now),
          ⟨(list.map (urgency cfg now)).foldl min tracked.minUrgency,
            (list.map (urgency cfg now)).foldl max tracked.maxUrgency, categories'⟩) ∧
      Cached cfg jobs categories' := by
  induction list generalizing tracked with
  | nil => exact ⟨tracked.categories, rfl, hcached⟩
  | cons job list ih =>
      obtain ⟨hjob, hrest⟩ := List.cons_subset.mp hlist
      obtain ⟨categories', hcontribution, hcached'⟩ :=
        cachedContribution_spec hslots hagree hcached hjob
      obtain ⟨categories'', hloop, hcached''⟩ := ih hrest
        ⟨min tracked.minUrgency (urgency cfg now job),
          max tracked.maxUrgency (urgency cfg now job), categories'⟩ hcached'
      refine ⟨categories'', ?_, hcached''⟩
      rw [sgeUrgency, hcontribution]
      dsimp only
      rw [← urgency, hloop]
      rfl

end Categories

section Normalise
variable {K : Type} [LinearOrder K] [Field K] [IsStrictOrderedRing K] {x y lo hi : K}

theorem sgeEpsilon_pos : (0 : K) < sgeEpsilon := by
  rw [sgeEpsilon]
  norm_num

theorem sgeNormalizeValue_near (h : hi - lo < sgeEpsilon) :
    sgeNormalizeValue x lo hi = 1 / 2 := by
  rw [sgeEpsilon] at h
  rw [sgeNormalizeValue, if_pos h]
  norm_num

omit [IsStrictOrderedRing K] in
theorem sgeNormalizeValue_far (h : sgeEpsilon ≤ hi - lo) :
    sgeNormalizeValue x lo hi = (x - lo) / (hi - lo) := by
  rw [sgeEpsilon] at h
  rw [sgeNormalizeValue, if_neg (not_lt.mpr h)]

theorem sgeNormalizeValue_mem (hlo : lo ≤ x) (hhi : x ≤ hi) :
    0 ≤ sgeNormalizeValue x lo hi ∧ sgeNormalizeValue x lo hi ≤ 1 := by
  rcases lt_or_ge (hi - lo) sgeEpsilon with hnear | hfar
  · rw [sgeNormalizeValue_near hnear]
    constructor <;> norm_num
  · have hpos : 0 < hi - lo := sgeEpsilon_pos.trans_le hfar
    rw [sgeNormalizeValue_far hfar]
    exact ⟨div_nonneg (sub_nonneg.mpr hlo) hpos.le,
      (div_le_one hpos).mpr (sub_le_sub_right hhi lo)⟩

theorem sgeNormalizeValue_mono (h : x ≤ y) :
    sgeNormalizeValue x lo hi ≤ sgeNormalizeValue y lo hi := by
  rcases lt_or_ge (hi - lo) sgeEpsilon with hnear | hfar
  · rw [sgeNormalizeValue_near hnear, sgeNormalizeValue_near hnear]
  · have hpos : 0 < hi - lo := sgeEpsilon_pos.trans_le hfar
    rw [sgeNormalizeValue_far hfar, sgeNormalizeValue_far hfar]
    exact div_le_div_of_nonneg_right (sub_le_sub_right h lo) hpos.le

theorem sgeNormalizeValue_eq_zero (h : sgeNormalizeValue x lo hi = 0) : x = lo := by
  rcases lt_or_ge (hi - lo) sgeEpsilon with hnear | hfar
  · rw [sgeNormalizeValue_near hnear] at h
    norm_num at h
  · have hpos : 0 < hi - lo := sgeEpsilon_pos.trans_le hfar
    rw [sgeNormalizeValue_far hfar, div_eq_zero_iff] at h
    exact sub_eq_zero.mp (h.resolve_right hpos.ne')

theorem sgeNormalizeValue_eq_one (h : sgeNormalizeValue x lo hi = 1) : x = hi := by
  rcases lt_or_ge (hi - lo) sgeEpsilon with hnear | hfar
  · rw [sgeNormalizeValue_near hnear] at h
    norm_num at h
  · have hpos : 0 < hi - lo := sgeEpsilon_pos.trans_le hfar
    rw [sgeNormalizeValue_far hfar, div_eq_one_iff_eq hpos.ne'] at h
    exact sub_left_injective h

theorem dblMin_pos : (0 : K) < dblMin := by
  rw [dblMin]
  positivity

theorem dblMin_le_one : (dblMin : K) ≤ 1 := by
  rw [dblMin, div_le_one (by positivity)]
  exact one_le_pow₀ (by norm_num)

theorem one_lt_dblMax : (1 : K) < dblMax := by
  have hpow : (1 : K) ≤ 2 ^ 971 := one_le_pow₀ (by norm_num)
  have hmul : (1 : K) * 1 < (2 ^ 53 - 1) * 2 ^ 971 :=
    mul_lt_mul (by norm_num) hpow one_pos (by norm_num)
  rwa [one_mul] at hmul

end Normalise

section Ranking
variable {K : Type} [Field K] [LinearOrder K] [IsStrictOrderedRing K] {jobs : List (Job K)}
  {lo hi : K}

/-- The range that is tracked is the one of the urgencies, or there is no need to know it. -/
def TracksRange (urg : Job K → K) (jobs : List (Job K)) : Prop :=
  ((∃ job ∈ jobs, dblMin ≤ urg job) ∨ ∀ job ∈ jobs, dblMin - sgeEpsilon < urg job) ∧
    ((∃ job ∈ jobs, urg job ≤ dblMax) ∨ ∀ job ∈ jobs, urg job < dblMax + sgeEpsilon)

/-- The ends of the urgencies and of the range that is tracked for them. -/
structure Ends (jobs : List (Job K)) (lo hi : K) (least most : Job K) : Prop where
  least_mem : least ∈ jobs
  most_mem : most ∈ jobs
  least_le : ∀ job ∈ jobs, least.urg ≤ job.urg
  le_most : ∀ job ∈ jobs, job.urg ≤ most.urg
  lo_le : ∀ job ∈ jobs, lo ≤ job.urg
  le_hi : ∀ job ∈ jobs, job.urg ≤ hi
  lo_le_max : lo ≤ dblMax
  min_le_hi : dblMin ≤ hi
  lo_cases : lo = dblMax ∨ lo = least.urg
  hi_cases : hi = dblMin ∨ hi = most.urg

omit [IsStrictOrderedRing K] in
theorem exists_ends (hne : jobs ≠ []) (hlo : IsLeast {x | x ∈ dblMax :: jobs.map Job.urg} lo)
    (hhi : IsGreatest {x | x ∈ dblMin :: jobs.map Job.urg} hi) :
    ∃ least most, Ends jobs lo hi least most := by
  have hfin : {job | job ∈ jobs}.Finite := List.finite_toSet jobs
  have hnonempty : {job | job ∈ jobs}.Nonempty := List.exists_mem_of_ne_nil jobs hne
  obtain ⟨least, hleast, hmin⟩ := Set.exists_min_image _ Job.urg hfin hnonempty
  obtain ⟨most, hmost, hmax⟩ := Set.exists_max_image _ Job.urg hfin hnonempty
  have hlo_le : ∀ job ∈ jobs, lo ≤ job.urg := fun job hjob =>
    hlo.2 (List.mem_cons_of_mem _ (List.mem_map_of_mem hjob))
  have hle_hi : ∀ job ∈ jobs, job.urg ≤ hi := fun job hjob =>
    hhi.2 (List.mem_cons_of_mem _ (List.mem_map_of_mem hjob))
  refine ⟨least, most, hleast, hmost, hmin, hmax, hlo_le, hle_hi, hlo.2 List.mem_cons_self,
    hhi.2 List.mem_cons_self, ?_, ?_⟩
  · rcases List.mem_cons.mp hlo.1 with heq | hmem
    · exact .inl heq
    · obtain ⟨job, hjob, heq⟩ := List.mem_map.mp hmem
      exact .inr (le_antisymm (hlo_le least hleast) (heq ▸ hmin job hjob))
  · rcases List.mem_cons.mp hhi.1 with heq | hmem
    · exact .inl heq
    · obtain ⟨job, hjob, heq⟩ := List.mem_map.mp hmem
      exact .inr (le_antisymm (heq ▸ hmax job hjob) (hle_hi most hmost))

theorem IsRanking.ends {least most : Job K} (h : IsRanking jobs)
    (hends : Ends jobs lo hi least most)
    (hnurg : ∀ job ∈ jobs, job.nurg = sgeNormalizeValue job.urg lo hi)
    (hfar : sgeEpsilon ≤ hi - lo) : least.urg = lo ↔ most.urg = hi := by
  have hpos : 0 < hi - lo := sgeEpsilon_pos.trans_le hfar
  rcases le_or_gt sgeEpsilon (most.urg - least.urg) with hspread | hclose
  · obtain ⟨hzero, hone⟩ := h.spread least hends.least_mem most hends.most_mem
      (fun job hjob => ⟨hends.least_le job hjob, hends.le_most job hjob⟩) hspread
    rw [hnurg least hends.least_mem] at hzero
    rw [hnurg most hends.most_mem] at hone
    exact iff_of_true (sgeNormalizeValue_eq_zero hzero) (sgeNormalizeValue_eq_one hone)
  · have hhalf := h.close fun job hjob job' hjob' =>
      (sub_le_sub (hends.le_most job hjob) (hends.least_le job' hjob')).trans_lt hclose
    refine iff_of_false (fun heq => ?_) fun heq => ?_
    · have hvalue := hhalf least hends.least_mem
      rw [hnurg least hends.least_mem, sgeNormalizeValue_far hfar, heq, sub_self,
        zero_div] at hvalue
      norm_num at hvalue
    · have hvalue := hhalf most hends.most_mem
      rw [hnurg most hends.most_mem, sgeNormalizeValue_far hfar, heq, div_self hpos.ne'] at hvalue
      norm_num at hvalue

theorem IsRanking.tracksRange {least most : Job K} (h : IsRanking jobs)
    (hends : Ends jobs lo hi least most)
    (hnurg : ∀ job ∈ jobs, job.nurg = sgeNormalizeValue job.urg lo hi) :
    TracksRange Job.urg jobs := by
  have hbounds : (dblMin : K) < dblMax := dblMin_le_one.trans_lt one_lt_dblMax
  refine ⟨?_, ?_⟩
  · by_contra hnot
    push Not at hnot
    obtain ⟨hsmall, job, hjob, hfar⟩ := hnot
    have hleast : least.urg = lo := by
      rcases hends.lo_cases with heq | heq
      · have hle := hends.lo_le least hends.least_mem
        linarith [hsmall least hends.least_mem]
      · exact heq.symm
    have hmost := (h.ends hends hnurg (by linarith [hends.lo_le job hjob, hends.min_le_hi])).mp
      hleast
    linarith [hsmall most hends.most_mem, hends.min_le_hi]
  · by_contra hnot
    push Not at hnot
    obtain ⟨hlarge, job, hjob, hfar⟩ := hnot
    have hmost : most.urg = hi := by
      rcases hends.hi_cases with heq | heq
      · have hle := hends.le_hi most hends.most_mem
        linarith [hlarge most hends.most_mem]
      · exact heq.symm
    have hleast := (h.ends hends hnurg (by linarith [hends.le_hi job hjob, hends.lo_le_max])).mpr
      hmost
    linarith [hlarge least hends.least_mem, hends.lo_le_max]

theorem TracksRange.isRanking {least most : Job K} (h : TracksRange Job.urg jobs)
    (hends : Ends jobs lo hi least most)
    (hnurg : ∀ job ∈ jobs, job.nurg = sgeNormalizeValue job.urg lo hi) : IsRanking jobs := by
  obtain ⟨hminimum, hmaximum⟩ := h
  have hpos : (0 : K) < sgeEpsilon := sgeEpsilon_pos
  have hbounds : (dblMin : K) < dblMax := dblMin_le_one.trans_lt one_lt_dblMax
  have hmem := fun job hjob => sgeNormalizeValue_mem (hends.lo_le job hjob) (hends.le_hi job hjob)
  -- outside of the two bounds the urgencies are nearly equal to one of them
  have hlo : lo = least.urg ∨ most.urg < dblMax + sgeEpsilon ∧ lo = dblMax := by
    rcases hends.lo_cases with heq | heq
    · rcases hmaximum with ⟨job, hjob, hle⟩ | hlt
      · have hleast := (hends.least_le job hjob).trans hle
        exact .inl (le_antisymm (hends.lo_le least hends.least_mem) (heq ▸ hleast))
      · exact .inr ⟨hlt most hends.most_mem, heq⟩
    · exact .inl heq
  have hhi : hi = most.urg ∨ dblMin - sgeEpsilon < least.urg ∧ hi = dblMin := by
    rcases hends.hi_cases with heq | heq
    · rcases hminimum with ⟨job, hjob, hle⟩ | hlt
      · have hmost := hle.trans (hends.le_most job hjob)
        exact .inl (le_antisymm (heq ▸ hmost) (hends.le_hi most hends.most_mem))
      · exact .inr ⟨hlt least hends.least_mem, heq⟩
    · exact .inl heq
  refine ⟨fun job hjob => ?_, fun job hjob => ?_, fun job hjob job' hjob' hle => ?_,
    fun least' hleast' most' hmost' hall hspread => ?_, fun hclose job hjob => ?_⟩
  · rw [hnurg job hjob]
    exact (hmem job hjob).1
  · rw [hnurg job hjob]
    exact (hmem job hjob).2
  · rw [hnurg job hjob, hnurg job' hjob']
    exact sgeNormalizeValue_mono hle
  · have hleast_eq : least'.urg = least.urg :=
      le_antisymm (hall least hends.least_mem).1 (hends.least_le least' hleast')
    have hmost_eq : most'.urg = most.urg :=
      le_antisymm (hends.le_most most' hmost') (hall most hends.most_mem).2
    rw [hleast_eq, hmost_eq] at hspread
    have hlo' : lo = least.urg := by
      rcases hlo with heq | ⟨hlt, heq⟩
      · exact heq
      · linarith [hends.lo_le least hends.least_mem]
    have hhi' : hi = most.urg := by
      rcases hhi with heq | ⟨hlt, heq⟩
      · exact heq
      · linarith [hends.le_hi most hends.most_mem]
    have hfar : sgeEpsilon ≤ hi - lo := by rwa [hlo', hhi']
    rw [hnurg least' hleast', hnurg most' hmost', sgeNormalizeValue_far hfar,
      sgeNormalizeValue_far hfar, hleast_eq, hmost_eq, ← hlo', ← hhi', sub_self, zero_div]
    exact ⟨rfl, div_self (hpos.trans_le hfar).ne'⟩
  · rw [hnurg job hjob, sgeNormalizeValue_near]
    have hnear := hclose most hends.most_mem least hends.least_mem
    rcases hlo with hlo' | ⟨hlt, hlo'⟩
    · rcases hhi with hhi' | ⟨hlt', hhi'⟩
      · rwa [hlo', hhi']
      · linarith
    · rcases hhi with hhi' | ⟨hlt', hhi'⟩
      · linarith
      · linarith

variable {cfg : Config K} {now : ℕ} {runningJobs pendingJobs : List (Job K)}
  {categories : ℕ → Category K}

omit [IsStrictOrderedRing K] in
/-- Each job gets its urgency and its place in the range that was tracked over both lists. -/
theorem sgeDoUrgency_spec (now : ℕ) (runningJobs pendingJobs : List (Job K))
    (categories : ℕ → Category K) (hslots : centryListLocate cfg.centryList "slots" ≠ none)
    (hagree : CategoriesAgree (pendingJobs ++ runningJobs)) :
    ∃ tracked : Tracked K,
      sgeDoUrgency cfg now runningJobs pendingJobs (sgeResetJobCategory categories) =
        (sgeNormalizeUrgency tracked (runningJobs.map (withUrgency cfg now)),
          sgeNormalizeUrgency tracked (pendingJobs.map (withUrgency cfg now)),
          tracked.categories) ∧
      IsLeast {x | x ∈ dblMax :: (pendingJobs ++ runningJobs).map (urgency cfg now)}
        tracked.minUrgency ∧
      IsGreatest {x | x ∈ dblMin :: (pendingJobs ++ runningJobs).map (urgency cfg now)}
        tracked.maxUrgency := by
  obtain ⟨categories', hpending, hcached⟩ :=
    sgeUrgency_spec now hslots hagree (List.subset_append_left _ _)
      ⟨dblMax, dblMin, sgeResetJobCategory categories⟩ cached_reset
  obtain ⟨categories'', hrunning, -⟩ :=
    sgeUrgency_spec now hslots hagree (List.subset_append_right _ _)
      ⟨(pendingJobs.map (urgency cfg now)).foldl min dblMax,
        (pendingJobs.map (urgency cfg now)).foldl max dblMin, categories'⟩ hcached
  rw [sgeDoUrgency, hpending]
  dsimp only
  rw [hrunning]
  refine ⟨_, rfl, ?_, ?_⟩
  · dsimp only
    rw [← List.foldl_append, ← List.map_append]
    exact FirstLeast.isLeast_foldl_min _ _
  · dsimp only
    rw [← List.foldl_append, ← List.map_append]
    exact FirstLeast.isGreatest_foldl_max _ _

/-- A job when its urgency is normalised. -/
def ranked (cfg : Config K) (now : ℕ) (tracked : Tracked K) (job : Job K) : Job K :=
  { withUrgency cfg now job with
    nurg := sgeNormalizeValue (urgency cfg now job) tracked.minUrgency tracked.maxUrgency }

omit [IsStrictOrderedRing K] in
theorem sgeNormalizeUrgency_map (tracked : Tracked K) (jobs : List (Job K)) :
    sgeNormalizeUrgency tracked (jobs.map (withUrgency cfg now)) =
      jobs.map (ranked cfg now tracked) := List.map_map

omit [IsStrictOrderedRing K] in
theorem map_urg_ranked (tracked : Tracked K) (jobs : List (Job K)) :
    (jobs.map (ranked cfg now tracked)).map Job.urg = jobs.map (urgency cfg now) := List.map_map

theorem isRanking_ranked (hne : jobs ≠ []) {tracked : Tracked K}
    (hlo : IsLeast {x | x ∈ dblMax :: jobs.map (urgency cfg now)} tracked.minUrgency)
    (hhi : IsGreatest {x | x ∈ dblMin :: jobs.map (urgency cfg now)} tracked.maxUrgency) :
    IsRanking (jobs.map (ranked cfg now tracked)) ↔ TracksRange (urgency cfg now) jobs := by
  have hne' : jobs.map (ranked cfg now tracked) ≠ [] := mt List.map_eq_nil_iff.mp hne
  rw [← map_urg_ranked tracked] at hlo hhi
  obtain ⟨least, most, hends⟩ := exists_ends hne' hlo hhi
  have hnurg : ∀ job ∈ jobs.map (ranked cfg now tracked),
      job.nurg = sgeNormalizeValue job.urg tracked.minUrgency tracked.maxUrgency :=
    List.forall_mem_map.mpr fun job _ => rfl
  have hrange : TracksRange Job.urg (jobs.map (ranked cfg now tracked)) ↔
      TracksRange (urgency cfg now) jobs := by
    simp only [TracksRange, List.mem_map, exists_exists_and_eq_and, forall_exists_index, and_imp,
      forall_apply_eq_imp_iff₂]
    rfl
  rw [← hrange]
  exact ⟨fun h => h.tracksRange hends hnurg, fun h => h.isRanking hends hnurg⟩

/-- The urgencies are those without the categories, and their ranking is right exactly when
`DBL_MIN` and `DBL_MAX` are no ends of the range. -/
theorem urgency_ranks_iff (hne : pendingJobs ++ runningJobs ≠ [])
    (hslots : centryListLocate cfg.centryList "slots" ≠ none)
    (hagree : CategoriesAgree (pendingJobs ++ runningJobs)) :
    RanksUrgency cfg now runningJobs pendingJobs
        (sgeDoUrgency cfg now runningJobs pendingJobs (sgeResetJobCategory categories)) ↔
      TracksRange (urgency cfg now) (pendingJobs ++ runningJobs) := by
  obtain ⟨tracked, hresult, hlo, hhi⟩ :=
    sgeDoUrgency_spec now runningJobs pendingJobs categories hslots hagree
  have hranking := isRanking_ranked hne hlo hhi
  rw [hresult, sgeNormalizeUrgency_map, sgeNormalizeUrgency_map]
  rw [List.map_append] at hranking
  constructor
  · intro h
    exact hranking.mp h.ranking
  · intro h
    exact ⟨map_urg_ranked tracked _, map_urg_ranked tracked _, hranking.mpr h⟩

end Ranking

section Instances

/-- One sequential job, and an urgency weight for the slots. -/
def weighted (weight : ℚ) : Config ℚ where
  weightDeadline := 0
  weightWaitingTime := 0
  centryList := [⟨"slots", "s", some "weight", .int⟩]
  peList := []
  parseInt _ := some weight
  fnmatch pattern name := pattern = name

def sequential : Job ℚ := ⟨0, 0, some 0, none, [], [], 0, 0, 0, 0, 0⟩

theorem urgency_sequential (weight : ℚ) (now : ℕ) :
    urgency (weighted weight) now sequential = weight := by
  have hslots : centryListLocate (weighted weight).centryList "slots" =
      some ⟨"slots", "s", some "weight", .int⟩ := rfl
  rw [urgency, requestContribution, hslots]
  simp [waitingContribution, deadlineContribution, centryUrgencyContribution, sgeJobSlotRequest,
    weighted, sequential]

theorem categoriesAgree_sequential : CategoriesAgree [sequential, sequential] := by
  intro job hjob job' hjob' _ _
  obtain rfl : job = sequential := by simpa using hjob
  obtain rfl : job' = sequential := by simpa using hjob'
  exact ⟨rfl, rfl, rfl⟩

/-- A pending and a running job of one category with urgency 1. -/
theorem urgency_ranks_positive : RanksUrgency (weighted 1) 0 [sequential] [sequential]
    (sgeDoUrgency (weighted 1) 0 [sequential] [sequential]
      (sgeResetJobCategory fun _ => ⟨true, 7⟩)) := by
  have hslots : centryListLocate (weighted 1).centryList "slots" ≠ none := Option.some_ne_none _
  refine (urgency_ranks_iff (by simp) hslots categoriesAgree_sequential).mpr
    ⟨.inl ⟨sequential, List.mem_cons_self, ?_⟩, .inl ⟨sequential, List.mem_cons_self, ?_⟩⟩
  · rw [urgency_sequential]
    exact dblMin_le_one
  · rw [urgency_sequential]
    exact one_lt_dblMax.le

/-- Two jobs of urgency -1 do not get 0.5. -/
theorem urgency_ranks_negative : ¬ RanksUrgency (weighted (-1)) 0 [sequential] [sequential]
    (sgeDoUrgency (weighted (-1)) 0 [sequential] [sequential]
      (sgeResetJobCategory fun _ => ⟨true, 7⟩)) := by
  have hslots : centryListLocate (weighted (-1)).centryList "slots" ≠ none :=
    Option.some_ne_none _
  obtain ⟨tracked, hresult, hlo, hhi⟩ := sgeDoUrgency_spec 0 [sequential] [sequential]
    (fun _ => ⟨true, 7⟩) hslots categoriesAgree_sequential
  intro h
  have hranking := h.ranking
  rw [hresult, sgeNormalizeUrgency_map, ← List.map_append] at hranking
  have hrange := (isRanking_ranked (by simp) hlo hhi).mp hranking
  have hpos : (0 : ℚ) < dblMin := dblMin_pos
  have hle : (dblMin : ℚ) ≤ 1 := dblMin_le_one
  rcases hrange.1 with ⟨job, hjob, hge⟩ | hall
  · obtain rfl : job = sequential := by simpa using hjob
    rw [urgency_sequential] at hge
    linarith
  · have hgt := hall sequential List.mem_cons_self
    rw [urgency_sequential, sgeEpsilon] at hgt
    norm_num at hgt
    linarith

end Instances

end GridEngine.Urgency
