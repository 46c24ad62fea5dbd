import GridEngine.RangeList

/-!
# The slot amounts of a parallel environment

A job with a slot range tries the amounts that its parallel environment can distribute. The amounts
are kept for the further jobs of its category, computed from the minimum of the job that came
first.
-/

namespace GridEngine

/-- A `PE_Type` element. -/
structure ParallelEnvironment where
  slots : ℕ
  allocationRule : String
deriving DecidableEq, Repr

section Model

/-- `strcasecmp` for equality. -/
def strcasecmp (s t : String) : Bool := s.toList.map Char.toLower = t.toList.map Char.toLower

/-- `atoi` of a string that starts with a digit. -/
def atoi (s : String) : ℕ :=
  (s.toList.takeWhile Char.isDigit).foldl (fun n c => 10 * n + (c.toNat - '0'.toNat)) 0

/-- `sge_pe_slots_per_host`. -/
def sgePeSlotsPerHost (pe : ParallelEnvironment) (slots : ℕ) : ℤ :=
  if pe.allocationRule.toList.head?.any Char.isDigit then
    let ret := atoi pe.allocationRule
    if ret = 0 then 0 else if slots % ret ≠ 0 then 0 else ret
  else if strcasecmp pe.allocationRule "$pe_slots" then slots
  else if strcasecmp pe.allocationRule "$fill_up" then -1
  else if strcasecmp pe.allocationRule "$round_robin" then -2
  else 0

/-- `range_list_get_first_id`. -/
def rangeListGetFirstId (l : List Range) : ℕ := (l.head?.map Range.min).getD 0

/-- `range_list_get_last_id`. -/
def rangeListGetLastId (l : List Range) : ℕ := (l.getLast?.map Range.max).getD 0

/-- The amounts that the loop of `add_pe_slots_to_category` takes. -/
def posiblePeSlots (pe : ParallelEnvironment) (peRange : List Range) (minSlots maxSlots : ℕ) :
    List ℕ :=
  (List.range' minSlots (maxSlots + 1 - minSlots)).filter fun slots =>
    sgePeSlotsPerHost pe slots ≠ 0 && rangeListIsIdWithin peRange slots

/-- `CCT_pe_job_slots`, a reference to an array that is not kept when it has no elements. -/
abbrev PeJobSlots := Option (List ℕ)

/-- `add_pe_slots_to_category`, with the cache of the category for the parallel environment when the
job has a category. -/
def addPeSlotsToCategory (pe : ParallelEnvironment) (peRange : List Range)
    (minSlots maxSlots : ℕ) (cache : Option PeJobSlots) : List ℕ × Option PeJobSlots :=
  match cache.join with
  | some slots => (slots, cache)
  | none =>
      let slots := posiblePeSlots pe peRange minSlots maxSlots
      (slots, cache.map fun _ => if slots = [] then none else some slots)

/-- What a run of `parallel_maximize_slots_pe` starts from. -/
structure PeRun where
  slots : ℕ
  gdil : Bool
deriving DecidableEq, Repr

/-- The slot amount that a run starts from. -/
def minSlots (peRange : List Range) (slots : ℕ) : ℕ :=
  if slots ≠ 0 then slots else rangeListGetFirstId peRange

/-- The limit of the slot amounts. -/
def maxSlots (pe : ParallelEnvironment) (peRange : List Range) : ℕ :=
  min (rangeListGetLastId peRange) pe.slots

/-- The run goes on to the slot amounts. -/
def PeRun.Starts (pe : ParallelEnvironment) (peRange : List Range) (run : PeRun) : Prop :=
  ¬ (run.gdil ∧ run.slots = pe.slots) ∧ minSlots peRange run.slots ≤ maxSlots pe peRange ∧
    0 < minSlots peRange run.slots

instance (pe : ParallelEnvironment) (peRange : List Range) :
    DecidablePred (PeRun.Starts pe peRange) :=
  fun _ => inferInstanceAs (Decidable (_ ∧ _))

/-- The start of `parallel_maximize_slots_pe` up to its slot amounts. -/
def startMaximize (pe : ParallelEnvironment) (peRange : List Range) (run : PeRun)
    (cache : Option PeJobSlots) : Option (List ℕ) × Option PeJobSlots :=
  if run.Starts pe peRange then
    let (slots, cache) := addPeSlotsToCategory pe peRange (minSlots peRange run.slots)
      (maxSlots pe peRange) cache
    (some slots, cache)
  else (none, cache)

/-- The slot amounts of each run that gets to them. -/
def maximizeRuns (pe : ParallelEnvironment) (peRange : List Range) :
    Option PeJobSlots → List PeRun → List (PeRun × List ℕ)
  | _, [] => []
  | cache, run :: runs =>
      match startMaximize pe peRange run cache with
      | (some slots, cache) => (run, slots) :: maximizeRuns pe peRange cache runs
      | (none, cache) => maximizeRuns pe peRange cache runs

end Model

section Candidates
variable {pe : ParallelEnvironment} {peRange : List Range} {m n s : ℕ}

/-- The parallel environment distributes the amount and the job asks for it. -/
def SlotsAllowed (pe : ParallelEnvironment) (peRange : List Range) (slots : ℕ) : Prop :=
  sgePeSlotsPerHost pe slots ≠ 0 ∧ rangeListIsIdWithin peRange slots

theorem mem_posiblePeSlots :
    s ∈ posiblePeSlots pe peRange m n ↔ m ≤ s ∧ s ≤ n ∧ SlotsAllowed pe peRange s := by
  simp only [posiblePeSlots, List.mem_filter, List.mem_range'_1, SlotsAllowed, Bool.and_eq_true,
    decide_eq_true_eq, ← and_assoc]
  refine and_congr_left fun _ => and_congr_left fun _ => ?_
  omega

theorem pairwise_posiblePeSlots : (posiblePeSlots pe peRange m n).Pairwise (· < ·) :=
  List.Pairwise.filter _ List.pairwise_lt_range'

end Candidates

section Exact
variable {pe : ParallelEnvironment} {peRange : List Range} {run : PeRun} {runs : List PeRun}

/-- The ascending sequence of the allowed amounts from the minimum of the run up to the maximum. -/
structure FreshSlots (pe : ParallelEnvironment) (peRange : List Range) (run : PeRun)
    (slots : List ℕ) : Prop where
  ascending : slots.Pairwise (· < ·)
  mem_iff : ∀ s, s ∈ slots ↔
    minSlots peRange run.slots ≤ s ∧ s ≤ maxSlots pe peRange ∧ SlotsAllowed pe peRange s

/-- The candidates that the run computes when none are kept. -/
def freshSlots (pe : ParallelEnvironment) (peRange : List Range) (run : PeRun) : List ℕ :=
  posiblePeSlots pe peRange (minSlots peRange run.slots) (maxSlots pe peRange)

theorem mem_freshSlots {s : ℕ} : s ∈ freshSlots pe peRange run ↔
    minSlots peRange run.slots ≤ s ∧ s ≤ maxSlots pe peRange ∧ SlotsAllowed pe peRange s :=
  mem_posiblePeSlots

theorem pairwise_freshSlots : (freshSlots pe peRange run).Pairwise (· < ·) :=
  pairwise_posiblePeSlots

theorem freshSlots_iff {slots : List ℕ} :
    FreshSlots pe peRange run slots ↔ slots = freshSlots pe peRange run := by
  constructor
  · intro h
    refine h.ascending.eq_of_mem_iff pairwise_freshSlots fun s => ?_
    rw [h.mem_iff, mem_freshSlots]
  · rintro rfl
    exact ⟨pairwise_freshSlots, fun s => mem_freshSlots⟩

/-- Each run gets the slot amounts it would compute itself. -/
def RunsFresh (pe : ParallelEnvironment) (peRange : List Range) (cache : Option PeJobSlots)
    (runs : List PeRun) : Prop :=
  ∀ p ∈ maximizeRuns pe peRange cache runs, FreshSlots pe peRange p.1 p.2

/-- When the first run finds an allowed amount, the minimum of the second one leaves out the same
allowed amounts. -/
def SameCut (pe : ParallelEnvironment) (peRange : List Range) (first second : PeRun) : Prop :=
  (∃ s, minSlots peRange first.slots ≤ s ∧ s ≤ maxSlots pe peRange ∧ SlotsAllowed pe peRange s) →
    ∀ s ≤ maxSlots pe peRange, SlotsAllowed pe peRange s →
      (minSlots peRange first.slots ≤ s ↔ minSlots peRange second.slots ≤ s)

theorem sameCut_iff {first second : PeRun} : SameCut pe peRange first second ↔
    (freshSlots pe peRange first ≠ [] →
      freshSlots pe peRange first = freshSlots pe peRange second) := by
  have hne : freshSlots pe peRange first ≠ [] ↔ ∃ s, minSlots peRange first.slots ≤ s ∧
      s ≤ maxSlots pe peRange ∧ SlotsAllowed pe peRange s := by
    simp only [ne_eq, List.eq_nil_iff_forall_not_mem, not_forall, not_not, mem_freshSlots]
  rw [SameCut, hne]
  refine imp_congr_right fun _ => ?_
  constructor
  · intro hcut
    refine pairwise_freshSlots.eq_of_mem_iff pairwise_freshSlots fun s => ?_
    rw [mem_freshSlots, mem_freshSlots]
    exact and_congr_left fun h => hcut s h.1 h.2
  · intro heq s hs hallowed
    have hmem : s ∈ freshSlots pe peRange first ↔ s ∈ freshSlots pe peRange second := by rw [heq]
    rw [mem_freshSlots, mem_freshSlots] at hmem
    exact (and_iff_left ⟨hs, hallowed⟩).symm.trans (hmem.trans (and_iff_left ⟨hs, hallowed⟩))

theorem maximizeRuns_of_starts (cache : Option PeJobSlots) (h : run.Starts pe peRange) :
    maximizeRuns pe peRange cache (run :: runs) =
      (run, (addPeSlotsToCategory pe peRange (minSlots peRange run.slots) (maxSlots pe peRange)
        cache).1) ::
        maximizeRuns pe peRange (addPeSlotsToCategory pe peRange (minSlots peRange run.slots)
          (maxSlots pe peRange) cache).2 runs := by
  rw [maximizeRuns, startMaximize, if_pos h]

theorem maximizeRuns_of_not_starts (cache : Option PeJobSlots) (h : ¬ run.Starts pe peRange) :
    maximizeRuns pe peRange cache (run :: runs) = maximizeRuns pe peRange cache runs := by
  rw [maximizeRuns, startMaximize, if_neg h]

/-- The runs that get to their slot amounts. -/
def startingRuns (pe : ParallelEnvironment) (peRange : List Range) (runs : List PeRun) :
    List PeRun :=
  runs.filter (PeRun.Starts pe peRange ·)

theorem runsFresh_kept {slots : List ℕ} : RunsFresh pe peRange (some (some slots)) runs ↔
    ∀ run ∈ startingRuns pe peRange runs, slots = freshSlots pe peRange run := by
  induction runs with
  | nil => exact iff_of_true (fun _ h => nomatch h) (fun _ h => nomatch h)
  | cons run runs ih =>
      by_cases hstarts : run.Starts pe peRange
      · rw [RunsFresh, maximizeRuns_of_starts _ hstarts, List.forall_mem_cons, startingRuns,
          List.filter_cons_of_pos (by simpa using hstarts), List.forall_mem_cons]
        exact and_congr freshSlots_iff ih
      · rw [RunsFresh, maximizeRuns_of_not_starts _ hstarts, startingRuns,
          List.filter_cons_of_neg (by simpa using hstarts)]
        exact ih

/-- The slot amounts kept in a category are those of every run exactly when no run that finds any is
followed by one whose minimum leaves out other amounts. -/
theorem addPeSlotsToCategory_fresh_iff (pe : ParallelEnvironment) (peRange : List Range)
    (runs : List PeRun) : RunsFresh pe peRange (some none) runs ↔
      (startingRuns pe peRange runs).Pairwise (SameCut pe peRange) := by
  induction runs with
  | nil => exact iff_of_true (fun _ h => nomatch h) List.Pairwise.nil
  | cons run runs ih =>
      by_cases hstarts : run.Starts pe peRange
      · have hslots : (addPeSlotsToCategory pe peRange (minSlots peRange run.slots)
            (maxSlots pe peRange) (some none)).1 = freshSlots pe peRange run := rfl
        have hcache : (addPeSlotsToCategory pe peRange (minSlots peRange run.slots)
            (maxSlots pe peRange) (some none)).2 = some (if freshSlots pe peRange run = [] then none
              else some (freshSlots pe peRange run)) := rfl
        rw [RunsFresh, maximizeRuns_of_starts _ hstarts, List.forall_mem_cons, hslots, hcache,
          startingRuns, List.filter_cons_of_pos (by simpa using hstarts), List.pairwise_cons,
          and_iff_right (freshSlots_iff.mpr rfl)]
        by_cases hempty : freshSlots pe peRange run = []
        · rw [if_pos hempty, and_iff_right]
          · exact ih
          · exact fun other _ => sameCut_iff.mpr fun hne => absurd hempty hne
        · rw [if_neg hempty]
          refine runsFresh_kept.trans ?_
          constructor
          · intro hall
            refine ⟨fun other hother => sameCut_iff.mpr fun _ => hall other hother, ?_⟩
            refine List.pairwise_iff_forall_sublist.mpr fun {a b} hab => sameCut_iff.mpr fun _ => ?_
            have hmem := hab.subset
            rw [← hall a (hmem (by simp)), ← hall b (hmem (by simp))]
          · intro hcut other hother
            exact sameCut_iff.mp (hcut.1 other hother) hempty
      · rw [RunsFresh, maximizeRuns_of_not_starts _ hstarts, startingRuns,
          List.filter_cons_of_neg (by simpa using hstarts)]
        exact ih

/-- A job that starts from the four slots of another parallel environment, before one that starts
from its range. -/
theorem fillUp_notFresh :
    ¬ RunsFresh ⟨4, "$fill_up"⟩ [⟨1, 4, 1⟩] (some none) [⟨4, false⟩, ⟨0, false⟩] := by
  intro hfresh
  have hmem : (⟨0, false⟩, [4]) ∈
      maximizeRuns ⟨4, "$fill_up"⟩ [⟨1, 4, 1⟩] (some none) [⟨4, false⟩, ⟨0, false⟩] := by
    decide +kernel
  have hslots := freshSlots_iff.mp (hfresh _ hmem)
  revert hslots
  decide +kernel

end Exact

end GridEngine
