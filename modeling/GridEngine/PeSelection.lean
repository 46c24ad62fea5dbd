import GridEngine.PeSearch

/-!
# Choosing a parallel environment

An immediate job tries every parallel environment that matches its request. The search in the next
one starts from the slot amount found so far, unless the category of the job has kept an array of
amounts for it.
-/

namespace GridEngine

/-- The slot range of a job: positive amounts that begin with the first one. -/
structure PeRange where
  ranges : List Range
  first_pos : 0 < rangeListGetFirstId ranges
  first_le : ∀ s, rangeListIsIdWithin ranges s → rangeListGetFirstId ranges ≤ s

/-- A parallel environment with the cache of the job's category for it. An array that is kept there
has been taken from the range of the job. -/
structure CategoryPe (peRange : PeRange) where
  name : String
  pe : ParallelEnvironment
  cache : Option PeJobSlots
  taken : ∀ slots, cache.join = some slots →
    ∃ m, slots = posiblePeSlots pe peRange.ranges m (maxSlots pe peRange.ranges)

/-- `find_best_result`. -/
def findBestResult (r1 r2 : DispatchT) : DispatchT :=
  if r1 = .never ∨ r2 = .never then .never
  else if r1 = .ok ∨ r2 = .ok then .ok
  else if r1 = .notAtTime ∨ r2 = .notAtTime then .notAtTime
  else if r1 = .neverJob ∨ r2 = .neverJob then .neverJob
  else if r1 = .neverCat ∨ r2 = .neverCat then .neverCat
  else .missingAttr

theorem startMaximize_taken {peRange : PeRange} (pe : CategoryPe peRange) (run : PeRun) :
    ∀ slots, (startMaximize pe.pe peRange.ranges run pe.cache).2.join = some slots →
      ∃ m, slots = posiblePeSlots pe.pe peRange.ranges m (maxSlots pe.pe peRange.ranges) := by
  intro slots hslots
  rw [startMaximize] at hslots
  split_ifs at hslots with hstarts
  · rw [addPeSlotsToCategory] at hslots
    cases hcache : pe.cache.join with
    | some kept =>
        simp only [hcache] at hslots
        exact pe.taken slots (by rw [hcache, hslots])
    | none =>
        simp only [hcache] at hslots
        cases hcategory : pe.cache with
        | none => simp [hcategory] at hslots
        | some cache =>
            simp only [hcategory, Option.map_some, Option.join_some] at hslots
            split_ifs at hslots with hempty
            exact ⟨_, (Option.some.inj hslots).symm⟩
  · exact pe.taken slots hslots

section Model
variable {peRange : PeRange} (alg : ScheddPeAlgorithm) (assign : String → AssignSlots)
  (peIsMatching : String → Bool)

/-- The search of the job in a parallel environment. -/
def CategoryPe.maximize (pe : CategoryPe peRange) (best : PeAssignment) :
    DispatchT × PeAssignment × Option PeJobSlots :=
  parallelMaximizeSlotsPe (assign pe.name) alg pe.pe peRange.ranges pe.cache best

/-- The variables of the loop over the parallel environments. -/
structure Selection where
  best : PeAssignment
  bestResult : DispatchT
  matchedPeCount : ℕ
deriving DecidableEq, Repr

/-- One round of the loop of an immediate job that is not in an advance reservation. -/
def selectRound (st : Selection) (pe : CategoryPe peRange) : Selection :=
  if peIsMatching pe.name then
    let st := { st with matchedPeCount := st.matchedPeCount + 1 }
    if st.best.gdil then
      let (result, tmp, _) := pe.maximize alg assign { st.best with gdil := false }
      if result ≠ .ok then { st with bestResult := findBestResult st.bestResult result }
      else if tmp.slots > st.best.slots ∨
          tmp.start = st.best.start ∧ tmp.softViolations < st.best.softViolations then
        { st with best := tmp }
      else st
    else
      let (result, best, _) := pe.maximize alg assign st.best
      if result ≠ .ok then
        { st with best := best, bestResult := findBestResult st.bestResult result }
      else { st with best := best }
  else st

/-- `sge_select_parallel_environment` for such a job: the result and its assignment. -/
def sgeSelectParallelEnvironment (peList : List (CategoryPe peRange)) :
    DispatchT × PeAssignment :=
  let st := peList.foldl (selectRound alg assign peIsMatching)
    ⟨⟨0, 0, false, 0⟩, .neverCat, 0⟩
  (if st.best.gdil then .ok else if st.matchedPeCount = 0 then .neverCat else st.bestResult,
    st.best)

end Model

section Offers
variable {peRange : PeRange} {alg : ScheddPeAlgorithm} {assign : AssignSlots}
  {pe : ParallelEnvironment} {cache : Option PeJobSlots} {best : PeAssignment} {s : ℕ}

/-- The array of a run of `parallel_maximize_slots_pe`, empty when it does not get to one. -/
def runSlots (pe : ParallelEnvironment) (ranges : List Range) (cache : Option PeJobSlots)
    (slots : ℕ) : List ℕ :=
  (startMaximize pe ranges ⟨slots, false⟩ cache).1.getD []

theorem parallelMaximizeSlotsPe_eq {ranges : List Range} (hgdil : best.gdil = false) :
    (runSlots pe ranges cache best.slots = [] ∧
      parallelMaximizeSlotsPe assign alg pe ranges cache best =
        (.neverCat, best, (startMaximize pe ranges ⟨best.slots, false⟩ cache).2)) ∨
    (runSlots pe ranges cache best.slots ≠ [] ∧
      parallelMaximizeSlotsPe assign alg pe ranges cache best =
        let st := searchSlots assign alg (runSlots pe ranges cache best.slots) (.start best)
        (if st.best.gdil then .ok else st.result, st.best,
          (startMaximize pe ranges ⟨best.slots, false⟩ cache).2)) := by
  rw [parallelMaximizeSlotsPe, hgdil, runSlots]
  simp only [Bool.false_eq_true, false_and, if_false]
  rcases startMaximize pe ranges ⟨best.slots, false⟩ cache with ⟨_ | _ | ⟨first, slots⟩, cache'⟩
  · exact Or.inl ⟨rfl, rfl⟩
  · exact Or.inl ⟨rfl, rfl⟩
  · exact Or.inr ⟨List.cons_ne_nil _ _, rfl⟩

theorem runSlots_sorted {peRange : PeRange} (pe : CategoryPe peRange) (slots : ℕ) :
    (runSlots pe.pe peRange.ranges pe.cache slots).Pairwise (· < ·) := by
  rw [runSlots, startMaximize]
  split_ifs
  · rw [addPeSlotsToCategory]
    cases hcache : pe.cache.join with
    | some kept =>
        obtain ⟨m, rfl⟩ := pe.taken kept hcache
        exact pairwise_posiblePeSlots
    | none => exact pairwise_posiblePeSlots
  · exact List.Pairwise.nil

theorem parallelMaximizeSlotsPe_found {ranges : List Range} (hgdil : best.gdil = false)
    (hsorted : (runSlots pe ranges cache best.slots).Pairwise (· < ·))
    (hdown : DownwardClosed assign (runSlots pe ranges cache best.slots))
    (hs : IsGreatest {s | s ∈ runSlots pe ranges cache best.slots ∧ Feasible assign s} s) :
    (parallelMaximizeSlotsPe assign alg pe ranges cache best).1 = .ok ∧
      (parallelMaximizeSlotsPe assign alg pe ranges cache best).2.1 =
        assigned assign best.start s := by
  rcases @parallelMaximizeSlotsPe_eq alg assign pe cache best ranges hgdil with
    ⟨hempty, -⟩ | ⟨hne, heq⟩
  · have hmem := hs.1.1
    rw [hempty] at hmem
    cases hmem
  · have hspec := @searchSlots_findsLargest assign _ (.start best) alg hsorted hdown hne
    rw [heq]
    dsimp only
    rw [hspec.found s hs]
    exact ⟨rfl, rfl⟩

theorem parallelMaximizeSlotsPe_none {ranges : List Range} (hgdil : best.gdil = false)
    (hsorted : (runSlots pe ranges cache best.slots).Pairwise (· < ·))
    (hdown : DownwardClosed assign (runSlots pe ranges cache best.slots))
    (hnone : ∀ s ∈ runSlots pe ranges cache best.slots, ¬ Feasible assign s) :
    (parallelMaximizeSlotsPe assign alg pe ranges cache best).1 ≠ .ok ∧
      (parallelMaximizeSlotsPe assign alg pe ranges cache best).2.1 = best := by
  rcases @parallelMaximizeSlotsPe_eq alg assign pe cache best ranges hgdil with
    ⟨-, heq⟩ | ⟨hne, heq⟩
  · rw [heq]
    exact ⟨fun h => (nomatch h), rfl⟩
  · have hspec := @searchSlots_findsLargest assign _ (.start best) alg hsorted hdown hne
    obtain ⟨hsame, hresult⟩ := hspec.none hnone
    have hbest : (SearchState.start best).best.gdil = false := hgdil
    rw [heq]
    dsimp only
    rw [hsame, hbest, if_neg Bool.false_ne_true]
    exact ⟨hresult hne, rfl⟩

end Offers

section Candidates
variable {peRange : PeRange} {pe : CategoryPe peRange} {b s : ℕ}

/-- The amounts that the parallel environment has for the job. -/
def CategoryPe.candidates (pe : CategoryPe peRange) : List ℕ :=
  runSlots pe.pe peRange.ranges pe.cache 0

theorem runSlots_of_kept {kept : List ℕ} (h : pe.cache.join = some kept) :
    s ∈ runSlots pe.pe peRange.ranges pe.cache b ↔
      PeRun.Starts pe.pe peRange.ranges ⟨b, false⟩ ∧ s ∈ kept := by
  rw [runSlots, startMaximize]
  split_ifs with hstarts
  · simp [addPeSlotsToCategory, h, hstarts]
  · simp [hstarts]

theorem runSlots_of_none (h : pe.cache.join = none) :
    s ∈ runSlots pe.pe peRange.ranges pe.cache b ↔
      PeRun.Starts pe.pe peRange.ranges ⟨b, false⟩ ∧ minSlots peRange.ranges b ≤ s ∧
        s ≤ maxSlots pe.pe peRange.ranges ∧ SlotsAllowed pe.pe peRange.ranges s := by
  rw [runSlots, startMaximize]
  split_ifs with hstarts
  · simp [addPeSlotsToCategory, h, hstarts, mem_posiblePeSlots]
  · simp [hstarts]

theorem starts_zero (hallowed : SlotsAllowed pe.pe peRange.ranges s)
    (hle : s ≤ maxSlots pe.pe peRange.ranges) : PeRun.Starts pe.pe peRange.ranges ⟨0, false⟩ := by
  refine ⟨by simp, ?_, ?_⟩
  · exact (peRange.first_le s hallowed.2).trans hle
  · exact peRange.first_pos

theorem starts_iff (hb : 0 < b) : PeRun.Starts pe.pe peRange.ranges ⟨b, false⟩ ↔
    b ≤ maxSlots pe.pe peRange.ranges := by
  simp [PeRun.Starts, minSlots, Nat.ne_of_gt hb, hb]

theorem le_maxSlots (hs : s ∈ pe.candidates) : s ≤ maxSlots pe.pe peRange.ranges := by
  rw [CategoryPe.candidates] at hs
  cases hcache : pe.cache.join with
  | some kept =>
      obtain ⟨m, rfl⟩ := pe.taken kept hcache
      exact (mem_posiblePeSlots.mp ((runSlots_of_kept hcache).mp hs).2).2.1
  | none => exact ((runSlots_of_none hcache).mp hs).2.2.1

/-- A run that starts from an amount has the same candidates when they were kept, and otherwise
those from this amount on. -/
theorem mem_runSlots (hb : 0 < b) : s ∈ runSlots pe.pe peRange.ranges pe.cache b ↔
    b ≤ maxSlots pe.pe peRange.ranges ∧ s ∈ pe.candidates ∧ (pe.cache.join = none → b ≤ s) := by
  rw [CategoryPe.candidates]
  cases hcache : pe.cache.join with
  | some kept =>
      rw [runSlots_of_kept hcache, runSlots_of_kept hcache, starts_iff hb]
      refine and_congr_right fun _ => ?_
      constructor
      · intro hs
        obtain ⟨m, rfl⟩ := pe.taken kept hcache
        obtain ⟨-, hle, hallowed⟩ := mem_posiblePeSlots.mp hs
        exact ⟨⟨starts_zero hallowed hle, hs⟩, fun h => nomatch h⟩
      · intro hs
        exact hs.1.2
  | none =>
      rw [runSlots_of_none hcache, runSlots_of_none hcache, starts_iff hb]
      refine and_congr_right fun _ => ?_
      have hmin : minSlots peRange.ranges b = b := if_pos (Nat.ne_of_gt hb)
      rw [hmin]
      constructor
      · rintro ⟨hle, hmax, hallowed⟩
        exact ⟨⟨starts_zero hallowed hmax, peRange.first_le s hallowed.2, hmax, hallowed⟩, fun _ => hle⟩
      · rintro ⟨⟨-, -, hmax, hallowed⟩, hle⟩
        exact ⟨hle rfl, hmax, hallowed⟩

end Candidates

section Rounds
variable {peRange : PeRange} {alg : ScheddPeAlgorithm} {assign : String → AssignSlots}
  {peIsMatching : String → Bool} {pe : CategoryPe peRange} {st : Selection} {s : ℕ}

/-- The largest amount of an array that can be assigned, if there is one. -/
theorem exists_greatest (array : List ℕ) (assign : AssignSlots) :
    (∀ s ∈ array, ¬ Feasible assign s) ∨
      ∃ s, IsGreatest {s | s ∈ array ∧ Feasible assign s} s := by
  by_cases hnone : ∀ s ∈ array, ¬ Feasible assign s
  · exact Or.inl hnone
  · push Not at hnone
    obtain ⟨s, hs⟩ := hnone
    have hbdd : BddAbove {s | s ∈ array ∧ Feasible assign s} :=
      ⟨array.sum, fun t ht => List.single_le_sum (fun _ _ => Nat.zero_le _) t ht.1⟩
    exact Or.inr ⟨_, Nat.sSup_mem ⟨s, hs⟩ hbdd, fun t ht => le_csSup hbdd ht⟩

/-- The job can be assigned amounts downward closed on the candidates of the environment. -/
def CategoryPe.Downward (assign : String → AssignSlots) (pe : CategoryPe peRange) : Prop :=
  DownwardClosed (assign pe.name) pe.candidates

theorem selectRound_of_not_matching (h : ¬ peIsMatching pe.name) :
    selectRound alg assign peIsMatching st pe = st := by
  rw [selectRound, if_neg h]

theorem maximize_none {best : PeAssignment} (hgdil : best.gdil = false)
    (hdown : DownwardClosed (assign pe.name)
      (runSlots pe.pe peRange.ranges pe.cache best.slots))
    (hnone : ∀ s ∈ runSlots pe.pe peRange.ranges pe.cache best.slots,
      ¬ Feasible (assign pe.name) s) :
    (pe.maximize alg assign best).1 ≠ .ok ∧ (pe.maximize alg assign best).2.1 = best :=
  parallelMaximizeSlotsPe_none hgdil (runSlots_sorted pe best.slots) hdown hnone

theorem maximize_found {best : PeAssignment} (hgdil : best.gdil = false)
    (hdown : DownwardClosed (assign pe.name)
      (runSlots pe.pe peRange.ranges pe.cache best.slots))
    (hs : IsGreatest {s | s ∈ runSlots pe.pe peRange.ranges pe.cache best.slots ∧
      Feasible (assign pe.name) s} s) :
    (pe.maximize alg assign best).1 = .ok ∧
      (pe.maximize alg assign best).2.1 = assigned (assign pe.name) best.start s :=
  parallelMaximizeSlotsPe_found hgdil (runSlots_sorted pe best.slots) hdown hs

theorem selectRound_first (hmatching : peIsMatching pe.name) (hgdil : st.best.gdil = false)
    (hslots : st.best.slots = 0) (hdown : pe.Downward assign) :
    ((∀ s ∈ pe.candidates, ¬ Feasible (assign pe.name) s) →
        (selectRound alg assign peIsMatching st pe).best = st.best) ∧
      ∀ s, IsGreatest {s | s ∈ pe.candidates ∧ Feasible (assign pe.name) s} s →
        (selectRound alg assign peIsMatching st pe).best =
          assigned (assign pe.name) st.best.start s := by
  have hrun : runSlots pe.pe peRange.ranges pe.cache st.best.slots = pe.candidates := by
    rw [hslots, CategoryPe.candidates]
  have hdown' : DownwardClosed (assign pe.name)
      (runSlots pe.pe peRange.ranges pe.cache st.best.slots) := by rwa [hrun]
  rw [selectRound, if_pos hmatching]
  simp only [hgdil, Bool.false_eq_true, if_false]
  constructor
  · intro hnone
    obtain ⟨hresult, hbest⟩ := @maximize_none _ alg assign pe st.best hgdil hdown' (by rwa [hrun])
    rw [if_pos hresult, hbest]
  · intro s hs
    obtain ⟨hresult, hbest⟩ := @maximize_found _ alg assign pe s st.best hgdil hdown' (by rwa [hrun])
    rw [if_neg (not_not.mpr hresult), hbest]

theorem selectRound_next (hmatching : peIsMatching pe.name) (hgdil : st.best.gdil = true)
    (hpos : 0 < st.best.slots) (hdown : pe.Downward assign) :
    ((∀ s ∈ runSlots pe.pe peRange.ranges pe.cache st.best.slots, ¬ Feasible (assign pe.name) s) →
        (selectRound alg assign peIsMatching st pe).best = st.best) ∧
      ∀ s, IsGreatest {s | s ∈ runSlots pe.pe peRange.ranges pe.cache st.best.slots ∧
          Feasible (assign pe.name) s} s →
        (selectRound alg assign peIsMatching st pe).best =
          if st.best.slots < s ∨ (assign pe.name s).2 < st.best.softViolations then
            assigned (assign pe.name) st.best.start s else st.best := by
  have hdown' : DownwardClosed (assign pe.name)
      (runSlots pe.pe peRange.ranges pe.cache st.best.slots) :=
    hdown.subset fun s hs => ((mem_runSlots hpos).mp hs).2.1
  rw [selectRound, if_pos hmatching]
  simp only [hgdil, if_true]
  constructor
  · intro hnone
    obtain ⟨hresult, -⟩ := @maximize_none _ alg assign pe { st.best with gdil := false } rfl hdown'
      hnone
    rw [if_pos hresult]
  · intro s hs
    obtain ⟨hresult, hbest⟩ := @maximize_found _ alg assign pe s { st.best with gdil := false } rfl
      hdown' hs
    rw [if_neg (not_not.mpr hresult), hbest]
    simp only [assigned, gt_iff_lt, true_and]
    split_ifs <;> rfl

end Rounds

section Offers
variable {peRange : PeRange} (assign : String → AssignSlots) (peIsMatching : String → Bool)

/-- The job can get the amount in the parallel environment. -/
def CategoryPe.Offers (pe : CategoryPe peRange) (s : ℕ) : Prop :=
  peIsMatching pe.name ∧ s ∈ pe.candidates ∧ Feasible (assign pe.name) s

/-- The amounts that the job can get in any of the parallel environments. -/
def offered (peList : List (CategoryPe peRange)) : Set ℕ :=
  {s | ∃ pe ∈ peList, pe.Offers assign peIsMatching s}

/-- An assignment has the largest amount that is offered, and none when nothing is offered. -/
structure LargestOf (peList : List (CategoryPe peRange)) (best : PeAssignment) : Prop where
  gdil_iff : best.gdil = true ↔ (offered assign peIsMatching peList).Nonempty
  greatest : best.gdil = true → IsGreatest (offered assign peIsMatching peList) best.slots

/-- Among those with the largest amount, the assignment has the least soft violations. -/
structure BestOf (peList : List (CategoryPe peRange)) (best : PeAssignment) : Prop extends
    LargestOf assign peIsMatching peList best where
  unset : best.gdil = false → best.slots = 0
  least : best.gdil = true → IsLeast {v | ∃ pe ∈ peList,
    pe.Offers assign peIsMatching best.slots ∧ v = (assign pe.name best.slots).2}
      best.softViolations

/-- When the kept array of a parallel environment offers less than the ones before it, one of these
offers the larger amount without more soft violations. -/
def KeepsLargest (earlier : List (CategoryPe peRange)) (pe : CategoryPe peRange) : Prop :=
  ∀ b t, pe.cache.join.isSome → b ≤ maxSlots pe.pe peRange.ranges →
    IsGreatest (offered assign peIsMatching earlier) b →
    IsGreatest {s | pe.Offers assign peIsMatching s} t → t < b →
    ∃ other ∈ earlier, other.Offers assign peIsMatching b ∧
      (assign other.name b).2 ≤ (assign pe.name t).2

variable {assign peIsMatching} {earlier : List (CategoryPe peRange)} {pe : CategoryPe peRange}
  {best : PeAssignment} {s : ℕ}

theorem mem_offered_concat : s ∈ offered assign peIsMatching (earlier ++ [pe]) ↔
    s ∈ offered assign peIsMatching earlier ∨ pe.Offers assign peIsMatching s := by
  simp [offered, or_and_right, exists_or]

theorem CategoryPe.pos_of_mem (h : s ∈ pe.candidates) : 0 < s := by
  refine peRange.first_pos.trans_le (peRange.first_le s ?_)
  rw [CategoryPe.candidates] at h
  cases hcache : pe.cache.join with
  | some kept =>
      obtain ⟨m, rfl⟩ := pe.taken kept hcache
      exact (mem_posiblePeSlots.mp ((runSlots_of_kept hcache).mp h).2).2.2.2
  | none => exact ((runSlots_of_none hcache).mp h).2.2.2.2

/-- An assignment that the next parallel environment does not improve. -/
theorem BestOf.concat_same (h : BestOf assign peIsMatching earlier best) (hgdil : best.gdil = true)
    (hpe : ∀ t, pe.Offers assign peIsMatching t → t < best.slots ∨
      t = best.slots ∧ best.softViolations ≤ (assign pe.name t).2) :
    BestOf assign peIsMatching (earlier ++ [pe]) best := by
  have hgreatest := h.greatest hgdil
  obtain ⟨⟨other, hother, hoffers, hsoft⟩, hlower⟩ := h.least hgdil
  constructor
  · constructor
    · exact iff_of_true hgdil ⟨best.slots, mem_offered_concat.mpr (Or.inl hgreatest.1)⟩
    · intro _
      refine ⟨mem_offered_concat.mpr (Or.inl hgreatest.1), fun t ht => ?_⟩
      rcases mem_offered_concat.mp ht with hearlier | hnew
      · exact hgreatest.2 hearlier
      · rcases hpe t hnew with hlt | ⟨rfl, -⟩
        · exact hlt.le
        · exact le_rfl
  · exact h.unset
  · intro _
    refine ⟨⟨other, List.mem_append_left _ hother, hoffers, hsoft⟩, ?_⟩
    rintro v ⟨other', hmem, hoffers', rfl⟩
    rcases List.mem_append.mp hmem with hearlier | hnew
    · exact hlower ⟨other', hearlier, hoffers', rfl⟩
    · obtain rfl := List.mem_singleton.mp hnew
      rcases hpe _ hoffers' with hlt | ⟨-, hle⟩
      · exact absurd hlt (lt_irrefl _)
      · exact hle

/-- The assignment in the next parallel environment when it is at least as good. -/
theorem bestOf_concat_new {start : ℕ} (hs : pe.Offers assign peIsMatching s)
    (hpe : ∀ t, pe.Offers assign peIsMatching t → t ≤ s)
    (hearlier : ∀ t ∈ offered assign peIsMatching earlier, t ≤ s)
    (hleast : ∀ other ∈ earlier, other.Offers assign peIsMatching s →
      (assign pe.name s).2 ≤ (assign other.name s).2) :
    BestOf assign peIsMatching (earlier ++ [pe]) (assigned (assign pe.name) start s) := by
  constructor
  · constructor
    · exact iff_of_true rfl ⟨s, mem_offered_concat.mpr (Or.inr hs)⟩
    · intro _
      refine ⟨mem_offered_concat.mpr (Or.inr hs), fun t ht => ?_⟩
      rcases mem_offered_concat.mp ht with hold | hnew
      · exact hearlier t hold
      · exact hpe t hnew
  · intro h
    cases h
  · intro _
    refine ⟨⟨pe, by simp, hs, rfl⟩, ?_⟩
    rintro v ⟨other, hmem, hoffers, rfl⟩
    rcases List.mem_append.mp hmem with hold | hnew
    · exact hleast other hold hoffers
    · obtain rfl := List.mem_singleton.mp hnew
      exact le_rfl

theorem BestOf.concat_none (h : BestOf assign peIsMatching earlier best)
    (hpe : ∀ t, ¬ pe.Offers assign peIsMatching t) :
    BestOf assign peIsMatching (earlier ++ [pe]) best := by
  cases hgdil : best.gdil with
  | true => exact h.concat_same hgdil fun t ht => absurd ht (hpe t)
  | false =>
      have hempty : ¬ (offered assign peIsMatching earlier).Nonempty := by
        rw [← h.gdil_iff, hgdil]
        exact Bool.false_ne_true
      constructor
      · constructor
        · rw [hgdil]
          refine iff_of_false Bool.false_ne_true ?_
          rintro ⟨t, ht⟩
          exact (mem_offered_concat.mp ht).elim (fun hold => hempty ⟨t, hold⟩) (hpe t)
        · intro htrue
          rw [hgdil] at htrue
          cases htrue
      · exact fun _ => h.unset hgdil
      · intro htrue
        rw [hgdil] at htrue
        cases htrue

variable {alg : ScheddPeAlgorithm} {st : Selection}

theorem selectRound_best_first (h : BestOf assign peIsMatching earlier st.best)
    (hmatching : peIsMatching pe.name) (hgdil : st.best.gdil = false)
    (hdown : pe.Downward assign) : BestOf assign peIsMatching (earlier ++ [pe])
      (selectRound alg assign peIsMatching st pe).best := by
  obtain ⟨hnone, hfound⟩ := @selectRound_first _ alg _ _ _ st hmatching hgdil
    (h.unset hgdil) hdown
  have hempty : ∀ t, t ∉ offered assign peIsMatching earlier := by
    intro t ht
    have htrue := h.gdil_iff.mpr ⟨t, ht⟩
    rw [hgdil] at htrue
    cases htrue
  rcases exists_greatest pe.candidates (assign pe.name) with hno | ⟨s, hs⟩
  · rw [hnone hno]
    exact h.concat_none fun t ht => hno t ht.2.1 ht.2.2
  · rw [hfound s hs]
    refine bestOf_concat_new ⟨hmatching, hs.1.1, hs.1.2⟩ (fun t ht => hs.2 ht.2)
      (fun t ht => absurd ht (hempty t)) ?_
    intro other hother hoffers
    exact absurd ⟨other, hother, hoffers⟩ (hempty s)

theorem BestOf.pos (h : BestOf assign peIsMatching earlier best) (hgdil : best.gdil = true) :
    0 < best.slots := by
  obtain ⟨⟨holder, -, hholds, -⟩, -⟩ := h.least hgdil
  exact CategoryPe.pos_of_mem hholds.2.1

theorem CategoryPe.Offers.run_or_lt {b t : ℕ} (hb : 0 < b) (ht : pe.Offers assign peIsMatching t) :
    t ∈ runSlots pe.pe peRange.ranges pe.cache b ∨ t < b := by
  by_cases hmem : t ∈ runSlots pe.pe peRange.ranges pe.cache b
  · exact Or.inl hmem
  · refine Or.inr (Nat.lt_of_not_le fun hle => hmem ((mem_runSlots hb).mpr ?_))
    exact ⟨hle.trans (le_maxSlots ht.2.1), ht.2.1, fun _ => hle⟩

theorem mem_runSlots_of_kept {b t : ℕ} (hb : 0 < b) (hcache : pe.cache.join.isSome)
    (hle : b ≤ maxSlots pe.pe peRange.ranges) (ht : pe.Offers assign peIsMatching t) :
    t ∈ runSlots pe.pe peRange.ranges pe.cache b := by
  refine (mem_runSlots hb).mpr ⟨hle, ht.2.1, fun hno => ?_⟩
  rw [hno] at hcache
  cases hcache

theorem keepsLargest_of_forall (hb : IsGreatest (offered assign peIsMatching earlier) s)
    (h : ∀ t, pe.cache.join.isSome → s ≤ maxSlots pe.pe peRange.ranges →
      IsGreatest {t | pe.Offers assign peIsMatching t} t → t < s →
      ∃ other ∈ earlier, other.Offers assign peIsMatching s ∧
        (assign other.name s).2 ≤ (assign pe.name t).2) :
    KeepsLargest assign peIsMatching earlier pe := by
  intro b t hcache hle hb' ht hlt
  obtain rfl := hb'.unique hb
  exact h t hcache hle ht hlt

theorem selectRound_best_of_le (h : BestOf assign peIsMatching earlier st.best)
    (hmatching : peIsMatching pe.name) (hgdil : st.best.gdil = true) (hdown : pe.Downward assign)
    (hs : IsGreatest {s | s ∈ runSlots pe.pe peRange.ranges pe.cache st.best.slots ∧
      Feasible (assign pe.name) s} s) (hge : st.best.slots ≤ s) :
    KeepsLargest assign peIsMatching earlier pe ∧ BestOf assign peIsMatching (earlier ++ [pe])
      (selectRound alg assign peIsMatching st pe).best := by
  have hgreatest := h.greatest hgdil
  have hlower := (h.least hgdil).2
  have hpos := h.pos hgdil
  have hoffers : pe.Offers assign peIsMatching s :=
    ⟨hmatching, ((mem_runSlots hpos).mp hs.1.1).2.1, hs.1.2⟩
  have hle : ∀ t, pe.Offers assign peIsMatching t → t ≤ s := fun t ht =>
    (ht.run_or_lt hpos).elim (fun hmem => hs.2 ⟨hmem, ht.2.2⟩) fun hlt => hlt.le.trans hge
  constructor
  · refine keepsLargest_of_forall hgreatest fun t _ _ ht hlt => ?_
    exact absurd (ht.2 hoffers) (Nat.not_le.mpr (hlt.trans_le hge))
  · rw [(@selectRound_next _ alg _ _ _ st hmatching hgdil hpos hdown).2 s hs]
    by_cases hbetter : st.best.slots < s ∨ (assign pe.name s).2 < st.best.softViolations
    · rw [if_pos hbetter]
      refine bestOf_concat_new hoffers hle (fun t ht => (hgreatest.2 ht).trans hge) ?_
      intro other hother hother'
      have heq : s = st.best.slots := (hgreatest.2 ⟨other, hother, hother'⟩).antisymm hge
      subst heq
      exact (hbetter.resolve_left (lt_irrefl _)).le.trans (hlower ⟨other, hother, hother', rfl⟩)
    · rw [if_neg hbetter]
      rw [not_or] at hbetter
      have heq : s = st.best.slots := (Nat.not_lt.mp hbetter.1).antisymm hge
      refine h.concat_same hgdil fun t ht => ?_
      rcases (hle t ht).lt_or_eq with hlt | rfl
      · exact Or.inl (hlt.trans_eq heq)
      · exact Or.inr ⟨heq, Nat.not_lt.mp hbetter.2⟩

/-- A round whose kept array gives less than the amount found so far. -/
theorem selectRound_best_of_lt (h : BestOf assign peIsMatching earlier st.best)
    (hmatching : peIsMatching pe.name) (hgdil : st.best.gdil = true) (hdown : pe.Downward assign)
    (hs : IsGreatest {s | s ∈ runSlots pe.pe peRange.ranges pe.cache st.best.slots ∧
      Feasible (assign pe.name) s} s) (hlt : s < st.best.slots) :
    (KeepsLargest assign peIsMatching earlier pe ∧ BestOf assign peIsMatching (earlier ++ [pe])
        (selectRound alg assign peIsMatching st pe).best) ∨
      (¬ KeepsLargest assign peIsMatching earlier pe ∧
        ¬ LargestOf assign peIsMatching (earlier ++ [pe])
          (selectRound alg assign peIsMatching st pe).best) := by
  have hgreatest := h.greatest hgdil
  obtain ⟨⟨holder, hholder, hholds, hsoft⟩, hlower⟩ := h.least hgdil
  have hpos := h.pos hgdil
  obtain ⟨hmax, hmem, hnone⟩ := (mem_runSlots hpos).mp hs.1.1
  have hcache : pe.cache.join.isSome := by
    by_contra hno
    exact absurd (hnone (Option.not_isSome_iff_eq_none.mp hno)) (Nat.not_le.mpr hlt)
  have htop : IsGreatest {s | pe.Offers assign peIsMatching s} s :=
    ⟨⟨hmatching, hmem, hs.1.2⟩, fun t ht =>
      hs.2 ⟨mem_runSlots_of_kept hpos hcache hmax ht, ht.2.2⟩⟩
  rw [(@selectRound_next _ alg _ _ _ st hmatching hgdil hpos hdown).2 s hs]
  by_cases hbetter : (assign pe.name s).2 < st.best.softViolations
  · rw [if_pos (Or.inr hbetter)]
    refine Or.inr ⟨fun hkeeps => ?_, fun hlargest => ?_⟩
    · obtain ⟨other, hother, hoffers, hsoft'⟩ :=
        hkeeps st.best.slots s hcache hmax hgreatest htop hlt
      exact absurd (hlower ⟨other, hother, hoffers, rfl⟩)
        (Nat.not_le.mpr (hsoft'.trans_lt hbetter))
    · exact absurd ((hlargest.greatest rfl).2 (mem_offered_concat.mpr (Or.inl hgreatest.1)))
        (Nat.not_le.mpr hlt)
  · rw [if_neg (not_or.mpr ⟨Nat.not_lt.mpr hlt.le, hbetter⟩)]
    refine Or.inl ⟨keepsLargest_of_forall hgreatest fun t _ _ ht _ => ?_,
      h.concat_same hgdil fun t ht => Or.inl ((htop.2 ht).trans_lt hlt)⟩
    obtain rfl := ht.unique htop
    exact ⟨holder, hholder, hholds, hsoft ▸ Nat.not_lt.mp hbetter⟩

/-- A round keeps the best assignment of the parallel environments tried, or its condition fails and
the largest amount is lost. -/
theorem selectRound_best (h : BestOf assign peIsMatching earlier st.best)
    (hdown : pe.Downward assign) :
    (KeepsLargest assign peIsMatching earlier pe ∧ BestOf assign peIsMatching (earlier ++ [pe])
        (selectRound alg assign peIsMatching st pe).best) ∨
      (¬ KeepsLargest assign peIsMatching earlier pe ∧
        ¬ LargestOf assign peIsMatching (earlier ++ [pe])
          (selectRound alg assign peIsMatching st pe).best) := by
  by_cases hmatching : peIsMatching pe.name
  · cases hgdil : st.best.gdil with
    | false =>
        refine Or.inl ⟨fun b t _ _ hb _ _ => ?_, selectRound_best_first h hmatching hgdil hdown⟩
        have htrue := h.gdil_iff.mpr ⟨b, hb.1⟩
        rw [hgdil] at htrue
        cases htrue
    | true =>
        have hpos := h.pos hgdil
        rcases exists_greatest (runSlots pe.pe peRange.ranges pe.cache st.best.slots)
          (assign pe.name) with hno | ⟨s, hs⟩
        · refine Or.inl ⟨keepsLargest_of_forall (h.greatest hgdil) fun t hcache hmax ht _ => ?_, ?_⟩
          · exact absurd ht.1.2.2 (hno t (mem_runSlots_of_kept hpos hcache hmax ht.1))
          · rw [(@selectRound_next _ alg _ _ _ st hmatching hgdil hpos hdown).1 hno]
            exact h.concat_same hgdil fun t ht =>
              Or.inl ((ht.run_or_lt hpos).resolve_left fun hmem => hno t hmem ht.2.2)
        · by_cases hge : st.best.slots ≤ s
          · exact Or.inl (selectRound_best_of_le h hmatching hgdil hdown hs hge)
          · exact selectRound_best_of_lt h hmatching hgdil hdown hs (Nat.not_le.mp hge)
  · have hno : ∀ t, ¬ pe.Offers assign peIsMatching t := fun t ht => hmatching ht.1
    rw [selectRound_of_not_matching hmatching]
    exact Or.inl ⟨fun b t _ _ _ ht _ => absurd ht.1 (hno t), h.concat_none hno⟩

end Offers

section Runs
variable {peRange : PeRange} (alg : ScheddPeAlgorithm) (assign : String → AssignSlots)
  (peIsMatching : String → Bool)

/-- The variables after the rounds of a list. -/
def selectRounds (peList : List (CategoryPe peRange)) : Selection :=
  peList.foldl (selectRound alg assign peIsMatching) ⟨⟨0, 0, false, 0⟩, .neverCat, 0⟩

/-- The search in a parallel environment returns the largest amount of its array that can be
assigned, and fails when there is none. -/
structure MaximizesSlots (pe : CategoryPe peRange) (best : PeAssignment) : Prop where
  ok_iff : (pe.maximize alg assign best).1 = .ok ↔
    ∃ s ∈ runSlots pe.pe peRange.ranges pe.cache best.slots, Feasible (assign pe.name) s
  greatest : (pe.maximize alg assign best).1 = .ok →
    IsGreatest {s | s ∈ runSlots pe.pe peRange.ranges pe.cache best.slots ∧
      Feasible (assign pe.name) s} (pe.maximize alg assign best).2.1.slots

/-- The selection ends with the largest amount that is offered, and fails when there is none. -/
structure SelectsLargest (peList : List (CategoryPe peRange)) : Prop where
  ok_iff : (sgeSelectParallelEnvironment alg assign peIsMatching peList).1 = .ok ↔
    (offered assign peIsMatching peList).Nonempty
  greatest : (sgeSelectParallelEnvironment alg assign peIsMatching peList).1 = .ok →
    IsGreatest (offered assign peIsMatching peList)
      (sgeSelectParallelEnvironment alg assign peIsMatching peList).2.slots

/-- The searches and the selection, after each of the parallel environments, are right. -/
structure FindsLargestSlots (peList : List (CategoryPe peRange)) : Prop where
  maximizes : ∀ pe ∈ peList, ∀ best : PeAssignment, best.gdil = false →
    MaximizesSlots alg assign pe best
  selects : ∀ earlier, earlier <+: peList → SelectsLargest alg assign peIsMatching earlier

variable {alg assign peIsMatching} {peList : List (CategoryPe peRange)} {pe : CategoryPe peRange}

theorem maximizesSlots (hdown : pe.Downward assign) {best : PeAssignment}
    (hgdil : best.gdil = false) : MaximizesSlots alg assign pe best := by
  have hdown' : DownwardClosed (assign pe.name)
      (runSlots pe.pe peRange.ranges pe.cache best.slots) := by
    rcases Nat.eq_zero_or_pos best.slots with hzero | hpos
    · rw [hzero]
      exact hdown
    · exact hdown.subset fun s hs => ((mem_runSlots hpos).mp hs).2.1
  rcases exists_greatest (runSlots pe.pe peRange.ranges pe.cache best.slots) (assign pe.name) with
    hno | ⟨s, hs⟩
  · obtain ⟨hresult, -⟩ := @maximize_none _ alg assign pe best hgdil hdown' hno
    constructor
    · refine iff_of_false hresult ?_
      rintro ⟨s, hmem, hfeasible⟩
      exact hno s hmem hfeasible
    · exact fun h => absurd h hresult
  · obtain ⟨hresult, hbest⟩ := @maximize_found _ alg assign pe s best hgdil hdown' hs
    constructor
    · exact iff_of_true hresult ⟨s, hs.1⟩
    · intro _
      rw [hbest]
      exact hs

theorem findBestResult_ne_ok {r1 r2 : DispatchT} (h1 : r1 ≠ .ok) (h2 : r2 ≠ .ok) :
    findBestResult r1 r2 ≠ .ok := by
  rw [findBestResult]
  split_ifs with _ hok <;> simp_all

theorem selectRound_bestResult {st : Selection} (h : st.bestResult ≠ .ok) :
    (selectRound alg assign peIsMatching st pe).bestResult ≠ .ok := by
  rw [selectRound]
  by_cases hmatching : peIsMatching pe.name
  · rw [if_pos hmatching]
    dsimp only
    split_ifs with hgdil hresult hbetter hresult
    · exact findBestResult_ne_ok h hresult
    · exact h
    · exact h
    · exact findBestResult_ne_ok h hresult
    · exact h
  · rwa [if_neg hmatching]

theorem selectRounds_concat : selectRounds alg assign peIsMatching (peList ++ [pe]) =
    selectRound alg assign peIsMatching (selectRounds alg assign peIsMatching peList) pe := by
  rw [selectRounds, List.foldl_append]
  rfl

theorem selectRounds_bestResult : (selectRounds alg assign peIsMatching peList).bestResult ≠ .ok := by
  induction peList using List.reverseRecOn with
  | nil => exact fun h => nomatch h
  | append_singleton peList pe ih =>
      rw [selectRounds_concat]
      exact selectRound_bestResult ih

theorem sgeSelectParallelEnvironment_ok_iff :
    (sgeSelectParallelEnvironment alg assign peIsMatching peList).1 = .ok ↔
      (selectRounds alg assign peIsMatching peList).best.gdil = true := by
  have hresult := @selectRounds_bestResult _ alg assign peIsMatching peList
  rw [sgeSelectParallelEnvironment, ← selectRounds]
  dsimp only
  split_ifs with hgdil hcount
  · exact iff_of_true rfl hgdil
  · exact iff_of_false (fun h => nomatch h) hgdil
  · exact iff_of_false hresult hgdil

theorem selectsLargest_iff : SelectsLargest alg assign peIsMatching peList ↔
    LargestOf assign peIsMatching peList (selectRounds alg assign peIsMatching peList).best := by
  constructor
  · rintro ⟨hok, hgreatest⟩
    rw [sgeSelectParallelEnvironment_ok_iff] at hok hgreatest
    exact ⟨hok, hgreatest⟩
  · rintro ⟨hok, hgreatest⟩
    rw [← sgeSelectParallelEnvironment_ok_iff] at hok hgreatest
    exact ⟨hok, hgreatest⟩

theorem selectRounds_best (hdown : ∀ pe ∈ peList, pe.Downward assign) :
    ((∀ earlier, earlier <+: peList → SelectsLargest alg assign peIsMatching earlier) ∧
        (∀ earlier pe, earlier ++ [pe] <+: peList → KeepsLargest assign peIsMatching earlier pe) ∧
        BestOf assign peIsMatching peList (selectRounds alg assign peIsMatching peList).best) ∨
      ((¬ ∀ earlier, earlier <+: peList → SelectsLargest alg assign peIsMatching earlier) ∧
        ¬ ∀ earlier pe, earlier ++ [pe] <+: peList →
          KeepsLargest assign peIsMatching earlier pe) := by
  induction peList using List.reverseRecOn with
  | nil =>
      have hbest : BestOf assign peIsMatching ([] : List (CategoryPe peRange))
          (selectRounds alg assign peIsMatching ([] : List (CategoryPe peRange))).best := by
        constructor
        · constructor
          · refine iff_of_false Bool.false_ne_true ?_
            rintro ⟨s, pe, hpe, -⟩
            cases hpe
          · exact fun h => nomatch h
        · exact fun _ => rfl
        · exact fun h => nomatch h
      refine Or.inl ⟨fun earlier hpre => ?_, fun earlier pe hpre => ?_, hbest⟩
      · obtain rfl := List.prefix_nil.mp hpre
        exact selectsLargest_iff.mpr hbest.toLargestOf
      · exact absurd (List.prefix_nil.mp hpre) (by simp)
  | append_singleton peList pe ih =>
      have hdown' : ∀ pe ∈ peList, pe.Downward assign := fun pe hpe =>
        hdown pe (List.mem_append_left _ hpe)
      rcases ih hdown' with ⟨hselects, hkeeps, hbest⟩ | ⟨hselects, hkeeps⟩
      · rcases @selectRound_best _ assign peIsMatching peList pe alg _ hbest (hdown pe (by simp)) with
          ⟨hkeep, hnext⟩ | ⟨hkeep, hnext⟩
        · rw [← selectRounds_concat] at hnext
          refine Or.inl ⟨fun earlier hpre => ?_, fun earlier pe' hpre => ?_, hnext⟩
          · rcases List.prefix_concat_iff.mp hpre with rfl | hpre
            · exact selectsLargest_iff.mpr hnext.toLargestOf
            · exact hselects earlier hpre
          · rcases List.prefix_concat_iff.mp hpre with heq | hpre
            · obtain ⟨rfl, hlast⟩ := List.append_inj' heq rfl
              obtain rfl := (List.cons.inj hlast).1
              exact hkeep
            · exact hkeeps earlier pe' hpre
        · rw [← selectRounds_concat] at hnext
          refine Or.inr ⟨fun hall => hnext ?_, fun hall => hkeep (hall peList pe (List.prefix_refl _))⟩
          exact selectsLargest_iff.mp (hall _ (List.prefix_refl _))
      · refine Or.inr ⟨fun hall => hselects fun earlier hpre => ?_,
          fun hall => hkeeps fun earlier pe' hpre => ?_⟩
        · exact hall earlier (hpre.trans (List.prefix_append _ _))
        · exact hall earlier pe' (hpre.trans (List.prefix_append _ _))

/-- The largest amount is found in every parallel environment by each of the three orders, and it is
the one of the selection exactly when no kept array that offers less than the environments before
it does so with fewer soft violations than all of those that offer the most. -/
theorem sgeSelectParallelEnvironment_largest_iff (peRange : PeRange) (alg : ScheddPeAlgorithm)
    (assign : String → AssignSlots) (peIsMatching : String → Bool)
    (peList : List (CategoryPe peRange)) (hdown : ∀ pe ∈ peList, pe.Downward assign) :
    FindsLargestSlots alg assign peIsMatching peList ↔
      ∀ earlier pe, earlier ++ [pe] <+: peList → KeepsLargest assign peIsMatching earlier pe := by
  have hmaximizes : ∀ pe ∈ peList, ∀ best : PeAssignment, best.gdil = false →
      MaximizesSlots alg assign pe best := fun pe hpe best hgdil =>
    maximizesSlots (hdown pe hpe) hgdil
  rcases @selectRounds_best _ alg assign peIsMatching peList hdown with
    ⟨hselects, hkeeps, -⟩ | ⟨hselects, hkeeps⟩
  · exact iff_of_true ⟨hmaximizes, hselects⟩ hkeeps
  · exact iff_of_false (fun h => hselects h.selects) hkeeps

/-- One to four slots. -/
def fourSlots : PeRange where
  ranges := [⟨1, 4, 1⟩]
  first_pos := by decide
  first_le s h := by
    simp only [rangeListIsIdWithin, rangeIsIdWithin, List.any_cons, List.any_nil, Bool.or_false,
      Bool.and_eq_true, decide_eq_true_eq] at h
    exact h.1.1

/-- A parallel environment without an array in the category. -/
def newPe (name : String) : CategoryPe fourSlots where
  name := name
  pe := ⟨4, "$fill_up"⟩
  cache := some none
  taken _ h := nomatch h

/-- The parallel environment after a search of another job of the category. -/
def CategoryPe.afterRun {peRange : PeRange} (pe : CategoryPe peRange) (run : PeRun) :
    CategoryPe peRange where
  name := pe.name
  pe := pe.pe
  cache := (startMaximize pe.pe peRange.ranges run pe.cache).2
  taken := startMaximize_taken pe run

/-- All amounts can be assigned in `a`, with a soft violation, and two slots without one in `b`. -/
def assignTwo (name : String) (slots : ℕ) : DispatchT × ℕ :=
  if name = "a" then (.ok, 1) else if slots ≤ 2 then (.ok, 0) else (.notAtTime, 0)

theorem assignTwo_downward (pe : CategoryPe fourSlots) : pe.Downward assignTwo := by
  intro s _ t _ hst ht
  rw [Feasible, assignTwo] at ht ⊢
  by_cases hname : pe.name = "a"
  · rw [if_pos hname]
  · rw [if_neg hname] at ht ⊢
    by_cases hle : t ≤ 2
    · rw [if_pos (hst.trans hle)]
    · rw [if_neg hle] at ht
      cases ht

theorem assignTwo_largest :
    FindsLargestSlots .binary assignTwo (fun _ => true) [newPe "a", newPe "b"] := by
  refine (sgeSelectParallelEnvironment_largest_iff fourSlots .binary assignTwo (fun _ => true) _
    fun pe _ => assignTwo_downward pe).mpr ?_
  intro earlier pe hpre b t hcache
  have hmem : pe ∈ [newPe "a", newPe "b"] := hpre.subset (by simp)
  rcases List.mem_cons.mp hmem with rfl | hmem
  · cases hcache
  · obtain rfl := List.mem_singleton.mp hmem
    cases hcache

/-- An earlier job of the category has searched in `b` from its first slot on. The two slots that the
kept array of `b` gives replace the four slots of `a`. -/
theorem assignTwo_notLargest :
    ¬ FindsLargestSlots .lowFirst assignTwo (fun _ => true)
      [newPe "a", (newPe "b").afterRun ⟨0, false⟩] := by
  intro hfinds
  have hselects := hfinds.selects _ (List.prefix_refl _)
  have hle := (hselects.greatest (by decide +kernel)).2
    (show 4 ∈ offered assignTwo (fun _ => true) _ from
      ⟨newPe "a", by simp, rfl, by decide +kernel, rfl⟩)
  revert hle
  decide +kernel

end Runs

end GridEngine
