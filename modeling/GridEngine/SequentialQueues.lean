import GridEngine.Words

/-!
# Searching the queue of a sequential job

The queues are visited in the order of their list. Quota, host and queue each have an earliest start
time and the soft violations that are known at that point, and the search leaves a queue as soon as
one of them is not better than the last queue it took.
-/

namespace GridEngine

/-- The job, the queues and what the checks of the job find for each of them. A reservation starts at
`DISPATCH_TIME_QUEUE_END`, any other job at `DISPATCH_TIME_NOW`. `rqsOk`, `hostOk` and `queueOk` are
the results of `rqs_by_slots`, `sequential_host_time` and `sequential_queue_time`, `staticOk` stands
for all static checks. Of the quotas only the result and the time for the queue count, not what
`rqs_by_slots` rules out for later queues, which it would deny or delay just as well. The violations
of a host include the global ones, those of a queue all. -/
structure QueueChecks (Q H : Type*) where
  isReservation : Bool
  isSoft : Bool
  queueList : List Q
  nodup : queueList.Nodup
  host : Q → H
  globalOk : Bool
  ttGlobal : ℕ
  rqsOk : Q → Bool
  ttRqs : Q → ℕ
  staticOk : Q → Bool
  hostOk : H → Bool
  ttHost : H → ℕ
  hostViolations : H → ℕ
  queueOk : Q → Bool
  ttQueue : Q → ℕ
  queueViolations : Q → ℕ
  hostViolations_le : ∀ q, hostViolations (host q) ≤ queueViolations q

/-- The fields of the queues that the search writes. They keep their values from one search to the
next. -/
structure QueueTags (Q : Type*) where
  tag : Q → ℕ
  availableAt : Q → ℕ
  softViolation : Q → ℕ

/-- The variables of the loop over the queues. `found` tells whether `best_queue_result` is
`DISPATCH_OK`. -/
structure QueueSearch (Q H : Type*) where
  tags : QueueTags Q
  skipHostList : List H
  found : Bool
  gotSolution : Bool
  ttBest : ℕ
  violationsBest : ℕ
  bestQep : Option Q
  bestQepViolations : ℕ
  bestQepTt : ℕ

/-- `is_not_better`. -/
def isNotBetter (isReservation : Bool) (violaBest ttBest violaThis ttThis : ℕ) : Bool :=
  if isReservation && decide (ttThis ≥ ttBest) then true
  else !isReservation && decide (violaThis ≥ violaBest)

section Model
variable {Q H : Type*} [DecidableEq Q] [DecidableEq H] (a : QueueChecks Q H)

def QueueSearch.setTag (st : QueueSearch Q H) (q : Q) (tag : ℕ) : QueueSearch Q H :=
  { st with tags := { st.tags with tag := Function.update st.tags.tag q tag } }

def QueueSearch.setAvailableAt (st : QueueSearch Q H) (q : Q) (tt : ℕ) : QueueSearch Q H :=
  { st with tags := { st.tags with availableAt := Function.update st.tags.availableAt q tt } }

def QueueSearch.setSoftViolation (st : QueueSearch Q H) (q : Q) (n : ℕ) : QueueSearch Q H :=
  { st with tags := { st.tags with softViolation := Function.update st.tags.softViolation q n } }

def QueueSearch.skipHost (st : QueueSearch Q H) (h : H) : QueueSearch Q H :=
  { st with skipHostList := h :: st.skipHostList }

/-- Takes the tag off `best_qep`. -/
def QueueSearch.untagBest (st : QueueSearch Q H) : QueueSearch Q H :=
  match st.bestQep with
  | none => st
  | some best => st.setTag best 0

/-- The search tree is cut where the values are not better than those of the last solution. -/
def QueueSearch.cut (st : QueueSearch Q H) (violaThis ttThis : ℕ) : Bool :=
  st.gotSolution && isNotBetter a.isReservation st.violationsBest st.ttBest violaThis ttThis

/-- The earliest start in a queue without the global time. -/
def QueueChecks.ttLocal (q : Q) : ℕ :=
  max (max (a.ttQueue q) (a.ttHost (a.host q))) (a.ttRqs q)

/-- The earliest start in a queue. -/
def QueueChecks.tt (q : Q) : ℕ :=
  max (a.ttQueue q) (max (a.ttHost (a.host q)) (max (a.ttRqs q) a.ttGlobal))

/-- Whether a queue that was found ends the search. -/
def QueueChecks.endsSearch (q : Q) (thisViolations : ℕ) : Bool :=
  if !a.isReservation then !a.isSoft || thisViolations == 0
  else decide (a.ttGlobal ≥ a.ttLocal q) && !a.isSoft

/-- Whether a queue is to be tagged in the place of `best_qep`. -/
def QueueSearch.isBetter (st : QueueSearch Q H) (thisTt thisViolations : ℕ) : Bool :=
  if !a.isReservation then decide (thisViolations < st.bestQepViolations)
  else decide (thisTt < st.bestQepTt ∨
    thisTt = st.bestQepTt ∧ thisViolations < st.bestQepViolations)

/-- Notes a tagged queue of a job with soft requests, of which one queue keeps its tag. -/
def QueueSearch.keepBest (st : QueueSearch Q H) (q : Q) (thisTt thisViolations : ℕ) :
    QueueSearch Q H :=
  if st.isBetter a thisTt thisViolations then
    { st.untagBest with
      bestQep := some q
      bestQepTt := if a.isReservation then thisTt else st.bestQepTt
      bestQepViolations := thisViolations }
  else st.setTag q 0

/-- Tags a queue that passed all checks, for a reservation with the time when it is available. -/
def QueueSearch.tagQueue (st : QueueSearch Q H) (q : Q) : QueueSearch Q H :=
  let st := st.setTag q 1
  let st := if a.isReservation then st.setAvailableAt q (a.tt q) else st
  { st with found := true }

/-- The part of the loop for a queue that passed all checks. -/
def QueueSearch.accept (st : QueueSearch Q H) (q : Q) : QueueSearch Q H × Bool :=
  let thisTt := if a.isReservation then a.tt q else 0
  let thisViolations := if a.isSoft then st.tags.softViolation q else 0
  let st := st.tagQueue a q
  if a.endsSearch q thisViolations then (st.untagBest, true)
  else
    let st := if a.isSoft then st.keepBest a q thisTt thisViolations else st
    ({ st with gotSolution := true, violationsBest := thisViolations, ttBest := thisTt }, false)

/-- One round of the loop over the queues and whether it leaves the loop. -/
def QueueSearch.visit (st : QueueSearch Q H) (q : Q) : QueueSearch Q H × Bool :=
  let st := st.setTag q 0
  if st.skipHostList.contains (a.host q) then (st, false)
  else if !a.rqsOk q then (st, false)
  else if st.cut a 0 (a.ttRqs q) then (st, false)
  else if !a.staticOk q then (st, false)
  else if !a.hostOk (a.host q) then (st.skipHost (a.host q), false)
  else if st.cut a (a.hostViolations (a.host q)) (a.ttHost (a.host q)) then
    (st.skipHost (a.host q), false)
  else if !a.queueOk q then (st, false)
  else
    let st := st.setSoftViolation q (a.queueViolations q)
    if st.cut a (a.queueViolations q) (a.ttQueue q) then (st, false)
    else st.accept a q

/-- The loop over the queues. -/
def QueueSearch.visitAll (st : QueueSearch Q H) : List Q → QueueSearch Q H
  | [] => st
  | q :: qs =>
      match st.visit a q with
      | (st, true) => st
      | (st, false) => st.visitAll qs

def QueueSearch.start (tags : QueueTags Q) : QueueSearch Q H where
  tags := tags
  skipHostList := []
  found := false
  gotSolution := false
  ttBest := uLong32Max
  violationsBest := uLong32Max
  bestQep := none
  bestQepViolations := uLong32Max
  bestQepTt := uLong32Max

/-- `sequential_tag_queues_suitable4job` for a job that is not in an advance reservation. Tells
whether its result is `DISPATCH_OK`. -/
def sequentialTagQueuesSuitable4job (tags : QueueTags Q) : Bool × QueueTags Q :=
  if !a.globalOk then (false, tags)
  else
    let st := (QueueSearch.start tags : QueueSearch Q H).visitAll a a.queueList
    (st.found, st.tags)

/-- `best_queue`, `job_start_time` and `min_soft_violations`. -/
structure QueueChoice (Q : Type*) where
  bestQueue : Option Q
  jobStartTime : ℕ
  minSoftViolations : ℕ

/-- One round of the loop over the tagged queues of a reservation. -/
def QueueChoice.pick (tags : QueueTags Q) (c : QueueChoice Q) (q : Q) : QueueChoice Q :=
  if tags.tag q ≠ 0 ∧ (c.jobStartTime > tags.availableAt q ∨
      a.isSoft ∧ c.minSoftViolations > tags.softViolation q ∧
        c.jobStartTime = tags.availableAt q) then
    ⟨some q, tags.availableAt q, tags.softViolation q⟩
  else c

/-- `sge_sequential_assignment`: the granted queue and the start of the job. -/
def sgeSequentialAssignment (tags : QueueTags Q) : Option (Q × ℕ) :=
  match sequentialTagQueuesSuitable4job a tags with
  | (false, _) => none
  | (true, tags) =>
      if a.isReservation then
        let c := a.queueList.foldl (QueueChoice.pick a tags) ⟨none, uLong32Max, uLong32Max⟩
        c.bestQueue.map fun q => (q, c.jobStartTime)
      else (a.queueList.find? fun q => tags.tag q ≠ 0).map fun q => (q, 0)

end Model

end GridEngine

/-!
## The cuts of the search

The cuts at quota, host and queue level and the list of skipped hosts come to one test: a queue is
left out when its values without the global time are not better than the last solution.
-/

namespace GridEngine

section Cuts
variable {Q H : Type*} {a : QueueChecks Q H} {st st' : QueueSearch Q H} {q q' : Q}

/-- The queues that pass all checks. -/
structure QueueChecks.Matches (a : QueueChecks Q H) (q : Q) : Prop where
  globalOk : a.globalOk
  rqsOk : a.rqsOk q
  staticOk : a.staticOk q
  hostOk : a.hostOk (a.host q)
  queueOk : a.queueOk q

/-- What the search minimises: the start of a reservation, the violations of an immediate job. -/
def QueueChecks.cost (a : QueueChecks Q H) (q : Q) : ℕ :=
  if a.isReservation then a.tt q else a.queueViolations q

/-- What the cuts compare: the global time is not in it. -/
def QueueChecks.localCost (a : QueueChecks Q H) (q : Q) : ℕ :=
  if a.isReservation then a.ttLocal q else a.queueViolations q

/-- The cost of the last solution. -/
def QueueSearch.bestCost (a : QueueChecks Q H) (st : QueueSearch Q H) : ℕ :=
  if a.isReservation then st.ttBest else st.violationsBest

theorem QueueChecks.tt_eq : a.tt q = max (a.ttLocal q) a.ttGlobal := by
  simp only [QueueChecks.tt, QueueChecks.ttLocal, max_assoc]

theorem QueueChecks.localCost_le : a.localCost q ≤ a.cost q := by
  rw [QueueChecks.localCost, QueueChecks.cost]
  split_ifs
  · rw [QueueChecks.tt_eq]
    exact le_max_left _ _
  · exact le_rfl

/-- A queue whose cost is less without the global time does not cost more. -/
theorem QueueChecks.cost_le (hlt : a.localCost q < a.cost q') : a.cost q ≤ a.cost q' := by
  rw [QueueChecks.localCost, QueueChecks.cost] at hlt
  rw [QueueChecks.cost, QueueChecks.cost]
  split_ifs at hlt ⊢
  · rw [QueueChecks.tt_eq]
    refine max_le (le_of_lt hlt) ?_
    rw [QueueChecks.tt_eq]
    exact le_max_right _ _
  · exact le_of_lt hlt

theorem isNotBetter_iff {r : Bool} {vb tb v t : ℕ} :
    isNotBetter r vb tb v t = true ↔ if r then tb ≤ t else vb ≤ v := by
  cases r <;> simp [isNotBetter]

theorem QueueSearch.cut_iff {v t : ℕ} :
    st.cut a v t = true ↔
      st.gotSolution ∧ st.bestCost a ≤ if a.isReservation then t else v := by
  rw [QueueSearch.cut, Bool.and_eq_true, isNotBetter_iff, QueueSearch.bestCost]
  split_ifs <;> rfl

/-- The queues that cannot be taken any more. -/
def QueueSearch.Dominated (a : QueueChecks Q H) (st : QueueSearch Q H) (q : Q) : Prop :=
  st.gotSolution ∧ st.bestCost a ≤ a.localCost q

/-- A skipped host has failed, or none of its queues can be taken any more. -/
def QueueSearch.SkipsRightly (a : QueueChecks Q H) (st : QueueSearch Q H) : Prop :=
  ∀ q, a.host q ∈ st.skipHostList → ¬ a.Matches q ∨ st.Dominated a q

theorem QueueSearch.cut_rqs (hcut : st.cut a 0 (a.ttRqs q)) : st.Dominated a q := by
  obtain ⟨hgot, hle⟩ := QueueSearch.cut_iff.mp hcut
  refine ⟨hgot, le_trans hle ?_⟩
  rw [QueueChecks.localCost]
  split_ifs
  · exact le_max_right _ _
  · exact Nat.zero_le _

theorem QueueSearch.cut_host
    (hcut : st.cut a (a.hostViolations (a.host q)) (a.ttHost (a.host q))) : st.Dominated a q := by
  obtain ⟨hgot, hle⟩ := QueueSearch.cut_iff.mp hcut
  refine ⟨hgot, le_trans hle ?_⟩
  rw [QueueChecks.localCost]
  split_ifs
  · exact le_trans (le_max_right _ _) (le_max_left _ _)
  · exact a.hostViolations_le q

theorem QueueSearch.cut_queue (hcut : st.cut a (a.queueViolations q) (a.ttQueue q)) :
    st.Dominated a q := by
  obtain ⟨hgot, hle⟩ := QueueSearch.cut_iff.mp hcut
  refine ⟨hgot, le_trans hle ?_⟩
  rw [QueueChecks.localCost]
  split_ifs
  · exact le_trans (le_max_left _ _) (le_max_left _ _)
  · exact le_rfl

theorem QueueSearch.not_dominated (hrqs : ¬ st.cut a 0 (a.ttRqs q))
    (hhost : ¬ st.cut a (a.hostViolations (a.host q)) (a.ttHost (a.host q)))
    (hqueue : ¬ st.cut a (a.queueViolations q) (a.ttQueue q)) : ¬ st.Dominated a q := by
  intro hdom
  obtain ⟨hgot, hle⟩ := hdom
  rw [QueueSearch.cut_iff, not_and] at hrqs hhost hqueue
  have hrqs := hrqs hgot
  have hhost := hhost hgot
  have hqueue := hqueue hgot
  rw [QueueChecks.localCost] at hle
  split_ifs at hle hrqs hhost hqueue
  · rw [QueueChecks.ttLocal, le_max_iff, le_max_iff] at hle
    tauto
  · exact hqueue hle

variable [DecidableEq Q]

/-- A queue that a round has looked at: its tag is off and the last solution is the same. -/
structure QueueSearch.Passed (a : QueueChecks Q H) (q : Q) (st st' : QueueSearch Q H) : Prop where
  tag : st'.tags.tag = Function.update st.tags.tag q 0
  availableAt : st'.tags.availableAt = st.tags.availableAt
  softViolation : ∀ q' ≠ q, st'.tags.softViolation q' = st.tags.softViolation q'
  found : st'.found = st.found
  gotSolution : st'.gotSolution = st.gotSolution
  ttBest : st'.ttBest = st.ttBest
  violationsBest : st'.violationsBest = st.violationsBest
  bestQep : st'.bestQep = st.bestQep
  bestQepTt : st'.bestQepTt = st.bestQepTt
  bestQepViolations : st'.bestQepViolations = st.bestQepViolations
  skips : st'.SkipsRightly a

theorem QueueSearch.Passed.bestCost (h : QueueSearch.Passed a q st st') :
    st'.bestCost a = st.bestCost a := by
  rw [QueueSearch.bestCost, QueueSearch.bestCost, h.ttBest, h.violationsBest]

theorem QueueSearch.Passed.dominated (h : QueueSearch.Passed a q st st') :
    st'.Dominated a q' ↔ st.Dominated a q' := by
  rw [QueueSearch.Dominated, QueueSearch.Dominated, h.gotSolution, h.bestCost]

theorem QueueSearch.passed_setTag (hskips : st.SkipsRightly a) :
    QueueSearch.Passed a q st (st.setTag q 0) :=
  ⟨rfl, rfl, fun _ _ => rfl, rfl, rfl, rfl, rfl, rfl, rfl, rfl, hskips⟩

theorem QueueSearch.Passed.skipHost (h : QueueSearch.Passed a q st st')
    (hhost : ∀ q', a.host q' = a.host q → ¬ a.Matches q' ∨ st'.Dominated a q') :
    QueueSearch.Passed a q st (st'.skipHost (a.host q)) where
  tag := h.tag
  availableAt := h.availableAt
  softViolation := h.softViolation
  found := h.found
  gotSolution := h.gotSolution
  ttBest := h.ttBest
  violationsBest := h.violationsBest
  bestQep := h.bestQep
  bestQepTt := h.bestQepTt
  bestQepViolations := h.bestQepViolations
  skips := by
    intro q' hq'
    rcases List.mem_cons.mp hq' with hq' | hq'
    · exact hhost q' hq'
    · exact h.skips q' hq'

theorem QueueSearch.Passed.setSoftViolation (h : QueueSearch.Passed a q st st') (n : ℕ) :
    QueueSearch.Passed a q st (st'.setSoftViolation q n) where
  tag := h.tag
  availableAt := h.availableAt
  softViolation := fun q' hne => by
    have hkeep : (st'.setSoftViolation q n).tags.softViolation q' = st'.tags.softViolation q' :=
      Function.update_of_ne hne _ _
    rw [hkeep]
    exact h.softViolation q' hne
  found := h.found
  gotSolution := h.gotSolution
  ttBest := h.ttBest
  violationsBest := h.violationsBest
  bestQep := h.bestQep
  bestQepTt := h.bestQepTt
  bestQepViolations := h.bestQepViolations
  skips := h.skips

variable [DecidableEq H]

theorem QueueSearch.visit_cases (hglobal : a.globalOk) (hskips : st.SkipsRightly a) :
    ∃ st', QueueSearch.Passed a q st st' ∧
      ((¬ a.Matches q ∨ st.Dominated a q) ∧ st.visit a q = (st', false) ∨
        a.Matches q ∧ ¬ st.Dominated a q ∧
          st'.tags.softViolation q = a.queueViolations q ∧ st.visit a q = st'.accept a q) := by
  have hpassed : QueueSearch.Passed a q st (st.setTag q 0) := QueueSearch.passed_setTag hskips
  rw [QueueSearch.visit]
  generalize st.setTag q 0 = st1 at hpassed
  dsimp only
  by_cases hskip : st1.skipHostList.contains (a.host q)
  · rw [if_pos hskip]
    refine ⟨st1, hpassed, Or.inl ⟨?_, rfl⟩⟩
    rw [← hpassed.dominated]
    exact hpassed.skips q (by simpa using hskip)
  rw [if_neg hskip]
  by_cases hrqs : a.rqsOk q
  swap
  · rw [if_pos (by simpa using hrqs)]
    exact ⟨st1, hpassed, Or.inl ⟨Or.inl fun hm => hrqs hm.rqsOk, rfl⟩⟩
  rw [if_neg (by simpa using hrqs)]
  by_cases hcutRqs : st1.cut a 0 (a.ttRqs q)
  · rw [if_pos hcutRqs]
    exact ⟨st1, hpassed,
      Or.inl ⟨Or.inr (hpassed.dominated.mp (QueueSearch.cut_rqs hcutRqs)), rfl⟩⟩
  rw [if_neg hcutRqs]
  by_cases hstatic : a.staticOk q
  swap
  · rw [if_pos (by simpa using hstatic)]
    exact ⟨st1, hpassed, Or.inl ⟨Or.inl fun hm => hstatic hm.staticOk, rfl⟩⟩
  rw [if_neg (by simpa using hstatic)]
  by_cases hhost : a.hostOk (a.host q)
  swap
  · rw [if_pos (by simpa using hhost)]
    refine ⟨_, hpassed.skipHost fun q' hq' => Or.inl fun hm => hhost ?_,
      Or.inl ⟨Or.inl fun hm => hhost hm.hostOk, rfl⟩⟩
    rw [← hq']
    exact hm.hostOk
  rw [if_neg (by simpa using hhost)]
  by_cases hcutHost : st1.cut a (a.hostViolations (a.host q)) (a.ttHost (a.host q))
  · rw [if_pos hcutHost]
    refine ⟨_, hpassed.skipHost fun q' hq' => Or.inr (QueueSearch.cut_host ?_),
      Or.inl ⟨Or.inr (hpassed.dominated.mp (QueueSearch.cut_host hcutHost)), rfl⟩⟩
    rw [hq']
    exact hcutHost
  rw [if_neg hcutHost]
  by_cases hqueue : a.queueOk q
  swap
  · rw [if_pos (by simpa using hqueue)]
    exact ⟨st1, hpassed, Or.inl ⟨Or.inl fun hm => hqueue hm.queueOk, rfl⟩⟩
  rw [if_neg (by simpa using hqueue)]
  refine ⟨_, hpassed.setSoftViolation (a.queueViolations q), ?_⟩
  have hcut : (st1.setSoftViolation q (a.queueViolations q)).cut a (a.queueViolations q)
      (a.ttQueue q) = st1.cut a (a.queueViolations q) (a.ttQueue q) := rfl
  rw [hcut]
  by_cases hcutQueue : st1.cut a (a.queueViolations q) (a.ttQueue q)
  · rw [if_pos hcutQueue]
    exact Or.inl ⟨Or.inr (hpassed.dominated.mp (QueueSearch.cut_queue hcutQueue)), rfl⟩
  · rw [if_neg hcutQueue]
    refine Or.inr ⟨⟨hglobal, hrqs, hstatic, hhost, hqueue⟩, ?_, Function.update_self _ _ _, rfl⟩
    rw [← hpassed.dominated]
    exact QueueSearch.not_dominated hcutRqs hcutHost hcutQueue

end Cuts

end GridEngine
