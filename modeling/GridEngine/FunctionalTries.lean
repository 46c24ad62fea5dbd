import GridEngine.FunctionalRounds

/-!
# The tries of a functional round

The functional tickets of a task depend on the kind of its category and on the counters of the
objects that have shares. The brute force tries every pending task, a round of the policy the first
tasks of the categories. Both find the same task, unless the sum of its tickets is less than -1.
-/

namespace GridEngine.TicketPolicies
open GreedyRuns

section Counters
variable {K : Type} {cfg : Config K} {jobTickets : Ref → ℕ} {ownerTickets : Owner → ℕ → ℕ}
  {s t : State K} {jref : ℕ}

/-- The counters of the objects that have shares are the same. -/
def CountsAlike (ownerTickets : Owner → ℕ → ℕ) (s t : State K) : Prop :=
  ∀ owner object, ownerTickets owner object ≠ 0 → s.jobCnt owner object = t.jobCnt owner object

theorem CountsAlike.set (h : CountsAlike ownerTickets s t) (cfg : Config K) (jref : ℕ) :
    CountsAlike ownerTickets (sgeSetJobCnts cfg jref s) (sgeSetJobCnts cfg jref t) := by
  intro owner object hne
  simp only [sgeSetJobCnts, h owner object hne]

theorem ownerShare_of_hasShares (h : hasShares cfg jobTickets ownerTickets jref = false) :
    jobTickets (cfg.ref jref) = 0 ∧ ∀ owner, ownerShare cfg ownerTickets jref owner = 0 := by
  simp only [hasShares, Bool.not_eq_eq_eq_not, Bool.not_false, decide_eq_true_eq] at h
  obtain ⟨hjob, huser, hdepartment, hproject⟩ := h
  refine ⟨hjob, fun owner => ?_⟩
  cases owner with
  | user => exact huser
  | project => exact hproject
  | department => exact hdepartment

theorem CountsAlike.skip (h : CountsAlike ownerTickets s t)
    (hshares : hasShares cfg jobTickets ownerTickets jref = false) :
    CountsAlike ownerTickets (sgeSetJobCnts cfg jref s) t := by
  intro owner object hne
  have hzero := (ownerShare_of_hasShares hshares).2 owner
  simp only [sgeSetJobCnts]
  rw [if_neg, h owner object hne]
  intro howner
  rw [ownerShare, howner] at hzero
  exact hne hzero

/-- The counters with some more active tasks. -/
def Counted (cfg : Config K) (s₀ s : State K) (active : List ℕ) : Prop :=
  ∀ owner object, s.jobCnt owner object =
    s₀.jobCnt owner object + active.countP fun j => (cfg.ref j).owner owner = some object

theorem Counted.set {active : List ℕ} (h : Counted cfg s t active) (jref : ℕ) :
    Counted cfg s (sgeSetJobCnts cfg jref t) (active ++ [jref]) := by
  intro owner object
  rw [List.countP_append, List.countP_singleton]
  simp only [sgeSetJobCnts, h owner object, decide_eq_true_eq]
  split_ifs <;> rfl

/-- When no task is active any more, the counters are what they were. -/
theorem Counted.unset {f : State K → ℕ → State K}
    (hf : ∀ s j, (f s j).jobCnt = (sgeUnsetJobCnts cfg j s).jobCnt) {active : List ℕ}
    (h : Counted cfg s t active) : (active.foldl f t).jobCnt = s.jobCnt := by
  funext owner object
  suffices hcnt : ∀ t : State K, (active.foldl f t).jobCnt owner object =
      t.jobCnt owner object - active.countP fun j => (cfg.ref j).owner owner = some object by
    rw [hcnt, h owner object, Nat.add_sub_cancel]
  clear h
  induction active with
  | nil => exact fun t => rfl
  | cons j active ih =>
      intro t
      rw [List.foldl_cons, ih, hf, List.countP_cons]
      simp only [sgeUnsetJobCnts, decide_eq_true_eq]
      split_ifs <;> omega

theorem ownerElem_ne_zero {owner : Owner} {object : ℕ}
    (h : ownerElem cfg ownerTickets jref owner = some object) : ownerTickets owner object ≠ 0 := by
  unfold ownerElem at h
  have := (Option.filter_eq_some_iff.mp h).2
  simpa using this

end Counters

section Active
variable {K : Type} [Field K] {cfg : Config K} {s t : State K} {j : ℕ}

/-- The shares of an active task are the same but for objects without shares. -/
theorem activeFshare_congr (h : CountsAlike cfg.fshare s t) {owner : Owner}
    (hsome : ((cfg.ref j).owner owner).isSome) :
    activeFshare cfg j s owner = activeFshare cfg j t owner := by
  obtain ⟨object, hobject⟩ := Option.isSome_iff_exists.mp hsome
  unfold activeFshare
  rw [hobject]
  dsimp only
  by_cases hzero : cfg.fshare owner object = 0
  · simp [hzero]
  · rw [h owner object hzero]

theorem activeSums_congr (h : CountsAlike cfg.fshare s t) (j : ℕ) (sums : Parts K) :
    activeSums cfg j s sums = activeSums cfg j t sums := by
  unfold activeSums
  congr 1
  funext owner
  cases howner : (cfg.ref j).owner owner with
  | none => rfl
  | some object =>
      dsimp only
      rw [activeFshare_congr h (by rw [howner]; rfl)]
      by_cases hzero : cfg.fshare owner object = 0
      · simp [activeFshare, howner, hzero]
      · rw [h owner object hzero]

theorem activeSums_skip (h : hasShares cfg Ref.jobshare cfg.fshare j = false) (sums : Parts K)
    (s : State K) : activeSums cfg j s sums = sums := by
  obtain ⟨hjob, hshare⟩ := ownerShare_of_hasShares h
  have howners : ∀ owner, (activeSums cfg j s sums).owner owner = sums.owner owner := by
    intro owner
    have hzero := hshare owner
    unfold activeSums activeFshare
    dsimp only
    rw [ownerShare] at hzero
    cases howner : (cfg.ref j).owner owner with
    | none => rfl
    | some object =>
        rw [howner] at hzero
        simp [show cfg.fshare owner object = 0 from hzero]
  calc activeSums cfg j s sums =
      { owner := (activeSums cfg j s sums).owner, job := sums.job + ((cfg.ref j).jobshare : K) } :=
        rfl
    _ = sums := by rw [hjob, Nat.cast_zero, add_zero, funext howners]

end Active

section Tickets
variable {K : Type} [Field K] [LinearOrder K] {cfg : Config K} {sums : Parts K} {s t : State K}
  {j k : ℕ}

/-- The functional tickets of a task, were it to run next. -/
def triedFtickets (cfg : Config K) (jref : ℕ) (sums : Parts K) (s : State K) : K :=
  (calcInternPendingJobFunctionalTickets cfg (ownCategory cfg Ref.jobshare cfg.fshare jref)
    (addThousandth sums) (getFunctionalWeightingParameters cfg) s).fticket jref

/-- What a task gets for the shares of an object, were it to run next. -/
def ownerTried (cfg : Config K) (s : State K) (sum : K) (owner : Owner) : Option ℕ → K
  | none => 0
  | some object =>
      let share := (cfg.fshare owner object : K)
      let sum := if cfg.shareFunctionalShares then sum else sum + share
      let fshare :=
        if cfg.shareFunctionalShares then share / ((s.jobCnt owner object + 1 : ℕ) : K) else share
      if sum ≠ 0 then fshare * (cfg.totalFunctionalTickets : K) / sum else 0

theorem ownerTried_eq (cfg : Config K) (sums : Parts K) (s : State K) (jref : ℕ) (owner : Owner) :
    (if ((cfg.ref jref).owner owner).isSome &&
        (triedSums cfg (ownCategory cfg Ref.jobshare cfg.fshare jref) sums).owner owner ≠ 0 then
      triedFshare cfg (ownCategory cfg Ref.jobshare cfg.fshare jref) s owner *
        (cfg.totalFunctionalTickets : K) /
          (triedSums cfg (ownCategory cfg Ref.jobshare cfg.fshare jref) sums).owner owner
    else 0) = ownerTried cfg s (sums.owner owner) owner (ownerElem cfg cfg.fshare jref owner) := by
  cases howner : (cfg.ref jref).owner owner with
  | none => simp [ownerElem, howner, ownerTried]
  | some object =>
      by_cases hzero : cfg.fshare owner object = 0
      · simp [triedFshare, ownCategory, ownerElem, ownerShare, howner, Option.filter_some, hzero,
          ownerTried]
      · cases hshared : cfg.shareFunctionalShares <;>
          simp [triedSums, triedFshare, ownCategory, ownerElem, ownerShare, howner, hshared,
            Option.filter_some, hzero, ownerTried]

theorem fticket_pass2 (cfg : Config K) (jref : ℕ) (sums weight : Parts K)
    (ownerFshare : Owner → K) (fshare : ℕ) (s : State K) :
    (calcJobFunctionalTicketsPass2 cfg jref sums weight
      (setFshares jref ownerFshare fshare s)).fticket jref =
        let part := fun owner => weight.owner owner *
          (if ((cfg.ref jref).owner owner).isSome && sums.owner owner ≠ 0 then
            ownerFshare owner * (cfg.totalFunctionalTickets : K) / sums.owner owner else 0)
        part .user + part .department + part .project + weight.job *
          (if sums.job ≠ 0 then
            ((cfg.ref jref).jobshare : K) * (cfg.totalFunctionalTickets : K) / sums.job
          else 0) := by
  simp only [calcJobFunctionalTicketsPass2, Function.update_self, setFshares_ownerFshare_self]

theorem triedFtickets_eq (cfg : Config K) (jref : ℕ) (sums : Parts K) (s : State K) :
    triedFtickets cfg jref sums s =
      let weight := getFunctionalWeightingParameters cfg
      let sums := addThousandth sums
      let part := fun owner => weight.owner owner *
        ownerTried cfg s (sums.owner owner) owner (ownerElem cfg cfg.fshare jref owner)
      let jobshare := ((cfg.ref jref).jobshare : K)
      part .user + part .department + part .project + weight.job *
        (if sums.job + jobshare ≠ 0 then
          jobshare * (cfg.totalFunctionalTickets : K) / (sums.job + jobshare) else 0) := by
  simp only [← ownerTried_eq]
  exact fticket_pass2 ..

theorem triedFtickets_of_kind
    (h : taskKind cfg Ref.jobshare cfg.fshare j = taskKind cfg Ref.jobshare cfg.fshare k)
    (sums : Parts K) (s : State K) : triedFtickets cfg j sums s = triedFtickets cfg k sums s := by
  have hjob : (cfg.ref j).jobshare = (cfg.ref k).jobshare := (Prod.mk.inj h).1
  rw [triedFtickets_eq, triedFtickets_eq, ownerElem_of_kind h, hjob]

theorem triedFtickets_congr (h : CountsAlike cfg.fshare s t) (j : ℕ) (sums : Parts K) :
    triedFtickets cfg j sums s = triedFtickets cfg j sums t := by
  have howner : ∀ owner sum, ownerTried cfg s sum owner (ownerElem cfg cfg.fshare j owner) =
      ownerTried cfg t sum owner (ownerElem cfg cfg.fshare j owner) := by
    intro owner sum
    cases helem : ownerElem cfg cfg.fshare j owner with
    | none => rfl
    | some object => simp only [ownerTried, h owner object (ownerElem_ne_zero helem)]
  simp only [triedFtickets_eq, howner]

theorem fticket_calcPending_congr (h : CountsAlike cfg.fshare s t) (j : ℕ)
    (sums weight : Parts K) :
    (calcPendingJobFunctionalTickets cfg j sums weight s).1.fticket j =
      (calcPendingJobFunctionalTickets cfg j sums weight t).1.fticket j := by
  have hpart : ∀ (sums : Parts K) owner,
      (if ((cfg.ref j).owner owner).isSome && sums.owner owner ≠ 0 then
        activeFshare cfg j s owner * (cfg.totalFunctionalTickets : K) / sums.owner owner else 0) =
      (if ((cfg.ref j).owner owner).isSome && sums.owner owner ≠ 0 then
        activeFshare cfg j t owner * (cfg.totalFunctionalTickets : K) / sums.owner owner
          else 0) := by
    intro sums owner
    split_ifs with hsome
    · rw [Bool.and_eq_true] at hsome
      rw [activeFshare_congr h hsome.1]
    · rfl
  simp only [calcPendingJobFunctionalTickets, fticket_pass2, activeSums_congr h, hpart]

end Tickets

section BruteForce
variable {K : Type} [Field K] [LinearOrder K] {cfg : Config K}

/-- What a step of the brute force finds: the functional tickets of the task that gets active, and
those of every task that was tried. -/
structure Turn (K : Type) where
  ftickets : K
  tried : ℕ → K

/-- The brute force of the functional policy. Its state are the counters and the sums of the shares
of the active tasks. The task with the largest sum of its previous tickets and the functional
tickets that it would get comes next and is considered active. -/
def functionalBruteForce (cfg : Config K) (previous : ℕ → K) :
    Greedy (State K × Parts K) ℕ (Turn K) (Kᵒᵈ ×ₗ ℕ ×ₗ ℕ ×ₗ ℕ) where
  key σ jref := rank cfg (previous jref + triedFtickets cfg jref σ.2 σ.1) jref
  take σ jref := calcPendingJobFunctionalTickets cfg jref σ.2 (getFunctionalWeightingParameters cfg)
    (sgeSetJobCnts cfg jref σ.1)
  result σ jref := {
    ftickets := (calcPendingJobFunctionalTickets cfg jref σ.2
      (getFunctionalWeightingParameters cfg) (sgeSetJobCnts cfg jref σ.1)).1.fticket jref
    tried := fun jref => triedFtickets cfg jref σ.2 σ.1 }

theorem functionalBruteForce_strict (h : cfg.TasksNamed) (previous : ℕ → K) {tasks : List ℕ}
    (htasks : ∀ j ∈ tasks, j < cfg.numJobs) :
    (functionalBruteForce cfg previous).Strict tasks :=
  fun _ j hj k hk heq => eq_of_rank h (htasks j hj) (htasks k hk) heq

/-- States that differ in what no task with shares depends on. -/
def FunctionalAlike (cfg : Config K) (σ τ : State K × Parts K) : Prop :=
  CountsAlike cfg.fshare σ.1 τ.1 ∧ σ.2 = τ.2

theorem functionalBruteForce_alike (cfg : Config K) (previous : ℕ → K) :
    (functionalBruteForce cfg previous).Alike (hasShares cfg Ref.jobshare cfg.fshare)
      (FunctionalAlike cfg) where
  key := by
    rintro ⟨s, sums⟩ ⟨t, _⟩ j ⟨hcounts, rfl⟩ -
    simp only [functionalBruteForce, triedFtickets_congr hcounts]
  result := by
    rintro ⟨s, sums⟩ ⟨t, _⟩ j ⟨hcounts, rfl⟩ -
    simp only [functionalBruteForce, triedFtickets_congr hcounts,
      fticket_calcPending_congr (hcounts.set cfg j)]
  take := by
    rintro ⟨s, sums⟩ ⟨t, _⟩ j ⟨hcounts, rfl⟩ -
    exact ⟨hcounts.set cfg j, activeSums_congr (hcounts.set cfg j) j sums⟩
  skip := by
    rintro ⟨s, sums⟩ ⟨t, _⟩ j ⟨hcounts, rfl⟩ hshares
    exact ⟨hcounts.skip hshares, activeSums_skip hshares sums _⟩

/-- The rounds end when the largest sum is less than -1. -/
def functionalPick (cfg : Config K) (previous : ℕ → K) (σ : State K × Parts K) (tasks : List ℕ) :
    Option ℕ :=
  (tasks.argmin ((functionalBruteForce cfg previous).key σ)).filter fun j =>
    -1 ≤ previous j + triedFtickets cfg j σ.2 σ.1

end BruteForce

theorem mem_firsts_of_mem_map {K : Type} {f : Category → Best K} (hf : ∀ c, (f c).ref = c.first)
    {categories : List Category} {best : Best K} (h : best ∈ categories.map f) :
    best.ref ∈ firsts categories := by
  obtain ⟨category, hcategory, rfl⟩ := List.mem_map.mp h
  rw [hf]
  exact List.mem_map_of_mem hcategory

section Kept
variable {K : Type} {tasks : List ℕ} {s s' s'' : State K}

/-- What the tries of a round keep. -/
structure Tried (tasks : List ℕ) (s s' : State K) : Prop where
  tickets : s'.tickets = s.tickets
  jobCnt : s'.jobCnt = s.jobCnt
  fticket : ∀ j ∉ tasks, s'.fticket j = s.fticket j

theorem Tried.trans (h : Tried tasks s s') (h' : Tried tasks s' s'') :
    Tried tasks s s'' :=
  ⟨h'.tickets.trans h.tickets, h'.jobCnt.trans h.jobCnt,
    fun j hj => (h'.fticket j hj).trans (h.fticket j hj)⟩

theorem Tried.mono {tasks' : List ℕ} (h : Tried tasks s s')
    (hsub : tasks ⊆ tasks') : Tried tasks' s s' :=
  ⟨h.tickets, h.jobCnt, fun j hj => h.fticket j fun hmem => hj (hsub hmem)⟩

end Kept

section Tries
variable {K : Type} [Field K] [LinearOrder K] {cfg : Config K} {tasks : List ℕ}

/-- A candidate comes before another one. -/
def Best.key (cfg : Config K) (best : Best K) : Kᵒᵈ ×ₗ ℕ ×ₗ ℕ ×ₗ ℕ := rank cfg best.tickets best.ref

theorem beats_some_iff (h : cfg.TasksNamed) {candidate best : Best K}
    (hcandidate : candidate.ref < cfg.numJobs) (hbest : best.ref < cfg.numJobs) :
    beats cfg candidate.tickets candidate.ref (some best) = true ↔
      candidate.key cfg < best.key cfg := by
  have htime := h.submissionTime _ hcandidate _ hbest
  rw [Best.key, Best.key, rank_lt_iff]
  simp only [beats, decide_eq_true_eq]
  constructor
  · rintro ⟨hle, hlt | hbefore | ⟨hbefore, hjob⟩ | ⟨hjob, htask⟩⟩
    · exact Or.inl hlt
    · rcases hle.lt_or_eq with hlt | heq
      · exact Or.inl hlt
      · exact Or.inr ⟨heq.symm, Or.inl hbefore⟩
    · rcases hle.lt_or_eq with hlt | heq
      · exact Or.inl hlt
      · exact Or.inr ⟨heq.symm, Or.inr ⟨hbefore, Or.inl hjob⟩⟩
    · rcases hle.lt_or_eq with hlt | heq
      · exact Or.inl hlt
      · exact Or.inr ⟨heq.symm, Or.inr ⟨htime hjob, Or.inr ⟨hjob, htask⟩⟩⟩
  · rintro (hlt | ⟨heq, hbefore | ⟨hbefore, hjob | ⟨hjob, htask⟩⟩⟩)
    · exact ⟨hlt.le, Or.inl hlt⟩
    · exact ⟨heq.ge, Or.inr (Or.inl hbefore)⟩
    · exact ⟨heq.ge, Or.inr (Or.inr (Or.inl ⟨hbefore, hjob⟩))⟩
    · exact ⟨heq.ge, Or.inr (Or.inr (Or.inr ⟨hjob, htask⟩))⟩

theorem tryCategory_eq {category : Category}
    (hjob : (cfg.ref category.first).jobshare = category.jobShare)
    (hshare : ownerShare cfg cfg.fshare category.first = category.ownerShare) (sums : Parts K)
    (s : State K) (best : Option (Best K)) :
    ∃ s', Tried [category.first] s s' ∧
      s'.fticket category.first = triedFtickets cfg category.first sums s ∧
      tryCategory cfg true sums (getFunctionalWeightingParameters cfg) (s, best) category =
        let ftickets := triedFtickets cfg category.first sums s + s.tickets category.first
        (s', if beats cfg ftickets category.first best then some ⟨category.first, ftickets⟩
          else best) := by
  have hown : calcInternPendingJobFunctionalTickets cfg category (addThousandth sums)
      (getFunctionalWeightingParameters cfg) s =
        calcInternPendingJobFunctionalTickets cfg
          (ownCategory cfg Ref.jobshare cfg.fshare category.first) (addThousandth sums)
          (getFunctionalWeightingParameters cfg) s := by
    have hsums : triedSums cfg category (addThousandth sums) = triedSums cfg
        (ownCategory cfg Ref.jobshare cfg.fshare category.first) (addThousandth sums) := by
      simp only [triedSums, ownCategory, hjob, hshare]
    have hfshare : triedFshare cfg category s = triedFshare cfg
        (ownCategory cfg Ref.jobshare cfg.fshare category.first) s := by
      funext owner
      simp only [triedFshare, ownCategory, hshare]
    rw [calcInternPendingJobFunctionalTickets, hsums, hfshare, ← hjob]
    rfl
  refine ⟨calcInternPendingJobFunctionalTickets cfg category (addThousandth sums)
    (getFunctionalWeightingParameters cfg) s, ⟨rfl, rfl, ?_⟩, by rw [triedFtickets, ← hown], ?_⟩
  · intro j hj
    exact Function.update_of_ne (fun heq => hj (List.mem_singleton.mpr heq)) ..
  · rw [triedFtickets, ← hown]
    rfl

/-- The candidate of a category. -/
def candidate (cfg : Config K) (sums : Parts K) (s : State K) (category : Category) : Best K where
  ref := category.first
  tickets := s.tickets category.first + triedFtickets cfg category.first sums s

theorem foldl_tryCategory_fticket (categories : List Category)
    (hown : ∀ c ∈ categories, (cfg.ref c.first).jobshare = c.jobShare ∧
      ownerShare cfg cfg.fshare c.first = c.ownerShare)
    (hnodup : (firsts categories).Nodup) (sums : Parts K) (s : State K) :
    Tried (firsts categories) s (categories.foldl
        (tryCategory cfg true sums (getFunctionalWeightingParameters cfg)) (s, none)).1 ∧
      ∀ c ∈ categories, (categories.foldl
        (tryCategory cfg true sums (getFunctionalWeightingParameters cfg))
          (s, none)).1.fticket c.first = triedFtickets cfg c.first sums s := by
  induction categories using List.reverseRecOn with
  | nil => exact ⟨⟨rfl, rfl, fun _ _ => rfl⟩, fun c hc => absurd hc List.not_mem_nil⟩
  | append_singleton l c ih =>
      rw [firsts, List.map_append, List.nodup_append] at hnodup
      obtain ⟨hnodup, -, hdisjoint⟩ := hnodup
      obtain ⟨htried, hl⟩ := ih (fun d hd => hown d (List.mem_append_left _ hd)) hnodup
      obtain ⟨hjob, hshare⟩ := hown c (List.mem_append_right _ List.mem_cons_self)
      rw [List.foldl_append, List.foldl_cons, List.foldl_nil]
      generalize l.foldl (tryCategory cfg true sums (getFunctionalWeightingParameters cfg))
        (s, none) = acc at htried hl ⊢
      obtain ⟨s', best⟩ := acc
      obtain ⟨s'', htried', hself, heq⟩ := tryCategory_eq hjob hshare sums s' best
      rw [heq]
      constructor
      · refine (htried.mono ?_).trans (htried'.mono ?_)
        · rw [firsts, firsts, List.map_append]
          exact List.subset_append_left _ _
        · rw [firsts, List.map_append]
          exact List.subset_append_right _ _
      · intro d hd
        rcases List.mem_append.mp hd with hd | hd
        · have hne := hdisjoint d.first (List.mem_map_of_mem hd) c.first List.mem_cons_self
          have hkept := htried'.fticket d.first fun hmem => hne (List.mem_singleton.mp hmem)
          exact hkept.trans (hl d hd)
        · rw [List.mem_singleton.mp hd]
          have hcounts : CountsAlike cfg.fshare s' s := fun owner object _ => by rw [htried.jobCnt]
          exact hself.trans (triedFtickets_congr hcounts c.first sums)

/-- The loop over the first tasks of the categories finds the best one of them. -/
theorem foldl_tryCategory_isBest {s : State K} {previous : ℕ → K} {categories : List Category}
    (hnamed : cfg.TasksNamed) (htasks : ∀ j ∈ tasks, j < cfg.numJobs)
    (h : Grouped cfg previous Ref.jobshare cfg.fshare tasks categories) (sums : Parts K) :
    IsBest (fun best => -1 ≤ best.tickets) (Best.key cfg) (categories.map (candidate cfg sums s))
      (categories.foldl (tryCategory cfg true sums (getFunctionalWeightingParameters cfg))
        (s, none)).2 := by
  have hinit : Tried tasks s s := ⟨rfl, rfl, fun _ _ => rfl⟩
  refine (foldl_better (fun hle hge => hge.trans (tickets_le_of_rank_le hle)) categories ?_
    hinit).2
  intro s' best category hcategory hs' hbest
  have hfirst := h.mem_tasks hcategory List.mem_cons_self
  have hown := h.kind category hcategory _ List.mem_cons_self
  obtain ⟨s'', htried, -, heq⟩ := tryCategory_eq (Prod.mk.inj hown).1
    (h.share category hcategory _ List.mem_cons_self) sums s' best
  rw [heq]
  refine ⟨hs'.trans (htried.mono fun j hj => List.mem_singleton.mp hj ▸ hfirst), ?_⟩
  have hcounts : CountsAlike cfg.fshare s' s := fun owner object _ => by rw [hs'.jobCnt]
  have hvalue : triedFtickets cfg category.first sums s' + s'.tickets category.first =
      (candidate cfg sums s category).tickets := by
    rw [triedFtickets_congr hcounts, hs'.tickets, candidate, add_comm]
  have hlt : (candidate cfg sums s category).ref < cfg.numJobs := htasks _ hfirst
  dsimp only
  rw [hvalue]
  change (if beats cfg (candidate cfg sums s category).tickets
    (candidate cfg sums s category).ref best then some (candidate cfg sums s category)
      else best) = _
  generalize candidate cfg sums s category = tried at hlt
  cases best with
  | none =>
      rw [better, beats]
      simp only [decide_eq_true_eq]
  | some best =>
      obtain ⟨c, hc, rfl⟩ := List.mem_map.mp (hbest best rfl)
      have hlt' : (candidate cfg sums s c).ref < cfg.numJobs :=
        htasks _ (h.mem_tasks hc List.mem_cons_self)
      rw [better]
      by_cases hbeats : tried.key cfg < (candidate cfg sums s c).key cfg
      · rw [if_pos hbeats, if_pos ((beats_some_iff hnamed hlt hlt').mpr hbeats)]
      · rw [if_neg hbeats, if_neg fun hb => hbeats ((beats_some_iff hnamed hlt hlt').mp hb)]

variable [IsStrictOrderedRing K]

theorem functionalPick_eq {s t : State K} {sums : Parts K} {categories : List Category}
    {best : Option (Best K)} (hnamed : cfg.TasksNamed) (htasks : ∀ j ∈ tasks, j < cfg.numJobs)
    (h : Grouped cfg s.tickets Ref.jobshare cfg.fshare tasks categories)
    (hcounts : CountsAlike cfg.fshare s t)
    (hbest : IsBest (fun best => -1 ≤ best.tickets) (Best.key cfg)
      (categories.map (candidate cfg sums s)) best) :
    functionalPick cfg s.tickets (t, sums) tasks = best.map Best.ref := by
  have hle : ∀ category ∈ categories, ∀ j ∈ category.refs,
      (candidate cfg sums s category).key cfg ≤
        (functionalBruteForce cfg s.tickets).key (t, sums) j := by
    intro category hcategory j hj
    have hadd := h.first_add_le hcategory hj (v := fun j => triedFtickets cfg j sums s)
      fun j k hkind => triedFtickets_of_kind hkind sums s
    simp only [functionalBruteForce, ← triedFtickets_congr hcounts]
    exact hadd
  cases best with
  | none =>
      rw [functionalPick, Option.map_none, Option.filter_eq_none_iff]
      intro j hj hge
      obtain ⟨category, hcategory, hjc⟩ := h.exists_category (List.argmin_mem hj)
      refine hbest _ (List.mem_map_of_mem hcategory) ?_
      exact (of_decide_eq_true hge).trans (tickets_le_of_rank_le (hle category hcategory j hjc))
  | some best =>
      obtain ⟨hmem, henters, hmin⟩ := hbest
      obtain ⟨category, hcategory, rfl⟩ := List.mem_map.mp hmem
      have hfirst := h.mem_tasks hcategory List.mem_cons_self
      have hkey : (functionalBruteForce cfg s.tickets).key (t, sums) category.first =
          (candidate cfg sums s category).key cfg := by
        simp only [functionalBruteForce, ← triedFtickets_congr hcounts]
        rfl
      have hargmin := argmin_eq_some
        (functionalBruteForce_strict hnamed s.tickets htasks (t, sums)) hfirst fun j hj => by
          obtain ⟨c, hc, hjc⟩ := h.exists_category hj
          rw [hkey]
          exact (hmin _ (List.mem_map_of_mem hc)).trans (hle c hc j hjc)
      rw [functionalPick, hargmin, Option.filter_some, if_pos]
      · rfl
      · rw [decide_eq_true_eq, ← triedFtickets_congr hcounts]
        exact henters

end Tries

end GridEngine.TicketPolicies
