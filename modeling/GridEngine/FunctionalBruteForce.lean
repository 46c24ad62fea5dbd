import GridEngine.FunctionalTries

/-!
# The functional policy against brute force

The rounds over the first tasks of the categories take the tasks that the brute force over all
pending tasks takes, as long as the largest sum of tickets is at least -1.
-/

namespace GridEngine.TicketPolicies
open GreedyRuns

section Rounds
variable {K : Type} [Field K] [LinearOrder K] {cfg : Config K} {s₀ : State K}

/-- The rounds have taken what the brute force has taken. -/
structure FunctionalSim (cfg : Config K) (s₀ : State K) (rounds : Rounds K)
    (σ : State K × Parts K) (tasks : List ℕ) (taken : List (ℕ × Turn K)) : Prop where
  order : rounds.sortList = taken.map Prod.fst
  sums : rounds.sums = σ.2
  counts : CountsAlike cfg.fshare rounds.state σ.1
  tickets : rounds.state.tickets = s₀.tickets
  counted : Counted cfg s₀ rounds.state rounds.sortList
  results : ∀ p ∈ taken, p.1 ∉ tasks ∧ rounds.state.fticket p.1 = p.2.ftickets
  tried : ∀ p ∈ taken.getLast?, ∀ c ∈ rounds.categories, ∀ j ∈ c.refs,
    rounds.state.fticket c.first = p.2.tried j
  cover : ∀ j ∈ sharingTasks cfg Ref.jobshare cfg.fshare, j ∈ rounds.sortList ∨ j ∈ tasks
  waiting : Waiting cfg s₀.tickets Ref.jobshare cfg.fshare tasks rounds.categories

theorem copyToNext_tried (cfg : Config K) {categories : List Category} {tasks : List ℕ}
    (hrefs : ∀ j ∈ categoryRefs categories, j ∈ tasks) (winner : ℕ) (s : State K) :
    Tried tasks s (copyToNext cfg categories winner s) := by
  have honly := copyToNext_only cfg s hrefs winner
  refine ⟨honly.tickets, ?_, honly.fticket⟩
  unfold copyToNext
  split <;> rfl

omit [Field K] in
/-- The first tasks that remain have what their categories were tried with. -/
theorem copyToNext_fticket {previous : ℕ → K} {tasks : List ℕ} {categories : List Category}
    (h : Grouped cfg previous Ref.jobshare cfg.fshare tasks categories) {s : State K} {v : ℕ → K}
    (hv : ∀ j k, taskKind cfg Ref.jobshare cfg.fshare j =
      taskKind cfg Ref.jobshare cfg.fshare k → v j = v k)
    (hs : ∀ c ∈ categories, s.fticket c.first = v c.first) {winner : ℕ} {c : Category}
    (hc : c ∈ removeWinner winner categories) :
    (copyToNext cfg categories winner s).fticket c.first = v c.first := by
  obtain ⟨d, hd, heq⟩ := List.mem_filterMap.mp hc
  have hwinner : ∀ e, categories.find? (fun c => c.first = winner) = some e →
      e ∈ categories ∧ e.first = winner := by
    intro e hfind
    have hfirst := List.find?_some hfind
    exact ⟨List.mem_of_find?_eq_some hfind, of_decide_eq_true hfirst⟩
  unfold copyToNext
  split_ifs at heq with hfirst
  · -- the category of the winner goes on with its next task
    have hsome : (categories.find? fun c => c.first = winner).isSome := by
      rw [List.find?_isSome]
      exact ⟨d, hd, decide_eq_true hfirst⟩
    obtain ⟨e, hfind⟩ := Option.isSome_iff_exists.mp hsome
    obtain ⟨he, hefirst⟩ := hwinner e hfind
    obtain rfl := h.eq_of_kind he hd List.mem_cons_self List.mem_cons_self
      (by rw [hefirst, hfirst])
    unfold Category.dropFirst at heq
    cases hnext : e.next with
    | nil => simp [hnext] at heq
    | cons next rest =>
        rw [hnext] at heq
        obtain rfl := Option.some.inj heq
        have hmem : next ∈ e.refs := by
          rw [Category.refs, hnext]
          exact List.mem_cons_of_mem _ List.mem_cons_self
        have hkind := (h.kind e he e.first List.mem_cons_self).trans (h.kind e he next hmem).symm
        rw [hfind, Option.map_some, Category.refs, hnext]
        exact (Function.update_self ..).trans ((hs e he).trans (hv _ _ hkind))
  · obtain rfl := Option.some.inj heq
    cases hfind : categories.find? fun c => c.first = winner with
    | none => exact hs d hd
    | some e =>
        obtain ⟨he, hefirst⟩ := hwinner e hfind
        rw [Option.map_some, Category.refs]
        cases hnext : e.next with
        | nil => exact hs d hd
        | cons next rest =>
            have hmem : next ∈ e.refs := by
              rw [Category.refs, hnext]
              exact List.mem_cons_of_mem _ List.mem_cons_self
            have hne : d.first ≠ next := by
              intro heq
              obtain rfl := h.eq_of_kind he hd hmem List.mem_cons_self (by rw [heq])
              exact hfirst hefirst
            exact (Function.update_of_ne hne ..).trans (hs d hd)

variable {rounds : Rounds K} {σ : State K × Parts K} {tasks : List ℕ} {taken : List (ℕ × Turn K)}

theorem FunctionalSim.active {t s₂ : State K} {sums : Parts K}
    (h : FunctionalSim cfg s₀ rounds (t, sums) tasks taken) {winner : ℕ}
    (hfirst : winner ∈ firsts rounds.categories) (htried : Tried tasks rounds.state s₂)
    (hnext : ∀ c ∈ removeWinner winner rounds.categories,
      s₂.fticket c.first = triedFtickets cfg c.first sums rounds.state) {rounds' : Rounds K}
    (hrounds' : rounds' =
      let pending := calcPendingJobFunctionalTickets cfg winner sums
        (getFunctionalWeightingParameters cfg) (sgeSetJobCnts cfg winner s₂)
      { state := pending.1
        categories := removeWinner winner rounds.categories
        sums := pending.2
        sortList := rounds.sortList ++ [winner] }) :
    FunctionalSim cfg s₀ rounds' ((functionalBruteForce cfg s₀.tickets).take (t, sums) winner)
      (tasks.erase winner)
      (taken ++ [(winner, (functionalBruteForce cfg s₀.tickets).result (t, sums) winner)]) := by
  subst hrounds'
  have hmem := h.waiting.firsts_subset hfirst
  have hremoved := h.waiting.remove hfirst
  have hnot := h.waiting.nodup.not_mem_erase (a := winner)
  have hcounts : CountsAlike cfg.fshare (sgeSetJobCnts cfg winner s₂)
      (sgeSetJobCnts cfg winner t) := by
    apply CountsAlike.set
    intro owner object hne
    rw [htried.jobCnt]
    exact h.counts owner object hne
  have hcounted : Counted cfg s₀ s₂ rounds.sortList := fun owner object => by
    rw [htried.jobCnt]
    exact h.counted owner object
  constructor
  · simp [h.order]
  · exact activeSums_congr hcounts winner sums
  · exact hcounts
  · exact htried.tickets.trans h.tickets
  · exact hcounted.set winner
  · intro p hp
    rcases List.mem_append.mp hp with hp | hp
    · obtain ⟨hgone, hresult⟩ := h.results p hp
      refine ⟨fun hmem => hgone (List.mem_of_mem_erase hmem), ?_⟩
      have hne : p.1 ≠ winner := fun heq => hgone (heq ▸ hmem)
      refine (Function.update_of_ne hne ..).trans ?_
      exact (htried.fticket p.1 hgone).trans hresult
    · rw [List.mem_singleton.mp hp]
      exact ⟨hnot, fticket_calcPending_congr hcounts winner sums _⟩
  · intro p hp c hc j hj
    rw [List.getLast?_concat] at hp
    obtain rfl := Option.some.inj hp
    have hne : c.first ≠ winner := fun heq =>
      hnot (heq ▸ hremoved.mem_tasks hc List.mem_cons_self)
    have hkind := (hremoved.kind c hc c.first List.mem_cons_self).trans
      (hremoved.kind c hc j hj).symm
    refine (Function.update_of_ne hne ..).trans ((hnext c hc).trans ?_)
    exact (triedFtickets_of_kind hkind sums _).trans (triedFtickets_congr h.counts j sums)
  · intro j hj
    rw [List.mem_append, List.mem_singleton]
    by_cases heq : j = winner
    · exact Or.inl (Or.inr heq)
    · exact (h.cover j hj).imp Or.inl (List.mem_erase_of_ne heq).mpr
  · exact hremoved

variable [IsStrictOrderedRing K]

theorem FunctionalSim.step (hnamed : cfg.TasksNamed)
    (h : FunctionalSim cfg s₀ rounds σ tasks taken) :
    (functionalPick cfg s₀.tickets σ tasks = none ∧
      functionalRound cfg true (getFunctionalWeightingParameters cfg) rounds = none) ∨
    ∃ j rounds', functionalPick cfg s₀.tickets σ tasks = some j ∧
      functionalRound cfg true (getFunctionalWeightingParameters cfg) rounds = some rounds' ∧
      FunctionalSim cfg s₀ rounds' ((functionalBruteForce cfg s₀.tickets).take σ j)
        (tasks.erase j) (taken ++ [(j, (functionalBruteForce cfg s₀.tickets).result σ j)]) := by
  obtain ⟨t, sums⟩ := σ
  have hsums : rounds.sums = sums := h.sums
  have hwaiting := h.waiting
  rw [← h.tickets] at hwaiting ⊢
  have hgrouped := hwaiting.toGrouped
  have hbest := foldl_tryCategory_isBest (s := rounds.state) hnamed hwaiting.bound hgrouped sums
  obtain ⟨htried, hfticket⟩ := foldl_tryCategory_fticket rounds.categories
    (fun c hc => ⟨(Prod.mk.inj (hgrouped.kind c hc _ List.mem_cons_self)).1,
      hgrouped.share c hc _ List.mem_cons_self⟩) hwaiting.nodup_firsts sums rounds.state
  have hpick := functionalPick_eq hnamed hwaiting.bound hgrouped h.counts hbest
  unfold functionalRound
  rw [hsums]
  generalize rounds.categories.foldl (tryCategory cfg true sums
    (getFunctionalWeightingParameters cfg)) (rounds.state, none) = acc
    at htried hfticket hbest hpick ⊢
  obtain ⟨s₁, best⟩ := acc
  dsimp only at htried hfticket hbest hpick ⊢
  cases best with
  | none => exact Or.inl ⟨hpick, rfl⟩
  | some best =>
      have hfirst := mem_firsts_of_mem_map (f := candidate cfg sums rounds.state) (fun _ => rfl)
        hbest.1
      have hcopied := (htried.mono hwaiting.firsts_subset).trans (copyToNext_tried cfg
        (fun j hj => hgrouped.perm.subset hj) best.ref s₁)
      refine Or.inr ⟨best.ref, _, hpick, rfl, h.active hfirst hcopied (fun c hc => ?_) rfl⟩
      exact copyToNext_fticket (v := fun j => triedFtickets cfg j sums rounds.state) hgrouped
        (fun j k hkind => triedFtickets_of_kind hkind sums rounds.state) hfticket hc

theorem functionalRounds_eq_iterate {K : Type} [Field K] [LinearOrder K] (cfg : Config K)
    (dependent : Bool) (weight : Parts K) (n : ℕ) (rounds : Rounds K) :
    functionalRounds cfg dependent weight n rounds =
      iterate (functionalRound cfg dependent weight) n rounds := by
  induction n generalizing rounds with
  | zero => rfl
  | succ n ih =>
      rw [functionalRounds, iterate]
      cases functionalRound cfg dependent weight rounds with
      | none => rfl
      | some rounds' => exact ih rounds'

theorem exists_functionalSim (hnamed : cfg.TasksNamed)
    (h : FunctionalSim cfg s₀ rounds σ tasks taken) (n : ℕ) :
    ∃ σ' tasks', FunctionalSim cfg s₀
      (functionalRounds cfg true (getFunctionalWeightingParameters cfg) n rounds) σ' tasks'
      (taken ++ (functionalBruteForce cfg s₀.tickets).runBy (functionalPick cfg s₀.tickets) n σ
        tasks) := by
  rw [functionalRounds_eq_iterate]
  exact exists_iterate (fun h => h.step hnamed) n h

end Rounds

section Restored

theorem jobCnt_destributeFtickets {K : Type} [Field K] (cfg : Config K) (dependent : Bool)
    (categories : List Category) (s : State K) :
    (destributeFtickets cfg dependent categories s).jobCnt = s.jobCnt := by
  have hnext : ∀ (first : ℕ) (next : List ℕ) (s : State K),
      (next.foldl (destribute cfg dependent first) s).jobCnt = s.jobCnt := by
    intro first next
    induction next with
    | nil => exact fun s => rfl
    | cons current next ih =>
        intro s
        rw [List.foldl_cons, ih]
        cases dependent <;> rfl
  unfold destributeFtickets
  induction categories generalizing s with
  | nil => rfl
  | cons category categories ih => rw [List.foldl_cons, ih, hnext]

end Restored

section Pending
variable {K : Type}

/-- The pending tasks. -/
def pendingTasks (cfg : Config K) : List ℕ :=
  (List.range cfg.numJobs).filter fun j => (cfg.ref j).queued

theorem sharingTasks_eq (cfg : Config K) (jobTickets : Ref → ℕ) (ownerTickets : Owner → ℕ → ℕ) :
    sharingTasks cfg jobTickets ownerTickets =
      (pendingTasks cfg).filter (hasShares cfg jobTickets ownerTickets) := by
  rw [sharingTasks, pendingTasks, List.filter_filter]
  simp only [Bool.and_comm]

end Pending

section Policy
variable {K : Type} [Field K] [LinearOrder K] {cfg : Config K} {s : State K}

/-- The sums of the shares of the running tasks. -/
def runningSums (cfg : Config K) : Parts K where
  owner := cfg.sumOfFunctionalShares
  job := cfg.sumOfJobFunctionalShares

/-- The brute force over all pending tasks, without the turns of those that have no shares. -/
def functionalBruteForceOrder (cfg : Config K) (s : State K) : List (ℕ × Turn K) :=
  ((functionalBruteForce cfg s.tickets).run (pendingTasks cfg).length (s, runningSums cfg)
    (pendingTasks cfg)).filter fun p => hasShares cfg Ref.jobshare cfg.fshare p.1

/-- The rounds over the first tasks of the categories. -/
def functionalOrder (cfg : Config K) (s : State K) : Rounds K :=
  let built := buildFunctionalCategories cfg s.tickets true Ref.jobshare cfg.fshare
  functionalRounds cfg true (getFunctionalWeightingParameters cfg)
    (min cfg.maxFunctionalJobsToSchedule built.2) {
      state := s
      categories := built.1
      sums := runningSums cfg
      sortList := [] }

/-- The functional policy orders as many tasks as it should in the order of the brute force. They
get the same functional tickets, the other tasks get those of their last try, and no counter has
changed. -/
def FunctionalEqualsBruteForce (cfg : Config K) (s : State K) : Prop :=
  0 < cfg.totalFunctionalTickets →
    let ordered := (functionalBruteForceOrder cfg s).take cfg.maxFunctionalJobsToSchedule
    (functionalOrder cfg s).sortList = ordered.map Prod.fst ∧
      ∃ s', functionalPolicy cfg true s = some s' ∧
        (∀ p ∈ ordered, s'.fticket p.1 = p.2.ftickets ∧
          s'.tickets p.1 = s.tickets p.1 + p.2.ftickets) ∧
        (∀ p ∈ ordered.getLast?, ∀ j ∈ sharingTasks cfg Ref.jobshare cfg.fshare,
          j ∉ ordered.map Prod.fst → s'.fticket j = p.2.tried j) ∧
        s'.jobCnt = s.jobCnt

/-- Before each of its steps the brute force finds a sum of at least -1. -/
def SumsReachMinusOne (cfg : Config K) (s : State K) : Prop :=
  0 < cfg.totalFunctionalTickets →
    (functionalBruteForce cfg s.tickets).Always
      (fun σ tasks => tasks ≠ [] →
        ∃ j ∈ tasks, -1 ≤ s.tickets j + triedFtickets cfg j σ.2 σ.1)
      (min cfg.maxFunctionalJobsToSchedule (sharingTasks cfg Ref.jobshare cfg.fshare).length)
      (s, runningSums cfg) (sharingTasks cfg Ref.jobshare cfg.fshare)

theorem functionalBruteForceOrder_eq (hnamed : cfg.TasksNamed) (s : State K) :
    functionalBruteForceOrder cfg s = (functionalBruteForce cfg s.tickets).run
      (sharingTasks cfg Ref.jobshare cfg.fshare).length (s, runningSums cfg)
      (sharingTasks cfg Ref.jobshare cfg.fshare) := by
  rw [sharingTasks_eq]
  refine Greedy.filter_run (functionalBruteForce_alike cfg s.tickets) ?_
    ⟨fun _ _ _ => rfl, rfl⟩
  refine functionalBruteForce_strict hnamed s.tickets fun j hj => ?_
  exact List.mem_range.mp (List.mem_filter.mp hj).1

theorem functionalPick_eq_argmin_iff (previous : ℕ → K) (σ : State K × Parts K)
    (tasks : List ℕ) :
    functionalPick cfg previous σ tasks =
        tasks.argmin ((functionalBruteForce cfg previous).key σ) ↔
      (tasks ≠ [] → ∃ j ∈ tasks, -1 ≤ previous j + triedFtickets cfg j σ.2 σ.1) := by
  unfold functionalPick
  cases hmin : tasks.argmin ((functionalBruteForce cfg previous).key σ) with
  | none => simp [List.argmin_eq_none.mp hmin]
  | some a =>
      have ha := List.argmin_mem hmin
      rw [Option.filter_some]
      constructor
      · intro h _
        refine ⟨a, ha, ?_⟩
        by_contra hlt
        simp [hlt] at h
      · intro h
        obtain ⟨j, hj, hge⟩ := h (List.ne_nil_of_mem ha)
        have hle : previous j + triedFtickets cfg j σ.2 σ.1 ≤
            previous a + triedFtickets cfg a σ.2 σ.1 :=
          tickets_le_of_rank_le (List.le_of_mem_argmin hj hmin)
        rw [if_pos (decide_eq_true (hge.trans hle))]

theorem functionalPolicy_eq (hpos : 0 < cfg.totalFunctionalTickets) (s : State K) :
    functionalPolicy cfg true s =
      let max := min cfg.maxFunctionalJobsToSchedule
        (sharingTasks cfg Ref.jobshare cfg.fshare).length
      let rounds := functionalOrder cfg s
      if max = 0 then some s
      else if rounds.sortList.length < max then none
      else
        some (destributeFtickets cfg true rounds.categories
          (rounds.sortList.foldl (resetPending cfg true) rounds.state)) := by
  have hbuilt := (buildFunctionalCategories_spec cfg s.tickets true Ref.jobshare cfg.fshare).2
  have hqueued : cfg.numQueuedJobs = (pendingTasks cfg).length := List.countP_eq_length_filter
  have hle : (sharingTasks cfg Ref.jobshare cfg.fshare).length ≤ cfg.numQueuedJobs := by
    rw [hqueued, sharingTasks_eq]
    exact List.length_filter_le ..
  rw [← hbuilt] at hle ⊢
  unfold functionalPolicy functionalOrder runningSums
  dsimp only
  by_cases hzero : min cfg.maxFunctionalJobsToSchedule
      (buildFunctionalCategories cfg s.tickets true Ref.jobshare cfg.fshare).2 = 0
  · rw [if_pos hzero, if_neg (Nat.not_lt.mpr hzero.le)]
    exact ite_self _
  · rw [if_neg hzero, if_pos ⟨hpos, by omega⟩, if_pos (by omega)]

theorem FunctionalSim.finish {rounds : Rounds K} {σ : State K × Parts K} {tasks : List ℕ}
    {taken : List (ℕ × Turn K)} (h : FunctionalSim cfg s rounds σ tasks taken)
    (hnodup : rounds.sortList.Nodup) {s' : State K}
    (hs' : s' = destributeFtickets cfg true rounds.categories
      (rounds.sortList.foldl (resetPending cfg true) rounds.state)) :
    (∀ p ∈ taken, s'.fticket p.1 = p.2.ftickets ∧
        s'.tickets p.1 = s.tickets p.1 + p.2.ftickets) ∧
      (∀ p ∈ taken.getLast?, ∀ j ∈ sharingTasks cfg Ref.jobshare cfg.fshare,
        j ∉ taken.map Prod.fst → s'.fticket j = p.2.tried j) ∧
      s'.jobCnt = s.jobCnt := by
  obtain ⟨htickets, hfticket, -, -⟩ := foldl_resetPending cfg true rounds.sortList hnodup
    rounds.state
  have hcnt := h.counted.unset (f := resetPending cfg true) fun _ _ => rfl
  generalize rounds.sortList.foldl (resetPending cfg true) rounds.state = s₁ at *
  have hdistributed := destributeFtickets_spec cfg true rounds.categories
    (h.waiting.perm.nodup_iff.mpr h.waiting.nodup) s₁
  rw [← hs'] at hdistributed
  have hnexts : ∀ j ∈ nexts rounds.categories, j ∈ tasks := by
    intro j hj
    obtain ⟨c, hc, hjc⟩ := List.mem_flatMap.mp hj
    exact h.waiting.mem_tasks hc (List.mem_cons_of_mem _ hjc)
  refine ⟨?_, ?_, ?_⟩
  · intro p hp
    obtain ⟨hnot, hresult⟩ := h.results p hp
    have hmem : p.1 ∈ rounds.sortList := by
      rw [h.order]
      exact List.mem_map_of_mem hp
    have hvalue : s'.fticket p.1 = p.2.ftickets := by
      rw [hdistributed.kept p.1 fun hj => hnot (hnexts p.1 hj), hfticket, hresult]
    refine ⟨hvalue, ?_⟩
    rw [hdistributed.tickets, if_neg fun hj => hnot (hnexts p.1 hj.2), add_zero, htickets,
      if_pos ⟨rfl, hmem⟩, h.tickets, hresult]
  · intro p hp j hj hnot
    rw [← h.order] at hnot
    obtain ⟨c, hc, hjc⟩ := h.waiting.exists_category ((h.cover j hj).resolve_left hnot)
    rw [← h.tried p hp c hc j hjc, ← hfticket]
    rcases List.mem_cons.mp hjc with rfl | hnext
    · apply hdistributed.kept
      intro hmem
      obtain ⟨d, hd, hcd⟩ := List.mem_flatMap.mp hmem
      exact h.waiting.first_notMem hc hd hcd
    · exact hdistributed.copied c hc j hnext
  · rw [hs', jobCnt_destributeFtickets, hcnt]

variable [IsStrictOrderedRing K]

/-- With weights and previous tickets that are not negative, no sum is. -/
theorem sumsReachMinusOne_of_sound (hsound : cfg.Sound)
    (hprevious : ∀ j ∈ sharingTasks cfg Ref.jobshare cfg.fshare, 0 ≤ s.tickets j) :
    SumsReachMinusOne cfg s := by
  intro _
  have hweight := weighting_nonneg hsound
  apply Greedy.always_of_invariant fun σ => σ.2.Nonneg
  · intro σ j hsums
    exact activeSums_nonneg hsums
  · intro σ tasks hsub hsums hne
    obtain ⟨j, hj⟩ := List.exists_mem_of_ne_nil tasks hne
    refine ⟨j, hj, ?_⟩
    have htried : 0 ≤ triedFtickets cfg j σ.2 σ.1 :=
      (calcIntern_only cfg σ.1 (addThousandth_nonneg hsums) hweight
        (List.mem_singleton_self j)).2
    have hsum := add_nonneg (hprevious j (hsub hj)) htried
    exact le_trans (by norm_num) hsum
  · exact ⟨hsound.sum_nonneg, hsound.sumJob_nonneg⟩

/-- The loop over the categories is the brute force, as long as the sums reach -1. -/
theorem functionalEqualsBruteForce_iff (hnamed : cfg.TasksNamed) (s : State K) :
    FunctionalEqualsBruteForce cfg s ↔ SumsReachMinusOne cfg s := by
  refine imp_congr_right fun hpos => ?_
  have hbuilt := (buildFunctionalCategories_spec cfg s.tickets true Ref.jobshare cfg.fshare).2
  have hwaiting := waiting_buildFunctionalCategories hnamed s.tickets Ref.jobshare cfg.fshare
  have hpolicy := functionalPolicy_eq hpos s
  rw [functionalBruteForceOrder_eq hnamed, Greedy.take_run]
  have hinit : FunctionalSim cfg s {
      state := s
      categories := (buildFunctionalCategories cfg s.tickets true Ref.jobshare cfg.fshare).1
      sums := runningSums cfg
      sortList := [] } (s, runningSums cfg) (sharingTasks cfg Ref.jobshare cfg.fshare) [] :=
    ⟨rfl, rfl, fun _ _ _ => rfl, rfl, fun _ _ => rfl, by simp, by simp, fun _ hj => Or.inr hj,
      hwaiting⟩
  obtain ⟨σ, tasks, hsim⟩ := exists_functionalSim hnamed hinit
    (min cfg.maxFunctionalJobsToSchedule (sharingTasks cfg Ref.jobshare cfg.fshare).length)
  rw [List.nil_append, ← hbuilt] at hsim
  change FunctionalSim cfg s (functionalOrder cfg s) σ tasks _ at hsim
  rw [hbuilt] at hsim
  rw [← Greedy.Always.congr (fun σ tasks _ => functionalPick_eq_argmin_iff s.tickets σ tasks)]
  generalize hmax : min cfg.maxFunctionalJobsToSchedule
    (sharingTasks cfg Ref.jobshare cfg.fshare).length = max at *
  constructor
  · rintro ⟨horder, -⟩
    rw [← Greedy.runBy_order_iff, ← hsim.order, horder]
  · intro h
    rw [Greedy.runBy_eq_run h] at hsim
    refine ⟨hsim.order, ?_⟩
    dsimp only at hpolicy
    split_ifs at hpolicy with hzero hless
    · rw [hzero]
      exact ⟨s, hpolicy, by simp [Greedy.run, Greedy.runBy], by simp [Greedy.run, Greedy.runBy],
        rfl⟩
    · rw [hsim.order, List.length_map, Greedy.length_run, ← hmax] at hless
      omega
    · refine ⟨_, hpolicy, hsim.finish ?_ rfl⟩
      rw [hsim.order]
      exact Greedy.nodup_run hwaiting.nodup _ _

end Policy

end GridEngine.TicketPolicies
