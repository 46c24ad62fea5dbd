import GridEngine.FunctionalBruteForce
import GridEngine.PolicyHierarchy

/-!
# The shared override policy against brute force

The loop over the first tasks of the categories compares override tickets only. It takes the tasks
that the brute force takes just when the largest sum of tickets always comes with the most override
tickets.
-/

namespace GridEngine.TicketPolicies
open GreedyRuns

section Tickets
variable {K : Type} [Field K] {cfg : Config K} {s t : State K} {j k : ℕ}

/-- The override tickets of a task, were it to run next. -/
def triedOtickets (cfg : Config K) (jref : ℕ) (s : State K) : K :=
  (calcPjobOverrideTicketsShared cfg jref s).oticket jref

theorem ownerOtickets_eq (cfg : Config K) (jref : ℕ) (s : State K) (owner : Owner) :
    ownerOtickets cfg jref s owner = (ownerElem cfg cfg.oticket jref owner).elim 0 fun object =>
      (cfg.oticket owner object : K) / ((s.jobCnt owner object + 1 : ℕ) : K) := by
  unfold ownerOtickets ownerElem
  cases (cfg.ref jref).owner owner with
  | none => rfl
  | some object =>
      by_cases hzero : cfg.oticket owner object = 0
      · simp [Option.filter_some, hzero]
      · simp [Option.filter_some, hzero, Nat.pos_of_ne_zero hzero]

theorem triedOtickets_eq (cfg : Config K) (jref : ℕ) (s : State K) :
    triedOtickets cfg jref s = ownerOtickets cfg jref s .user + ownerOtickets cfg jref s .project +
      ownerOtickets cfg jref s .department + ((cfg.ref jref).overrideTickets : K) := by
  rw [triedOtickets, calcPjobOverrideTicketsShared]
  exact Function.update_self ..

theorem triedOtickets_of_kind
    (h : taskKind cfg Ref.overrideTickets cfg.oticket j =
      taskKind cfg Ref.overrideTickets cfg.oticket k) (s : State K) :
    triedOtickets cfg j s = triedOtickets cfg k s := by
  have hjob : (cfg.ref j).overrideTickets = (cfg.ref k).overrideTickets := (Prod.mk.inj h).1
  simp only [triedOtickets_eq, ownerOtickets_eq, ownerElem_of_kind h, hjob]

theorem triedOtickets_congr (h : CountsAlike cfg.oticket s t) (j : ℕ) :
    triedOtickets cfg j s = triedOtickets cfg j t := by
  have howner : ∀ owner, ownerOtickets cfg j s owner = ownerOtickets cfg j t owner := by
    intro owner
    rw [ownerOtickets_eq, ownerOtickets_eq]
    cases helem : ownerElem cfg cfg.oticket j owner with
    | none => rfl
    | some object => simp only [Option.elim_some, h owner object (ownerElem_ne_zero helem)]
  simp only [triedOtickets_eq, howner]

end Tickets

section Ranks
variable {K : Type} {cfg : Config K} {j k : ℕ}

/-- More override tickets come first, then the smaller job number and the smaller task number. -/
def overrideRank (cfg : Config K) (otickets : K) (jref : ℕ) : Kᵒᵈ ×ₗ ℕ ×ₗ ℕ :=
  toLex (OrderDual.toDual otickets, toLex ((cfg.ref jref).jobNumber, (cfg.ref jref).taskNumber))

theorem eq_of_overrideRank (h : cfg.TasksNamed) {x y : K} (hj : j < cfg.numJobs)
    (hk : k < cfg.numJobs) (heq : overrideRank cfg x j = overrideRank cfg y k) : j = k := by
  simp only [overrideRank, toLex_inj, Prod.mk.injEq] at heq
  exact h.unique j hj k hk heq.2.1 heq.2.2

theorem overrideRank_lt_iff [LinearOrder K] {x y : K} :
    overrideRank cfg x j < overrideRank cfg y k ↔
      y < x ∨ (x = y ∧ ((cfg.ref j).jobNumber < (cfg.ref k).jobNumber ∨
        ((cfg.ref j).jobNumber = (cfg.ref k).jobNumber ∧
          (cfg.ref j).taskNumber < (cfg.ref k).taskNumber))) := by
  simp only [overrideRank, Prod.Lex.toLex_lt_toLex, OrderDual.toDual_lt_toDual,
    EmbeddingLike.apply_eq_iff_eq]

/-- A candidate comes before another one. -/
def Best.overrideKey (cfg : Config K) (best : Best K) : Kᵒᵈ ×ₗ ℕ ×ₗ ℕ :=
  overrideRank cfg best.tickets best.ref

theorem beatsOverride_some_iff [LinearOrder K] (candidate best : Best K) :
    beatsOverride cfg candidate.tickets candidate.ref (some best) = true ↔
      candidate.overrideKey cfg < best.overrideKey cfg := by
  rw [Best.overrideKey, Best.overrideKey, overrideRank_lt_iff]
  simp only [beatsOverride, Bool.or_eq_true, Bool.and_eq_true, decide_eq_true_eq]
  exact or_congr_right (and_congr eq_comm (or_congr_right (and_congr_left fun _ => eq_comm)))

end Ranks

section BruteForce
variable {K : Type} [Field K] {cfg : Config K} {previous : ℕ → K} {tasks : List ℕ}

/-- The brute force of the shared override policy. Its state are the counters. The task with the
largest sum of its previous tickets and the override tickets that it would get comes next and is
considered active. -/
def overrideBruteForce (cfg : Config K) (previous : ℕ → K) :
    Greedy (State K) ℕ K (Kᵒᵈ ×ₗ ℕ ×ₗ ℕ ×ₗ ℕ) where
  key s jref := rank cfg (previous jref + triedOtickets cfg jref s) jref
  take s jref := sgeSetJobCnts cfg jref s
  result s jref := triedOtickets cfg jref s

theorem overrideBruteForce_strict (h : cfg.TasksNamed) (previous : ℕ → K)
    (htasks : ∀ j ∈ tasks, j < cfg.numJobs) : (overrideBruteForce cfg previous).Strict tasks :=
  fun _ j hj k hk heq => eq_of_rank h (htasks j hj) (htasks k hk) heq

theorem overrideBruteForce_alike (cfg : Config K) (previous : ℕ → K) :
    (overrideBruteForce cfg previous).Alike (hasShares cfg Ref.overrideTickets cfg.oticket)
      (CountsAlike cfg.oticket) where
  key := by
    intro s t j hcounts _
    simp only [overrideBruteForce, triedOtickets_congr hcounts]
  result := fun hcounts _ => triedOtickets_congr hcounts _
  take := fun hcounts _ => hcounts.set cfg _
  skip := fun hcounts hshares => hcounts.skip hshares

variable [LinearOrder K]

/-- No task of the same category comes before the task. -/
def ComesFirst (cfg : Config K) (previous : ℕ → K) (tasks : List ℕ) (jref : ℕ) : Prop :=
  ∀ k ∈ tasks, taskKind cfg Ref.overrideTickets cfg.oticket k =
    taskKind cfg Ref.overrideTickets cfg.oticket jref →
      rank cfg (previous jref) jref ≤ rank cfg (previous k) k

instance (cfg : Config K) (previous : ℕ → K) (tasks : List ℕ) :
    DecidablePred (ComesFirst cfg previous tasks) := fun jref =>
  inferInstanceAs (Decidable (∀ k ∈ tasks, taskKind cfg Ref.overrideTickets cfg.oticket k =
    taskKind cfg Ref.overrideTickets cfg.oticket jref →
      rank cfg (previous jref) jref ≤ rank cfg (previous k) k))

/-- The task with the most override tickets among those that come first in their categories. -/
def overridePick (cfg : Config K) (previous : ℕ → K) (s : State K) (tasks : List ℕ) : Option ℕ :=
  (tasks.filter fun j => ComesFirst cfg previous tasks j).argmin fun j =>
    overrideRank cfg (triedOtickets cfg j s) j

/-- When the comparison of the override tickets finds the task with the largest sum. -/
theorem overridePick_eq_argmin_iff [IsStrictOrderedRing K] (hnamed : cfg.TasksNamed)
    (htasks : ∀ j ∈ tasks, j < cfg.numJobs) (s : State K) :
    overridePick cfg previous s tasks =
        tasks.argmin ((overrideBruteForce cfg previous).key s) ↔
      ∀ j ∈ tasks, (∀ k ∈ tasks, (overrideBruteForce cfg previous).key s j ≤
          (overrideBruteForce cfg previous).key s k) →
        ∀ k ∈ tasks, ComesFirst cfg previous tasks k →
          overrideRank cfg (triedOtickets cfg j s) j ≤
            overrideRank cfg (triedOtickets cfg k s) k := by
  have hstrict := overrideBruteForce_strict hnamed previous htasks s
  constructor
  · intro heq j hj hmin k hk hfirst
    rw [argmin_eq_some hstrict hj hmin] at heq
    exact List.le_of_mem_argmin (List.mem_filter.mpr ⟨hk, decide_eq_true hfirst⟩) heq
  · intro h
    cases hmin : tasks.argmin ((overrideBruteForce cfg previous).key s) with
    | none =>
        rw [List.argmin_eq_none.mp hmin]
        rfl
    | some j =>
        have hj := List.argmin_mem hmin
        have hle : ∀ k ∈ tasks, (overrideBruteForce cfg previous).key s j ≤
            (overrideBruteForce cfg previous).key s k := fun k hk =>
          List.le_of_mem_argmin hk hmin
        have hfirst : ComesFirst cfg previous tasks j := by
          intro k hk hkind
          have hkey := hle k hk
          simp only [overrideBruteForce, triedOtickets_of_kind hkind s] at hkey
          rwa [← not_lt, rank_add_lt, not_lt] at hkey
        refine argmin_eq_some ?_ (List.mem_filter.mpr ⟨hj, decide_eq_true hfirst⟩) ?_
        · intro a ha b hb heq
          exact eq_of_overrideRank hnamed (htasks a (List.mem_filter.mp ha).1)
            (htasks b (List.mem_filter.mp hb).1) heq
        · intro k hk
          obtain ⟨hk, hkfirst⟩ := List.mem_filter.mp hk
          exact h j hj hle k hk (of_decide_eq_true hkfirst)

end BruteForce

section Tries
variable {K : Type} [Field K] [LinearOrder K] {cfg : Config K} {tasks : List ℕ}

/-- The candidate of a category. -/
def overrideCandidate (cfg : Config K) (s : State K) (category : Category) : Best K where
  ref := category.first
  tickets := triedOtickets cfg category.first s

/-- The loop over the first tasks of the categories finds the best one of them. -/
theorem foldl_tryOverride_isBest (cfg : Config K) (s : State K) (categories : List Category) :
    ((categories.foldl (tryOverride cfg) (s, none)).1.tickets = s.tickets ∧
        (categories.foldl (tryOverride cfg) (s, none)).1.jobCnt = s.jobCnt) ∧
      IsBest (fun _ => True) (Best.overrideKey cfg) (categories.map (overrideCandidate cfg s))
        (categories.foldl (tryOverride cfg) (s, none)).2 := by
  have hinit : s.tickets = s.tickets ∧ s.jobCnt = s.jobCnt := ⟨rfl, rfl⟩
  refine @foldl_better _ _ _ _ _ (fun _ => True) _ (Best.overrideKey cfg) (fun _ h => h)
    (overrideCandidate cfg s) _ (fun s' => s'.tickets = s.tickets ∧ s'.jobCnt = s.jobCnt)
    categories ?_ s hinit
  intro s' best category _ hs' _
  refine ⟨hs', ?_⟩
  have hcounts : CountsAlike cfg.oticket s' s := fun owner object _ => by rw [hs'.2]
  have hvalue : (calcPjobOverrideTicketsShared cfg category.first s').oticket category.first =
      (overrideCandidate cfg s category).tickets := triedOtickets_congr hcounts category.first
  unfold tryOverride
  dsimp only
  rw [hvalue]
  change (if beatsOverride cfg (overrideCandidate cfg s category).tickets
    (overrideCandidate cfg s category).ref best then some (overrideCandidate cfg s category)
      else best) = _
  generalize overrideCandidate cfg s category = tried
  cases best with
  | none => rfl
  | some best =>
      rw [better]
      by_cases hbeats : tried.overrideKey cfg < best.overrideKey cfg
      · rw [if_pos hbeats, if_pos ((beatsOverride_some_iff tried best).mpr hbeats)]
      · rw [if_neg hbeats, if_neg fun hb => hbeats ((beatsOverride_some_iff tried best).mp hb)]

theorem overridePick_eq {s t : State K} {previous : ℕ → K} {categories : List Category}
    {best : Option (Best K)} (hnamed : cfg.TasksNamed) (htasks : ∀ j ∈ tasks, j < cfg.numJobs)
    (h : Grouped cfg previous Ref.overrideTickets cfg.oticket tasks categories)
    (hcounts : CountsAlike cfg.oticket s t)
    (hbest : IsBest (fun _ => True) (Best.overrideKey cfg)
      (categories.map (overrideCandidate cfg s)) best) :
    overridePick cfg previous t tasks = best.map Best.ref := by
  have hfirsts : ∀ j, j ∈ tasks.filter (fun j => ComesFirst cfg previous tasks j) ↔
      j ∈ firsts categories := by
    intro j
    rw [h.mem_firsts_iff hnamed htasks, List.mem_filter, decide_eq_true_eq]
    exact Iff.rfl
  cases best with
  | none =>
      have hnone : tasks.filter (fun j => ComesFirst cfg previous tasks j) = [] := by
        rw [List.eq_nil_iff_forall_not_mem]
        intro j hj
        obtain ⟨category, hcategory, -⟩ := List.mem_map.mp ((hfirsts j).mp hj)
        exact hbest _ (List.mem_map_of_mem hcategory) trivial
      rw [overridePick, hnone]
      rfl
  | some best =>
      obtain ⟨hmem, -, hmin⟩ := hbest
      obtain ⟨category, hcategory, rfl⟩ := List.mem_map.mp hmem
      refine argmin_eq_some ?_ ((hfirsts _).mpr (List.mem_map_of_mem hcategory)) ?_
      · intro a ha b hb heq
        exact eq_of_overrideRank hnamed (htasks a (List.mem_filter.mp ha).1)
          (htasks b (List.mem_filter.mp hb).1) heq
      · intro j hj
        obtain ⟨c, hc, rfl⟩ := List.mem_map.mp ((hfirsts j).mp hj)
        have hle := hmin _ (List.mem_map_of_mem hc)
        simp only [Best.overrideKey, overrideCandidate, triedOtickets_congr hcounts] at hle
        exact hle

end Tries

section Rounds
variable {K : Type} [Field K] [LinearOrder K] {cfg : Config K} {s₀ : State K}

/-- The rounds have taken what the comparison of the override tickets picks. -/
structure OverrideSim (cfg : Config K) (s₀ : State K) (rounds : OverrideRounds K) (t : State K)
    (tasks : List ℕ) (taken : List (ℕ × K)) : Prop where
  order : rounds.sortList = taken.map Prod.fst
  counts : CountsAlike cfg.oticket rounds.state t
  counted : Counted cfg s₀ rounds.state rounds.sortList
  results : ∀ p ∈ taken, p.1 ∉ tasks ∧ rounds.state.tickets p.1 = s₀.tickets p.1 + p.2
  remaining : ∀ j ∈ tasks, rounds.state.tickets j = s₀.tickets j
  waiting : Waiting cfg s₀.tickets Ref.overrideTickets cfg.oticket tasks rounds.categories

variable {rounds : OverrideRounds K} {t : State K} {tasks : List ℕ} {taken : List (ℕ × K)}

theorem OverrideSim.active (h : OverrideSim cfg s₀ rounds t tasks taken) {winner : ℕ}
    (hfirst : winner ∈ firsts rounds.categories) {s₁ : State K}
    (htickets : s₁.tickets = rounds.state.tickets) (hjobCnt : s₁.jobCnt = rounds.state.jobCnt)
    {otickets : K} (hotickets : otickets = triedOtickets cfg winner t) :
    OverrideSim cfg s₀ {
        state := addTickets winner otickets (sgeSetJobCnts cfg winner s₁)
        categories := removeWinner winner rounds.categories
        sortList := rounds.sortList ++ [winner] }
      ((overrideBruteForce cfg s₀.tickets).take t winner) (tasks.erase winner)
      (taken ++ [(winner, (overrideBruteForce cfg s₀.tickets).result t winner)]) := by
  have hmem := h.waiting.firsts_subset hfirst
  have hnot := h.waiting.nodup.not_mem_erase (a := winner)
  have hcounted : Counted cfg s₀ s₁ rounds.sortList := fun owner object => by
    rw [hjobCnt]
    exact h.counted owner object
  have hcounts : CountsAlike cfg.oticket s₁ t := fun owner object hne => by
    rw [hjobCnt]
    exact h.counts owner object hne
  have hkept : ∀ j, j ≠ winner →
      (addTickets winner otickets (sgeSetJobCnts cfg winner s₁)).tickets j =
        rounds.state.tickets j := by
    intro j hne
    refine (Function.update_of_ne hne ..).trans ?_
    change s₁.tickets j = _
    rw [htickets]
  constructor
  · simp [h.order]
  · exact hcounts.set cfg winner
  · exact hcounted.set winner
  · intro p hp
    rcases List.mem_append.mp hp with hp | hp
    · obtain ⟨hgone, hresult⟩ := h.results p hp
      have hne : p.1 ≠ winner := fun heq => hgone (heq ▸ hmem)
      exact ⟨fun hmem => hgone (List.mem_of_mem_erase hmem), (hkept p.1 hne).trans hresult⟩
    · rw [List.mem_singleton.mp hp]
      refine ⟨hnot, (Function.update_self ..).trans ?_⟩
      change s₁.tickets winner + otickets = _
      rw [htickets, h.remaining winner hmem, hotickets]
      rfl
  · intro j hj
    have hne : j ≠ winner := fun heq => hnot (heq ▸ hj)
    exact (hkept j hne).trans (h.remaining j (List.mem_of_mem_erase hj))
  · exact h.waiting.remove hfirst

theorem OverrideSim.step (hnamed : cfg.TasksNamed)
    (h : OverrideSim cfg s₀ rounds t tasks taken) :
    (overridePick cfg s₀.tickets t tasks = none ∧ overrideRound cfg rounds = none) ∨
    ∃ j rounds', overridePick cfg s₀.tickets t tasks = some j ∧
      overrideRound cfg rounds = some rounds' ∧
      OverrideSim cfg s₀ rounds' ((overrideBruteForce cfg s₀.tickets).take t j) (tasks.erase j)
        (taken ++ [(j, (overrideBruteForce cfg s₀.tickets).result t j)]) := by
  obtain ⟨⟨htickets, hjobCnt⟩, hbest⟩ := foldl_tryOverride_isBest cfg rounds.state rounds.categories
  have hpick := overridePick_eq hnamed h.waiting.bound h.waiting.toGrouped h.counts hbest
  unfold overrideRound
  generalize rounds.categories.foldl (tryOverride cfg) (rounds.state, none) = acc
    at htickets hjobCnt hbest hpick ⊢
  obtain ⟨s₁, best⟩ := acc
  dsimp only at htickets hjobCnt hbest hpick ⊢
  cases best with
  | none => exact Or.inl ⟨hpick, rfl⟩
  | some best =>
      have hfirst := mem_firsts_of_mem_map (f := overrideCandidate cfg rounds.state)
        (fun _ => rfl) hbest.1
      refine Or.inr ⟨best.ref, _, hpick, rfl, h.active hfirst htickets hjobCnt ?_⟩
      obtain ⟨category, -, rfl⟩ := List.mem_map.mp hbest.1
      exact triedOtickets_congr h.counts category.first

theorem overrideRounds_eq_iterate (cfg : Config K) (n : ℕ) (rounds : OverrideRounds K) :
    overrideRounds cfg n rounds = iterate (overrideRound cfg) n rounds := by
  induction n generalizing rounds with
  | zero => rfl
  | succ n ih =>
      rw [overrideRounds, iterate]
      cases overrideRound cfg rounds with
      | none => rfl
      | some rounds' => exact ih rounds'

theorem exists_overrideSim (hnamed : cfg.TasksNamed)
    (h : OverrideSim cfg s₀ rounds t tasks taken) (n : ℕ) :
    ∃ t' tasks', OverrideSim cfg s₀ (overrideRounds cfg n rounds) t' tasks'
      (taken ++ (overrideBruteForce cfg s₀.tickets).runBy (overridePick cfg s₀.tickets) n t
        tasks) := by
  rw [overrideRounds_eq_iterate]
  exact exists_iterate (fun h => h.step hnamed) n h

end Rounds

section Policy
variable {K : Type} [Field K] [LinearOrder K] {cfg : Config K} {s : State K}

/-- The brute force over all pending tasks, without the turns of those that have no override
tickets. -/
def overrideBruteForceOrder (cfg : Config K) (s : State K) : List (ℕ × K) :=
  ((overrideBruteForce cfg s.tickets).run (pendingTasks cfg).length s (pendingTasks cfg)).filter
    fun p => hasShares cfg Ref.overrideTickets cfg.oticket p.1

/-- The rounds over the first tasks of the categories. -/
def overrideOrder (cfg : Config K) (s : State K) : OverrideRounds K :=
  let built := buildFunctionalCategories cfg s.tickets true Ref.overrideTickets cfg.oticket
  overrideRounds cfg built.2 { state := s, categories := built.1, sortList := [] }

/-- The shared override policy orders the tasks as the brute force does and gives them the same
override tickets, and no counter has changed. -/
def OverrideEqualsBruteForce (cfg : Config K) (s : State K) : Prop :=
  let ordered := overrideBruteForceOrder cfg s
  (overrideOrder cfg s).sortList = ordered.map Prod.fst ∧
    ∃ s', calculatePendingSharedOverrideTickets cfg true s = some s' ∧
      (∀ p ∈ ordered, s'.oticket p.1 = p.2 ∧ s'.tickets p.1 = s.tickets p.1 + p.2) ∧
      s'.jobCnt = s.jobCnt

/-- Before each step of the brute force the task with the largest sum has the most override tickets
of the tasks that come first in their categories, and the smallest job number and task number of
those that have as many. -/
def LargestSumHasMostOtickets (cfg : Config K) (s : State K) : Prop :=
  (overrideBruteForce cfg s.tickets).Always
    (fun t tasks => ∀ j ∈ tasks, (∀ k ∈ tasks, (overrideBruteForce cfg s.tickets).key t j ≤
        (overrideBruteForce cfg s.tickets).key t k) →
      ∀ k ∈ tasks, ComesFirst cfg s.tickets tasks k →
        overrideRank cfg (triedOtickets cfg j t) j ≤ overrideRank cfg (triedOtickets cfg k t) k)
    (sharingTasks cfg Ref.overrideTickets cfg.oticket).length s
    (sharingTasks cfg Ref.overrideTickets cfg.oticket)

theorem overrideBruteForceOrder_eq (hnamed : cfg.TasksNamed) (s : State K) :
    overrideBruteForceOrder cfg s = (overrideBruteForce cfg s.tickets).run
      (sharingTasks cfg Ref.overrideTickets cfg.oticket).length s
      (sharingTasks cfg Ref.overrideTickets cfg.oticket) := by
  rw [sharingTasks_eq]
  refine Greedy.filter_run (overrideBruteForce_alike cfg s.tickets) ?_ fun _ _ _ => rfl
  refine overrideBruteForce_strict hnamed s.tickets fun j hj => ?_
  exact List.mem_range.mp (List.mem_filter.mp hj).1

variable [IsStrictOrderedRing K]

/-- The loop over the categories is the brute force, as long as the largest sum comes with the most
override tickets. -/
theorem overrideEqualsBruteForce_iff (hnamed : cfg.TasksNamed) (s : State K) :
    OverrideEqualsBruteForce cfg s ↔ LargestSumHasMostOtickets cfg s := by
  have hbuilt :=
    (buildFunctionalCategories_spec cfg s.tickets true Ref.overrideTickets cfg.oticket).2
  have hwaiting :=
    waiting_buildFunctionalCategories hnamed s.tickets Ref.overrideTickets cfg.oticket
  obtain ⟨s', hs', hassigns⟩ := calculatePendingSharedOverrideTickets_spec cfg true s
  have hinit : OverrideSim cfg s {
      state := s
      categories :=
        (buildFunctionalCategories cfg s.tickets true Ref.overrideTickets cfg.oticket).1
      sortList := [] } s (sharingTasks cfg Ref.overrideTickets cfg.oticket) [] :=
    ⟨rfl, fun _ _ _ => rfl, fun _ _ => rfl, by simp, fun _ _ => rfl, hwaiting⟩
  obtain ⟨t, tasks, hsim⟩ := exists_overrideSim hnamed hinit
    (buildFunctionalCategories cfg s.tickets true Ref.overrideTickets cfg.oticket).2
  rw [List.nil_append] at hsim
  change OverrideSim cfg s (overrideOrder cfg s) t tasks _ at hsim
  rw [hbuilt] at hsim
  unfold OverrideEqualsBruteForce LargestSumHasMostOtickets
  rw [overrideBruteForceOrder_eq hnamed, ← Greedy.Always.congr fun t tasks hsub =>
    overridePick_eq_argmin_iff hnamed (fun j hj => lt_of_sharing (hsub hj)) t]
  constructor
  · rintro ⟨horder, -⟩
    rw [← Greedy.runBy_order_iff, ← hsim.order, horder]
  · intro h
    rw [Greedy.runBy_eq_run h] at hsim
    refine ⟨hsim.order, s', hs', ?_⟩
    have hlast : s' = (overrideOrder cfg s).sortList.foldl
        (fun s jref => sgeUnsetJobCnts cfg jref s) (overrideOrder cfg s).state := by
      unfold calculatePendingSharedOverrideTickets at hs'
      dsimp only at hs'
      split_ifs at hs' with hless
      exact (Option.some.inj hs').symm
    constructor
    · intro p hp
      have htickets : s'.tickets p.1 = s.tickets p.1 + p.2 := by
        rw [hlast, (foldl_sgeUnsetJobCnts cfg _ _).1]
        exact (hsim.results p hp).2
      refine ⟨?_, htickets⟩
      have hadded := hassigns.tickets p.1
      rw [if_pos ⟨rfl, Greedy.mem_of_mem_run hp⟩, htickets] at hadded
      exact (add_left_cancel hadded).symm
    · rw [hlast]
      exact hsim.counted.unset fun _ _ => rfl

/-- When the previous tickets do not matter and the job numbers follow the submission times. -/
theorem largestSumHasMostOtickets_of_equal (hnamed : cfg.TasksNamed)
    (hprevious : ∀ j ∈ sharingTasks cfg Ref.overrideTickets cfg.oticket,
      ∀ k ∈ sharingTasks cfg Ref.overrideTickets cfg.oticket, s.tickets j = s.tickets k)
    (htimes : ∀ j ∈ sharingTasks cfg Ref.overrideTickets cfg.oticket,
      ∀ k ∈ sharingTasks cfg Ref.overrideTickets cfg.oticket,
        (cfg.ref j).jobNumber < (cfg.ref k).jobNumber →
          (cfg.ref j).submissionTime ≤ (cfg.ref k).submissionTime) :
    LargestSumHasMostOtickets cfg s := by
  apply Greedy.always_of_invariant fun _ => True
  · exact fun _ _ _ => trivial
  · intro t tasks hsub _ j hj hmin k hk _
    have hjs := hsub hj
    have hks := hsub hk
    have hkey := hmin k hk
    rw [← not_lt] at hkey ⊢
    intro hlt
    apply hkey
    simp only [overrideBruteForce]
    rw [rank_lt_iff]
    rcases overrideRank_lt_iff.mp hlt with hmore | ⟨heq, hjob⟩
    · left
      rw [hprevious j hjs k hks]
      exact (add_lt_add_iff_left _).mpr hmore
    · refine Or.inr ⟨by rw [heq, hprevious j hjs k hks], ?_⟩
      rcases hjob with hjob | ⟨hjob, htask⟩
      · rcases (htimes k hks j hjs hjob).lt_or_eq with hbefore | hsame
        · exact Or.inl hbefore
        · exact Or.inr ⟨hsame, Or.inl hjob⟩
      · have htime := hnamed.submissionTime k (lt_of_sharing hks) j (lt_of_sharing hjs) hjob
        exact Or.inr ⟨htime, Or.inr ⟨hjob, htask⟩⟩
  · trivial

end Policy

section Both
variable {K : Type} [Field K] [LinearOrder K] [IsStrictOrderedRing K] {cfg : Config K}

/-- When the loops over the categories do what the brute force does. -/
theorem equalsBruteForce_iff (hnamed : cfg.TasksNamed) (s : State K) :
    (FunctionalEqualsBruteForce cfg s ↔ SumsReachMinusOne cfg s) ∧
      (OverrideEqualsBruteForce cfg s ↔ LargestSumHasMostOtickets cfg s) :=
  ⟨functionalEqualsBruteForce_iff hnamed s, overrideEqualsBruteForce_iff hnamed s⟩

/-- Two pending tasks. Only the first one has functional shares, and the second one has more
override tickets. -/
def twoJobs : Config ℚ where
  numJobs := 2
  ref j := ⟨j + 1, 1, j + 1, 1 - j, j + 1, none, fun _ => none, none, true⟩
  fshare _ _ := 0
  oticket _ _ := 0
  root := none
  totalShareTreeTickets := 0
  totalFunctionalTickets := 100
  maxFunctionalJobsToSchedule := 200
  shareFunctionalShares := true
  shareOverrideTickets := true
  weightOwner _ := 1
  weightJob := 1
  sumOfFunctionalShares _ := 0
  sumOfJobFunctionalShares := 0

theorem twoJobs_named : twoJobs.TasksNamed := ⟨by decide, by decide⟩

/-- With the override policy first in the hierarchy. -/
theorem twoJobs_equalsBruteForce :
    FunctionalEqualsBruteForce twoJobs noTickets ∧ OverrideEqualsBruteForce twoJobs noTickets := by
  obtain ⟨hfunctional, hoverride⟩ := equalsBruteForce_iff twoJobs_named noTickets
  refine ⟨hfunctional.mpr (sumsReachMinusOne_of_sound ?_ fun _ _ => le_rfl),
    hoverride.mpr (largestSumHasMostOtickets_of_equal twoJobs_named (fun _ _ _ _ => rfl) ?_)⟩
  · exact ⟨fun _ => zero_le_one, zero_le_one, fun _ => le_rfl, le_rfl⟩
  · exact fun j _ k _ hjob => hjob.le

/-- The orders of the override policy and of its brute force, behind the functional policy. -/
theorem twoJobs_orders :
    (functionalPolicy twoJobs true noTickets).map (fun s =>
      ((overrideOrder twoJobs s).sortList, (overrideBruteForceOrder twoJobs s).map Prod.fst)) =
        some ([1, 0], [0, 1]) := by
  decide +kernel

/-- Behind the functional policy, the sums are 101 and 2, but the second task comes first. -/
theorem twoJobs_reversed :
    twoJobs.TasksNamed ∧ ∃ s, functionalPolicy twoJobs true noTickets = some s ∧
      ¬ OverrideEqualsBruteForce twoJobs s := by
  obtain ⟨s, hs, horders⟩ := Option.map_eq_some_iff.mp twoJobs_orders
  refine ⟨twoJobs_named, s, hs, fun hequals => ?_⟩
  have horder := hequals.1
  rw [(Prod.mk.inj horders).1, (Prod.mk.inj horders).2] at horder
  exact absurd horder (by decide)

end Both

end GridEngine.TicketPolicies
