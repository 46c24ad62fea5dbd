import GridEngine.FunctionalRounds
import GridEngine.OverrideRounds
import GridEngine.ShareTreeJobNodes
import Mathlib.Data.Rat.Floor

/-!
# The policy hierarchy

In every run of the policy loop `jref->tickets` of a pending task is the sum of what the dependent
policies have assigned to it, unless the limit `max_functional_jobs_to_schedule` cuts a dependent
functional policy short or shared override tickets are added by a policy that is not dependent.
-/

namespace GridEngine.TicketPolicies
open Comparators

section Functional
variable {K : Type} [Field K] [LinearOrder K] {cfg : Config K} {dependent : Bool} {s : State K}
  {tasks : List ℕ}

theorem categoryRefs_perm (categories : List Category) :
    (categoryRefs categories).Perm (firsts categories ++ nexts categories) := by
  induction categories with
  | nil => exact List.Perm.refl _
  | cons category categories ih =>
      have hnexts : nexts (category :: categories) = category.next ++ nexts categories :=
        List.flatMap_cons
      rw [categoryRefs_cons, Category.refs, firsts, List.map_cons, hnexts, List.cons_append,
        List.cons_append]
      apply List.Perm.cons
      refine (ih.append_left category.next).trans ?_
      rw [← List.append_assoc, ← List.append_assoc]
      exact List.perm_append_comm.append_right _

/-- What the functional policy assigns. The first tasks of the categories that remain have
functional tickets, which are not added to `jref->tickets`. -/
structure FunctionalAccount (dependent : Bool) (tasks remaining : List ℕ) (s s' : State K) :
    Prop where
  tickets : ∀ j, s'.tickets j = s.tickets j +
    if dependent = true ∧ j ∈ tasks ∧ j ∉ remaining then s'.fticket j else 0
  nonneg : ∀ j ∈ tasks, 0 ≤ s'.fticket j
  unassigned : ∀ j ∉ tasks, s'.fticket j = s.fticket j
  sticket : s'.sticket = s.sticket
  oticket : s'.oticket = s.oticket

theorem functionalAccount_of_rounds (cfg : Config K) (dependent : Bool) (hnodup : tasks.Nodup)
    (hready : Ready tasks s) {rounds : Rounds K} (h : RoundsOk tasks s rounds) :
    FunctionalAccount dependent tasks (firsts rounds.categories) s
      (destributeFtickets cfg dependent rounds.categories
        (rounds.sortList.foldl (resetPending cfg dependent) rounds.state)) := by
  have hperm :=
    ((categoryRefs_perm rounds.categories).append_left rounds.sortList).symm.trans h.perm
  obtain ⟨hsorted, hparts, hdisjoint⟩ := List.nodup_append.mp (hperm.nodup_iff.mpr hnodup)
  obtain ⟨-, -, hfirsts⟩ := List.nodup_append.mp hparts
  have hmem : ∀ j, j ∈ tasks ↔
      j ∈ rounds.sortList ∨ j ∈ firsts rounds.categories ∨ j ∈ nexts rounds.categories := by
    intro j
    rw [← hperm.mem_iff, List.mem_append, List.mem_append]
  obtain ⟨htickets, hfticket, hsticket, hoticket⟩ :=
    foldl_resetPending cfg dependent rounds.sortList hsorted rounds.state
  have hdistributed := destributeFtickets_spec cfg dependent rounds.categories
    (List.nodup_append.mp (h.perm.nodup_iff.mpr hnodup)).2.1
    (rounds.sortList.foldl (resetPending cfg dependent) rounds.state)
  generalize rounds.sortList.foldl (resetPending cfg dependent) rounds.state = s₁ at *
  generalize destributeFtickets cfg dependent rounds.categories s₁ = s' at *
  have hsort_next : ∀ j ∈ rounds.sortList, j ∉ nexts rounds.categories := fun j hj hnext =>
    hdisjoint j hj j (List.mem_append_right _ hnext) rfl
  have hsort_first : ∀ j ∈ rounds.sortList, j ∉ firsts rounds.categories := fun j hj hfirst =>
    hdisjoint j hj j (List.mem_append_left _ hfirst) rfl
  have hnext_first : ∀ j ∈ nexts rounds.categories, j ∉ firsts rounds.categories :=
    fun j hj hfirst => hfirsts j hfirst j hj rfl
  constructor
  · intro j
    rw [hdistributed.tickets, htickets, h.only.tickets, add_assoc]
    congr 1
    by_cases hsort : j ∈ rounds.sortList
    · have hkept := hdistributed.kept j (hsort_next j hsort)
      rw [hfticket] at hkept
      simp [hmem, hsort, hsort_next j hsort, hsort_first j hsort, hkept]
    · by_cases hnext : j ∈ nexts rounds.categories
      · simp [hmem, hsort, hnext, hnext_first j hnext]
      · simp [hmem, hsort, hnext]
  · have hnonneg := h.only.nonneg hready.ftickets
    intro j hj
    by_cases hnext : j ∈ nexts rounds.categories
    · obtain ⟨category, hcategory, hnext⟩ := List.mem_flatMap.mp hnext
      rw [hdistributed.copied category hcategory j hnext, hfticket]
      exact hnonneg _ ((hmem _).mpr (Or.inr (Or.inl (List.mem_map_of_mem hcategory))))
    · rw [hdistributed.kept j hnext, hfticket]
      exact hnonneg j hj
  · intro j hj
    have hnot : j ∉ nexts rounds.categories := fun hnext =>
      hj ((hmem j).mpr (Or.inr (Or.inr hnext)))
    rw [hdistributed.kept j hnot, hfticket]
    exact h.only.fticket j hj
  · rw [hdistributed.sticket, hsticket, h.only.sticket]
  · rw [hdistributed.oticket, hoticket, h.only.oticket]

theorem FunctionalAccount.assigns {s' : State K} {remaining : List ℕ}
    (h : FunctionalAccount dependent tasks remaining s s')
    (hremaining : dependent = true → remaining = []) :
    Assigns .functional dependent tasks s s' where
  tickets := by
    intro j
    rw [h.tickets]
    cases dependent with
    | false => simp
    | true => simp [hremaining rfl, assigned]
  nonneg := h.nonneg
  unassigned := h.unassigned
  kept := by
    intro other hother j
    cases other with
    | functional => exact absurd rfl hother
    | override => exact congrFun h.oticket j
    | shareTree => exact congrFun h.sticket j

/-- When the functional policy adds to `jref->tickets` what it should: the limit does not leave
tasks behind. -/
def Config.FunctionalFine (cfg : Config K) (dependent : Bool) : Prop :=
  dependent = false ∨ cfg.totalFunctionalTickets = 0 ∨ cfg.maxFunctionalJobsToSchedule = 0 ∨
    (sharingTasks cfg Ref.jobshare cfg.fshare).length ≤ cfg.maxFunctionalJobsToSchedule

theorem functionalPolicy_spec [IsStrictOrderedRing K] (hsound : cfg.Sound) (dependent : Bool)
    (hready : Ready (sharingTasks cfg Ref.jobshare cfg.fshare) s) :
    ∃ s' tasks remaining, functionalPolicy cfg dependent s = some s' ∧
      FunctionalAccount dependent tasks remaining s s' ∧
      (cfg.FunctionalFine dependent → dependent = true → remaining = []) := by
  have hidle : FunctionalAccount dependent [] [] s s :=
    ⟨by simp, by simp, fun _ _ => rfl, rfl, rfl⟩
  obtain ⟨hperm, hpjobs⟩ := buildFunctionalCategories_spec cfg s.tickets dependent Ref.jobshare
    cfg.fshare
  have hnodup := nodup_sharingTasks cfg Ref.jobshare cfg.fshare
  unfold functionalPolicy Config.FunctionalFine
  generalize buildFunctionalCategories cfg s.tickets dependent Ref.jobshare cfg.fshare = built at *
  obtain ⟨categories, pjobs⟩ := built
  generalize sharingTasks cfg Ref.jobshare cfg.fshare = tasks at *
  dsimp only at hperm hpjobs ⊢
  by_cases htotal : 0 < cfg.totalFunctionalTickets ∧ 0 < cfg.numQueuedJobs
  · by_cases hmax : 0 < min cfg.maxFunctionalJobsToSchedule pjobs
    · have hstart : RoundsOk tasks s ⟨s, categories, ⟨cfg.sumOfFunctionalShares,
          cfg.sumOfJobFunctionalShares⟩, []⟩ :=
        ⟨hperm, OnlyFtickets.refl tasks s, ⟨hsound.sum_nonneg, hsound.sumJob_nonneg⟩⟩
      obtain ⟨hok, hlength⟩ := functionalRounds_spec cfg dependent (weighting_nonneg hsound) hnodup
        hready (min cfg.maxFunctionalJobsToSchedule pjobs) hstart (by
          rw [List.length_nil, hpjobs]
          omega)
      rw [if_pos htotal, if_pos hmax]
      generalize functionalRounds cfg dependent (getFunctionalWeightingParameters cfg)
        (min cfg.maxFunctionalJobsToSchedule pjobs) _ = rounds at *
      rw [if_neg (by rw [hlength]; simp)]
      refine ⟨_, tasks, firsts rounds.categories, rfl,
        functionalAccount_of_rounds cfg dependent hnodup hready hok, ?_⟩
      intro hfine hdependent
      -- no category remains when every task has been ordered
      have hempty : categoryRefs rounds.categories = [] := by
        have hcount := hok.perm.length_eq
        rw [List.length_append, hlength, List.length_nil] at hcount
        apply List.length_eq_zero_iff.mp
        rcases hfine with hfine | hfine | hfine | hfine
        · rw [hfine] at hdependent
          exact absurd hdependent Bool.false_ne_true
        · omega
        · omega
        · omega
      rw [eq_nil_of_categoryRefs hempty]
      rfl
    · rw [if_pos htotal, if_neg hmax]
      exact ⟨s, [], [], rfl, hidle, fun _ _ => rfl⟩
  · rw [if_neg htotal]
    exact ⟨s, [], [], rfl, hidle, fun _ _ => rfl⟩

end Functional

section Hierarchy
variable {K : Type} {cfg : Config K}

theorem pending_of_sharing {jobTickets : Ref → ℕ} {ownerTickets : Owner → ℕ → ℕ} {j : ℕ}
    (h : j ∈ sharingTasks cfg jobTickets ownerTickets) : cfg.Pending j :=
  ⟨List.mem_range.mp (List.mem_of_mem_filter h), queued_of_sharing h⟩

theorem policyHierarchyChar2enum_injective (a a' : Char) (policy : Policy)
    (h : policy ∈ policyHierarchyChar2enum a) (h' : policy ∈ policyHierarchyChar2enum a') :
    a = a' := by
  unfold policyHierarchyChar2enum at h h'
  split at h <;> split at h' <;> first | rfl | (cases h <;> cases h')

theorem nodup_sconfPhFillArray {value : List Char} (h : policyHierarchyVerifyValue value = true) :
    ((sconfPhFillArray value).map Prod.fst).Nodup := by
  have hcontained :
      (if namesNone value then [] else value.filterMap policyHierarchyChar2enum).Nodup := by
    unfold policyHierarchyVerifyValue at h
    by_cases hnone : namesNone value = true
    · rw [if_pos hnone]
      exact List.nodup_nil
    · rw [eq_false_of_ne_true hnone, Bool.false_or, Bool.and_eq_true, decide_eq_true_eq] at h
      rw [if_neg hnone]
      exact h.2.filterMap policyHierarchyChar2enum_injective
  unfold sconfPhFillArray
  dsimp only
  rw [List.map_append, List.map_map, List.map_map]
  simp only [Function.comp_def, List.map_id']
  apply List.nodup_append.mpr
  refine ⟨hcontained, List.Nodup.filter _ (by decide), ?_⟩
  rintro policy hmem _ hother rfl
  exact of_decide_eq_true (List.mem_filter.mp hother).2 hmem

end Hierarchy

section Runs
variable {K : Type} [Field K] [LinearOrder K] {cfg : Config K} {entries : List (Policy × Bool)}
  {s : State K}

/-- The policy adds to `jref->tickets` what it assigns, if and only if it is dependent. -/
def Config.StepFine (cfg : Config K) : Policy × Bool → Prop
  | (.override, dependent) => cfg.OverrideFine dependent
  | (.functional, dependent) => cfg.FunctionalFine dependent
  | (.shareTree, _) => True

/-- Nothing has been assigned to the pending tasks. -/
structure Config.Fresh (cfg : Config K) (s : State K) : Prop where
  tickets : ∀ j, cfg.Pending j → s.tickets j = 0
  assigned : ∀ policy j, cfg.Pending j → assigned s j policy = 0

theorem Config.Fresh.accounts (h : cfg.Fresh s) : Accounts cfg [] s where
  tickets := h.tickets
  fresh policy _ j hj := h.assigned policy j hj
  nonneg policy j hj := (h.assigned policy j hj).ge

variable [IsStrictOrderedRing K]

theorem evaluatePolicy_accounts (hsound : cfg.Sound)
    (hroot : ∀ root, cfg.root = some root → root.Sound) (qsort : Qsort (JobNode K))
    (h : Accounts cfg entries s) {entry : Policy × Bool} (hnew : entry.1 ∉ entries.map Prod.fst)
    (hfine : cfg.StepFine entry) :
    ∃ s', evaluatePolicy cfg qsort s entry = some s' ∧ Accounts cfg (entries ++ [entry]) s' := by
  obtain ⟨policy, dependent⟩ := entry
  cases policy with
  | override =>
      obtain ⟨s', tasks, hs', hassigns⟩ := overridePolicy_spec hfine s
      exact ⟨s', hs', h.assigns hassigns hnew⟩
  | functional =>
      have hready : Ready (sharingTasks cfg Ref.jobshare cfg.fshare) s :=
        ⟨fun j hj => h.tickets_nonneg j (pending_of_sharing hj),
          fun j hj => h.nonneg .functional j (pending_of_sharing hj)⟩
      obtain ⟨s', tasks, remaining, hs', haccount, hremaining⟩ :=
        functionalPolicy_spec hsound dependent hready
      exact ⟨s', hs', h.assigns (haccount.assigns (hremaining hfine)) hnew⟩
  | shareTree =>
      obtain ⟨tasks, hassigns⟩ := shareTreePolicy_spec qsort dependent s hroot
      exact ⟨_, rfl, h.assigns hassigns hnew⟩

theorem evaluatePolicies_accounts (hsound : cfg.Sound)
    (hroot : ∀ root, cfg.root = some root → root.Sound) (qsort : Qsort (JobNode K))
    (h : Accounts cfg [] s) (hnodup : (entries.map Prod.fst).Nodup)
    (hfine : ∀ entry ∈ entries, cfg.StepFine entry) :
    ∃ s', evaluatePolicies cfg qsort entries s = some s' ∧ Accounts cfg entries s' := by
  induction entries using List.reverseRecOn with
  | nil => exact ⟨s, rfl, h⟩
  | append_singleton entries entry ih =>
      rw [List.map_append, List.nodup_append] at hnodup
      obtain ⟨hentries, -, hdisjoint⟩ := hnodup
      obtain ⟨s₁, hs₁, haccounts⟩ := ih hentries fun e he => hfine e (List.mem_append_left _ he)
      have hnew : entry.1 ∉ entries.map Prod.fst := fun hmem =>
        hdisjoint _ hmem _ (List.mem_singleton_self _) rfl
      obtain ⟨s', hs', haccounts'⟩ := evaluatePolicy_accounts hsound hroot qsort haccounts hnew
        (hfine entry (List.mem_append_right _ (List.mem_singleton_self _)))
      refine ⟨s', ?_, haccounts'⟩
      unfold evaluatePolicies at hs₁ ⊢
      rw [List.foldlM_append, hs₁]
      simpa using hs'

/-- Whenever a policy of the hierarchy is evaluated, `jref->tickets` of every pending task is the
sum of what the earlier dependent policies have assigned to it. -/
theorem evaluatePolicies_tickets (hsound : cfg.Sound)
    (hroot : ∀ root, cfg.root = some root → root.Sound) (qsort : Qsort (JobNode K))
    {value : List Char} (hvalue : policyHierarchyVerifyValue value = true)
    {earlier later : List (Policy × Bool)} {entry : Policy × Bool}
    (hhierarchy : sconfPhFillArray value = earlier ++ entry :: later)
    (hfine : ∀ policy ∈ earlier, cfg.StepFine policy) (hfresh : cfg.Fresh s) :
    ∃ s', evaluatePolicies cfg qsort earlier s = some s' ∧
      ∀ j, cfg.Pending j → s'.tickets j = assignedTickets earlier s' j := by
  have hnodup := nodup_sconfPhFillArray hvalue
  rw [hhierarchy, List.map_append, List.nodup_append] at hnodup
  obtain ⟨s', hs', haccounts⟩ :=
    evaluatePolicies_accounts hsound hroot qsort hfresh.accounts hnodup.1 hfine
  exact ⟨s', hs', haccounts.tickets⟩

/-- Three pending tasks with one share each, in one functional category. -/
def threeTasks (maxFunctionalJobsToSchedule : ℕ) : Config ℚ where
  numJobs := 3
  ref j := ⟨j + 1, 1, j + 1, 1, 0, none, fun _ => none, none, true⟩
  fshare _ _ := 0
  oticket _ _ := 0
  root := none
  totalShareTreeTickets := 0
  totalFunctionalTickets := 100
  maxFunctionalJobsToSchedule := maxFunctionalJobsToSchedule
  shareFunctionalShares := true
  shareOverrideTickets := true
  weightOwner _ := 1
  weightJob := 1
  sumOfFunctionalShares _ := 0
  sumOfJobFunctionalShares := 0

def noTickets : State ℚ where
  tickets _ := 0
  sticket _ := 0
  fticket _ := 0
  oticket _ := 0
  ownerFshare _ _ := 0
  fshare _ := 0
  jobCnt _ _ := 0

theorem threeTasks_sound (n : ℕ) : (threeTasks n).Sound :=
  ⟨fun _ => zero_le_one, zero_le_one, fun _ => le_rfl, le_rfl⟩

theorem noTickets_fresh (n : ℕ) : (threeTasks n).Fresh noTickets :=
  ⟨fun _ _ => rfl, fun policy _ _ => by cases policy <;> rfl⟩

/-- With the hierarchy `FS` and a limit of three tasks, when the share tree policy is evaluated. -/
theorem threeTasks_tickets :
    ∃ s', evaluatePolicies (threeTasks 3) (Qsort.stable _) [(.functional, true)] noTickets =
        some s' ∧
      ∀ j, (threeTasks 3).Pending j →
        s'.tickets j = assignedTickets [(.functional, true)] s' j := by
  have hhierarchy : sconfPhFillArray ['F', 'S'] =
      [(.functional, true)] ++ (.shareTree, true) :: [(.override, false)] := by decide
  have hfine : ∀ policy ∈ [(Policy.functional, true)], (threeTasks 3).StepFine policy := by
    intro policy hpolicy
    rw [List.mem_singleton.mp hpolicy]
    exact Or.inr (Or.inr (Or.inr (by decide)))
  exact evaluatePolicies_tickets (threeTasks_sound 3) (by simp [threeTasks]) (Qsort.stable _)
    (by decide) hhierarchy hfine (noTickets_fresh 3)

/-- The second task after the functional policy with a limit of one task. -/
theorem threeTasks_second :
    (evaluatePolicies (threeTasks 1) (Qsort.stable _) [(.functional, true)] noTickets).map
      (fun s' => (s'.tickets 1, assignedTickets [(.functional, true)] s' 1)) =
        some (0, 25000 / 1001) := by
  decide +kernel

/-- With a limit of one task, the first task that remains has functional tickets that are not in
`jref->tickets`. -/
theorem threeTasks_limited :
    policyHierarchyVerifyValue ['F', 'S'] = true ∧
      sconfPhFillArray ['F', 'S'] =
        [(.functional, true)] ++ (.shareTree, true) :: [(.override, false)] ∧
      (threeTasks 1).Sound ∧ (threeTasks 1).Fresh noTickets ∧
      ∃ s', evaluatePolicies (threeTasks 1) (Qsort.stable _) [(.functional, true)] noTickets =
          some s' ∧
        (threeTasks 1).Pending 1 ∧ s'.tickets 1 ≠ assignedTickets [(.functional, true)] s' 1 := by
  obtain ⟨s', hs', hvalues⟩ := Option.map_eq_some_iff.mp threeTasks_second
  obtain ⟨htickets, hassigned⟩ := Prod.mk.inj hvalues
  refine ⟨by decide, by decide, threeTasks_sound 1, noTickets_fresh 1, s', hs', ?_, ?_⟩
  · exact ⟨Nat.lt_of_succ_lt (Nat.lt_succ_self 2), rfl⟩
  · rw [htickets, hassigned]
    norm_num

end Runs

end GridEngine.TicketPolicies
