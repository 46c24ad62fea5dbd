import GridEngine.ParallelCollect

/-!
# Quota accounts over the rounds

Hosts are visited one after another, again and again with `$round_robin`. With `$fill_up` no host is
visited twice, so nothing is granted yet at the host that comes next. When a reservation is wanted
hosts are also visited behind a complete grant, and that is the only place where the accounts go
wrong.
-/

namespace GridEngine.ParallelAssignment
variable {Q H L R : Type*} {a : ParallelAssignment Q H L R} {s s' : GrantState Q H L} {t : SlotTime}
  {h : H} {q : Q} {l : L} {hslots : ℤ} {tags : HostTags Q L} {pending : List H}

variable (a) in
/-- What holds between the hosts. With `$fill_up` no host is visited twice. -/
structure Inv (s : GrantState Q H L) : Prop where
  limitsLeft : LimitsLeft s.limitList
  granted : ∀ t, ∀ q ∈ qnames (s.account t).gdil, ∀ l ∈ a.limits q, (s.limitList l).isSome
  fresh : a.allocationRule = -1 → ∀ t, ∀ q ∈ qnames (s.account t).gdil,
    a.qhostname q ∉ s.pending
  nodup : s.pending.Nodup
  bounded : a.allocationRule = -1 → ∀ t, (s.account t).accuHostSlots ≤ a.slots ∧
    ((s.account t).accuHostSlots = a.slots → (s.account t).haveMasterHost = true)

variable (a) in
/-- Slots that become free later are collected until they are complete. -/
def Short (s : GrantState Q H L) : Prop :=
  a.allocationRule = -1 → s.careReservation = true → s.done = false →
    (s.account .qend).accuHostSlots ≠ a.slots

theorem checkExit_eq : ∃ careReservation done,
    a.checkExit s = { s with careReservation := careReservation, done := done } := by
  rw [checkExit]
  split
  · exact ⟨s.careReservation, true, rfl⟩
  · split
    · exact ⟨false, s.done, rfl⟩
    · exact ⟨s.careReservation, s.done, rfl⟩

theorem Inv.checkExit (hs : a.Inv s) : a.Inv (a.checkExit s) := by
  obtain ⟨care, done, heq⟩ := checkExit_eq (a := a) (s := s)
  rw [heq]
  exact ⟨hs.limitsLeft, hs.granted, hs.fresh, hs.nodup, hs.bounded⟩

theorem Inv.checkExit_short (hs : a.Inv s) : a.Short (a.checkExit s) := by
  intro hrule hcare hdone hfull
  obtain ⟨care, done, heq⟩ := checkExit_eq (a := a) (s := s)
  have hqend : (s.account .qend).accuHostSlots = a.slots := by
    rw [heq] at hfull
    exact hfull
  have hcomplete : a.complete (s.account .qend) = true := by
    rw [complete, hqend, decide_eq_true le_rfl, Bool.true_and]
    exact (hs.bounded hrule .qend).2 hqend
  rw [ParallelAssignment.checkExit] at hcare hdone
  split at hdone
  · cases hdone
  · rename_i hexit
    rw [if_neg hexit, hcomplete, Bool.and_true] at hcare
    split at hcare
    · cases hcare
    · rename_i hnot
      exact hnot hcare

theorem inv_start : a.Inv a.start where
  limitsLeft := by
    intro l rql hrql
    cases hrql
  granted := by
    intro t q hq
    cases hq
  fresh := by
    intro _ t q hq
    cases hq
  nodup := a.hostList_nodup
  bounded := by
    intro _ t
    have hpos := a.slots_pos
    simp only [start]
    omega

theorem short_start : a.Short a.start := by
  intro _ _ _ hfull
  have hpos := a.slots_pos
  simp only [start] at hfull
  omega

section Entries
variable [DecidableEq L]

theorem tagHostsQueues_limitList (hl : (s.limitList l).isSome) :
    (a.tagHostsQueues s tags).limitList l = s.limitList l := by
  obtain ⟨rql, hrql⟩ := Option.isSome_iff_exists.mp hl
  simp only [tagHostsQueues, hrql]

variable (tags) in
theorem Inv.tagHostsQueues (hs : a.Inv s) : a.Inv (a.tagHostsQueues s tags) where
  limitsLeft := by
    intro l rql hrql
    cases hl : s.limitList l with
    | some rql' =>
        rw [tagHostsQueues_limitList (by rw [hl]; rfl)] at hrql
        exact hs.limitsLeft l rql hrql
    | none =>
        simp only [ParallelAssignment.tagHostsQueues, hl] at hrql
        split at hrql
        · obtain rfl := Option.some.inj hrql
          exact a.newLimit_nonneg l
        · cases hrql
  granted := by
    intro t q hq l hl
    have hsome := hs.granted t q hq l hl
    rw [tagHostsQueues_limitList hsome]
    exact hsome
  fresh := hs.fresh
  nodup := hs.nodup
  bounded := hs.bounded

theorem Inv.tagHostsQueues_accounts (hs : a.Inv s) (hacc : a.Accounts s) :
    a.Accounts (a.tagHostsQueues s tags) where
  limits := by
    intro l rql hrql
    change rql = a.left s l
    cases hl : s.limitList l with
    | some rql' =>
        rw [tagHostsQueues_limitList (by rw [hl]; rfl)] at hrql
        exact hacc.limits l rql hrql
    | none =>
        have hcharge : ∀ t, charge (a.under l) (s.account t).gdil = 0 := by
          intro t
          apply charge_eq_zero
          intro q hq
          apply under_eq_zero.mpr
          intro hmem
          have hsome := hs.granted t q hq l hmem
          rw [hl] at hsome
          cases hsome
        simp only [ParallelAssignment.tagHostsQueues, hl] at hrql
        split at hrql
        · obtain rfl := Option.some.inj hrql
          rw [left, hcharge, hcharge]
          exact (sub_zero _).symm
        · cases hrql
  soft := hacc.soft

theorem checkExit_follows : a.Follows s (a.checkExit s) := by
  obtain ⟨care, done, heq⟩ := checkExit_eq (a := a) (s := s)
  rw [heq]
  exact Follows.of_eq rfl rfl fun _ => rfl

end Entries

variable [DecidableEq H]

theorem Inv.ready (hs : a.Inv s) (htag : ∀ q, 0 ≤ (s.account t).tag q)
    (hfresh : a.allocationRule = -1 → ∀ q ∈ a.queuesOf h, q ∉ qnames (s.account t).gdil) :
    a.Ready t h s :=
  ⟨hs.limitsLeft, htag, hfresh, fun hrule => hs.bounded hrule t⟩

theorem Collected.inv (hc : a.Collected t h s s') (hs : a.Inv s) (hh : h ∉ s.pending) :
    a.Inv s' where
  limitsLeft := hc.limitsLeft
  granted := by
    intro t' q hq l hl
    rw [hc.isSome]
    by_cases heq : t' = t
    · subst heq
      rcases hc.mem_gdil q hq with hq | ⟨-, hlimits⟩
      · exact hs.granted t' q hq l hl
      · exact hlimits l hl
    · rw [hc.keeps.other t' heq] at hq
      exact hs.granted t' q hq l hl
  fresh := by
    intro hrule t' q hq
    rw [hc.keeps.pending]
    by_cases heq : t' = t
    · subst heq
      rcases hc.mem_gdil q hq with hq | ⟨hq, -⟩
      · exact hs.fresh hrule t' q hq
      · rw [of_decide_eq_true (List.mem_filter.mp hq).2]
        exact hh
    · rw [hc.keeps.other t' heq] at hq
      exact hs.fresh hrule t' q hq
  nodup := by
    rw [hc.keeps.pending]
    exact hs.nodup
  bounded := by
    intro hrule t'
    by_cases heq : t' = t
    · rw [heq]
      exact hc.bounded hrule
    · rw [hc.keeps.other t' heq]
      exact hs.bounded hrule t'

/-- The next host is new with `$fill_up`. -/
theorem Inv.next {host : H} (hs : a.Inv s) (hpending : s.pending = host :: pending) :
    a.Inv { s with pending := pending } ∧ host ∉ pending ∧
      (a.allocationRule = -1 → ∀ t, ∀ q ∈ a.queuesOf host, q ∉ qnames (s.account t).gdil) := by
  have hnodup := hs.nodup
  rw [hpending, List.nodup_cons] at hnodup
  refine ⟨⟨hs.limitsLeft, hs.granted, fun hrule t q hq hmem => ?_, hnodup.2, hs.bounded⟩,
    hnodup.1, fun hrule t q hq hmem => ?_⟩
  · refine hs.fresh hrule t q hq ?_
    rw [hpending]
    exact List.mem_cons_of_mem _ hmem
  · refine hs.fresh hrule t q hmem ?_
    rw [hpending, of_decide_eq_true (List.mem_filter.mp hq).2]
    exact List.mem_cons_self

variable [DecidableEq Q] [DecidableEq L]

variable (a) in
/-- With `$fill_up`, when the slots are complete before a host is visited, all its tagged queue
instances but the first are without limits and without soft violations. -/
def Spares (s : GrantState Q H L) (h : H) (tags : HostTags Q L) : Prop :=
  a.allocationRule = -1 → (s.account .now).accuHostSlots = a.slots → 1 ≤ tags.hslots .now →
    a.Spared (a.tagHostsQueues s tags) h

variable (hslots) in
/-- The accounts go wrong exactly when the revert gives back what was not taken. -/
theorem visitNow_spec (hs : a.Inv s) (hready : a.Ready .now h s) (hh : h ∉ s.pending) :
    a.Inv (a.visitNow s h hslots) ∧ Keeps .now s (a.visitNow s h hslots) ∧
      (a.Accounts s → (a.Accounts (a.visitNow s h hslots) ↔
        (a.allocationRule = -1 → (s.account .now).accuHostSlots = a.slots → 1 ≤ hslots →
          a.Spared s h))) := by
  rw [visitNow]
  by_cases hmin : a.minslots ≤ hslots
  · rw [if_pos hmin]
    by_cases hfull : a.allocationRule = -1 ∧ (s.account .now).accuHostSlots = a.slots
    · obtain ⟨hcollected, hiff⟩ := collect_full hready hmin hfull.1 hfull.2
      have hone : 1 ≤ hslots := minslots_pos.trans_le hmin
      refine ⟨hcollected.inv hs hh, hcollected.keeps, fun hacc => ?_⟩
      rw [hiff hacc]
      exact ⟨fun hspared _ _ _ => hspared, fun hspared => hspared hfull.1 hfull.2 hone⟩
    · obtain ⟨hfollows, hcollected⟩ := collect_spec hready hmin
        fun hrule heq => hfull ⟨hrule, heq⟩
      refine ⟨hcollected.inv hs hh, hcollected.keeps, fun hacc => ?_⟩
      rw [hfollows.accounts_iff]
      exact iff_of_true hacc fun hrule heq => absurd ⟨hrule, heq⟩ hfull
  · rw [if_neg hmin]
    refine ⟨hs, ⟨fun _ _ => rfl, rfl, rfl, rfl⟩, fun hacc => iff_of_true hacc ?_⟩
    intro hrule _ hone
    rw [minslots, hrule, if_neg (by decide)] at hmin
    exact absurd hone hmin

variable (hslots) in
/-- The slots that become free later are collected as long as they are not complete. -/
theorem visitQend_spec (hs : a.Inv s) (hready : a.Ready .qend h s) (hh : h ∉ s.pending)
    (hshort : a.Short s) (hdone : s.done = false) :
    a.Inv (a.visitQend s h hslots) ∧ a.Follows s (a.visitQend s h hslots) := by
  rw [visitQend]
  split
  · rename_i hcollect
    obtain ⟨hfollows, hcollected⟩ := collect_spec hready hcollect.1
      fun hrule => hshort hrule hcollect.2.1 hdone
    exact ⟨hcollected.inv hs hh, hfollows⟩
  · exact ⟨hs, Follows.refl s⟩

variable (tags) in
theorem visit_spec (hs : a.Inv s) (hh : h ∉ s.pending) (hshort : a.Short s)
    (hfresh : a.allocationRule = -1 → ∀ t, ∀ q ∈ a.queuesOf h, q ∉ qnames (s.account t).gdil)
    (hdone : s.done = false) :
    a.Inv (a.visit s h tags) ∧ a.Short (a.visit s h tags) ∧
      (a.Accounts s → (a.Accounts (a.visit s h tags) ↔ a.Spares s h tags)) := by
  rw [visit]
  split
  · rename_i hnone
    refine ⟨hs.checkExit, hs.checkExit_short, fun hacc => ?_⟩
    rw [checkExit_follows.accounts_iff]
    refine iff_of_true hacc fun _ _ _ q hq => ?_
    rw [hnone] at hq
    cases hq
  · have htagged := hs.tagHostsQueues tags
    have hready : ∀ t, a.Ready t h (a.tagHostsQueues s tags) := fun t =>
      htagged.ready (fun q => Int.natCast_nonneg _) fun hrule => hfresh hrule t
    obtain ⟨hnow, hkeeps, hiff⟩ := visitNow_spec (tags.hslots .now) htagged
      (hready .now) hh
    dsimp only
    generalize a.visitNow (a.tagHostsQueues s tags) h (tags.hslots .now) = s₁ at *
    have hqend : s₁.account .qend = (a.tagHostsQueues s tags).account .qend :=
      hkeeps.other .qend nofun
    have hready₁ : a.Ready .qend h s₁ := by
      apply hnow.ready
      · rw [hqend]
        exact (hready .qend).tag_nonneg
      · rw [hqend]
        exact (hready .qend).fresh
    have hshort₁ : a.Short s₁ := by
      intro hrule hcare hdone₁
      rw [hqend]
      exact hshort hrule (hkeeps.careReservation.symm.trans hcare)
        (hkeeps.done.symm.trans hdone₁)
    obtain ⟨hinv, hfollows⟩ := visitQend_spec (tags.hslots .qend) hnow hready₁
      (by rw [hkeeps.pending]; exact hh) hshort₁ (hkeeps.done.trans hdone)
    refine ⟨hinv.checkExit, hinv.checkExit_short, fun hacc => ?_⟩
    rw [checkExit_follows.accounts_iff, hfollows.accounts_iff,
      hiff (hs.tagHostsQueues_accounts hacc)]
    exact Iff.rfl

variable (tags) in
theorem step_visit {host : H} (hs : a.Inv s) (hshort : a.Short s) (hdone : s.done = false)
    (hpending : s.pending = host :: pending) :
    ∃ s', a.step s (.visit tags) = some s' ∧ a.Inv s' ∧ a.Short s' ∧
      (a.Accounts s → (a.Accounts s' ↔ a.Spares s host tags)) := by
  obtain ⟨hinv, hnot, hfresh⟩ := hs.next hpending
  obtain ⟨hinv, hshort, hiff⟩ := visit_spec tags hinv hnot hshort hfresh hdone
  refine ⟨_, ?_, hinv, hshort, fun hacc => hiff ⟨hacc.limits, hacc.soft⟩⟩
  simp only [step, hpending, hdone, Bool.false_eq_true, if_false]

/-- A round keeps what holds between the hosts, and only a visit touches the accounts. -/
theorem step_spec {round : HostRound Q L} (hs : a.Inv s) (hshort : a.Short s)
    (hstep : a.step s round = some s') :
    a.Inv s' ∧ a.Short s' ∧ (a.Accounts s →
      (∀ tags host pending, round = .visit tags → s.done = false →
        s.pending = host :: pending → a.Spares s host tags) → a.Accounts s') := by
  cases round with
  | skip =>
      simp only [step] at hstep
      split at hstep
      · rename_i hpending
        split at hstep
        · cases hstep
        · obtain rfl := Option.some.inj hstep
          exact ⟨(hs.next hpending).1, hshort, fun hacc _ => ⟨hacc.limits, hacc.soft⟩⟩
      · cases hstep
  | visit tags =>
      have hvisit := hstep
      simp only [step] at hstep
      split at hstep
      · rename_i hpending
        split at hstep
        · cases hstep
        · rename_i hdone
          rw [Bool.not_eq_true] at hdone
          obtain ⟨s'', hs'', hinv, hshort', hiff⟩ :=
            step_visit tags hs hshort hdone hpending
          obtain rfl : s' = s'' := Option.some.inj (hvisit.symm.trans hs'')
          exact ⟨hinv, hshort', fun hacc hspares =>
            (hiff hacc).mpr (hspares tags _ _ rfl hdone hpending)⟩
      · cases hstep
  | nextRound =>
      simp only [step] at hstep
      split at hstep
      · rename_i hnext
        have hrule : a.allocationRule ≠ -1 := by
          rw [hnext.2.1]
          decide
        obtain rfl := Option.some.inj hstep
        exact ⟨⟨hs.limitsLeft, hs.granted, fun heq => absurd heq hrule, a.hostList_nodup,
          fun heq => absurd heq hrule⟩, fun heq => absurd heq hrule,
          fun hacc _ => ⟨hacc.limits, hacc.soft⟩⟩
      · cases hstep

theorem run_concat (rounds : List (HostRound Q L)) (round : HostRound Q L) :
    a.run (rounds ++ [round]) = (a.run rounds).bind fun s => a.step s round := by
  rw [run, run, List.foldlM_append]
  simp only [List.foldlM_cons, List.foldlM_nil, bind_pure]
  rfl

theorem run_inv {rounds : List (HostRound Q L)} (hrun : a.run rounds = some s) :
    a.Inv s ∧ a.Short s := by
  induction rounds using List.reverseRecOn generalizing s with
  | nil =>
      obtain rfl := Option.some.inj hrun
      exact ⟨inv_start, short_start⟩
  | append_singleton rounds round ih =>
      rw [run_concat] at hrun
      obtain ⟨s', hrun, hstep⟩ := Option.bind_eq_some_iff.mp hrun
      obtain ⟨hinv, hshort⟩ := ih hrun
      obtain ⟨hinv', hshort', -⟩ := step_spec hinv hshort hstep
      exact ⟨hinv', hshort'⟩

/-- The quota accounts follow the grant in all states of a run if and only if no host is visited
behind a complete grant whose tags the revert would give back. -/
theorem quotaAccounts_iff (a : ParallelAssignment Q H L R) (rounds : List (HostRound Q L)) :
    (∀ earlier s, earlier <+: rounds → a.run earlier = some s → a.Accounts s) ↔
      ∀ earlier tags s host pending, earlier ++ [.visit tags] <+: rounds →
        a.run earlier = some s → s.done = false → s.pending = host :: pending →
          a.Spares s host tags := by
  constructor
  · intro hall earlier tags s host pending hbegin hrun hdone hpending
    obtain ⟨hinv, hshort⟩ := run_inv hrun
    obtain ⟨s', hstep, -, -, hiff⟩ := step_visit tags hinv hshort hdone hpending
    have hacc := hall earlier s ((List.prefix_append _ _).trans hbegin) hrun
    refine (hiff hacc).mp (hall _ s' hbegin ?_)
    rw [run_concat, hrun, Option.bind_some, hstep]
  · intro hspares earlier
    induction earlier using List.reverseRecOn with
    | nil =>
        intro s _ hrun
        obtain rfl := Option.some.inj hrun
        exact ⟨fun l rql hrql => (by cases hrql), fun _ => rfl⟩
    | append_singleton earlier round ih =>
        intro s' hbegin hrun
        rw [run_concat] at hrun
        obtain ⟨s, hbefore, hstep⟩ := Option.bind_eq_some_iff.mp hrun
        obtain ⟨hinv, hshort⟩ := run_inv hbefore
        have hacc := ih s ((List.prefix_append _ _).trans hbegin) hbefore
        refine (step_spec hinv hshort hstep).2.2 hacc ?_
        rintro tags host pending rfl hdone hpending
        exact hspares earlier tags s host pending hbegin hbefore hdone hpending

/-- Two slots with `$fill_up` and a reservation. Queue 0 is at host 0, the queues 1 and 2 are at
host 1 under one limit. -/
def twoHosts : ParallelAssignment ℕ ℕ Unit Unit where
  slots := 2
  slots_pos := by decide
  pe := ⟨2, "$fill_up"⟩
  ar := false
  isReservation := false
  careReservation := true
  isSoft := false
  haveMasterqRequest := false
  haveHardQueueRequest := false
  queueList := [0, 1, 2]
  queueList_nodup := by decide
  qhostname := fun q => if q = 0 then 0 else 1
  cqRejected := fun _ => false
  softViolation := fun _ => 0
  hostList := [0, 1]
  hostList_nodup := by decide
  rqsList := [()]
  rqsList_nodup := by decide
  limitName := fun _ q => if q = 0 then none else some ()
  limitName_inj := fun _ _ _ _ _ _ _ _ => rfl
  newLimit := fun _ => (10, 10)
  newLimit_nonneg := fun _ => by decide

/-- Host 0 has both slots, but later they are needed for something else. -/
def firstHost : HostTags ℕ Unit where
  hslots := fun t => if t = .now then 2 else 0
  tag := fun t q => if t = .now ∧ q = 0 then 2 else 0
  tagged4schedule := fun _ => Fin.last 2
  newLimits := []

def secondHost : HostTags ℕ Unit where
  hslots := fun _ => 2
  tag := fun _ q => if q = 0 then 0 else 1
  tagged4schedule := fun _ => Fin.last 2
  newLimits := [()]

/-- At host 1 queue 1 loses its tag before the loop ends, and the revert adds the tag of queue 2 to
the limit. -/
theorem twoHosts_notAccounted :
    ¬ ∀ earlier s, earlier <+: [.visit firstHost, .visit secondHost] →
      twoHosts.run earlier = some s → twoHosts.Accounts s := by
  intro hall
  have hentry : (twoHosts.run [.visit firstHost, .visit secondHost]).map
      (fun s => (s.limitList (), twoHosts.left s ())) = some (some (11, 8), (10, 8)) := by decide
  obtain ⟨s, hrun, heq⟩ := Option.map_eq_some_iff.mp hentry
  rw [Prod.mk.injEq] at heq
  have hright := (hall _ s List.prefix_rfl hrun).limits () (11, 8) heq.1
  rw [heq.2] at hright
  exact absurd hright (by decide)

end GridEngine.ParallelAssignment
