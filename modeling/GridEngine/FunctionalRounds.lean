import GridEngine.TicketCategories
import Mathlib.Tactic.Positivity

/-!
# The rounds of the functional policy

Every round takes one task out of the categories and changes functional tickets only. What the
policy adds to `jref->tickets` of a task is what it assigned to it, but for the first task that
remains in each category.
-/

namespace GridEngine.TicketPolicies

@[simp] theorem setFshares_ownerFshare_self {K : Type} (jref : ℕ) (ownerFshare : Owner → K)
    (fshare : ℕ) (s : State K) (owner : Owner) :
    (setFshares jref ownerFshare fshare s).ownerFshare owner jref = ownerFshare owner := by
  dsimp only [setFshares]
  rw [Function.update_self]

variable {K : Type} [Field K] [LinearOrder K]

/-- The weights and the shares of the running tasks are not negative. -/
structure Config.Sound (cfg : Config K) : Prop where
  weightOwner_nonneg : ∀ owner, 0 ≤ cfg.weightOwner owner
  weightJob_nonneg : 0 ≤ cfg.weightJob
  sum_nonneg : ∀ owner, 0 ≤ cfg.sumOfFunctionalShares owner
  sumJob_nonneg : 0 ≤ cfg.sumOfJobFunctionalShares

/-- Neither part is negative. -/
structure Parts.Nonneg (parts : Parts K) : Prop where
  owner : ∀ owner, 0 ≤ parts.owner owner
  job : 0 ≤ parts.job

/-- Only functional tickets of the given tasks change, and they do not get negative. -/
structure OnlyFtickets (tasks : List ℕ) (s s' : State K) : Prop where
  tickets : s'.tickets = s.tickets
  sticket : s'.sticket = s.sticket
  oticket : s'.oticket = s.oticket
  fticket : ∀ j ∉ tasks, s'.fticket j = s.fticket j
  nonneg : (∀ j ∈ tasks, 0 ≤ s.fticket j) → ∀ j ∈ tasks, 0 ≤ s'.fticket j

namespace OnlyFtickets

variable {tasks : List ℕ} {s s' s'' : State K}

theorem refl (tasks : List ℕ) (s : State K) : OnlyFtickets tasks s s :=
  ⟨rfl, rfl, rfl, fun _ _ => rfl, fun h => h⟩

theorem trans (h : OnlyFtickets tasks s s') (h' : OnlyFtickets tasks s' s'') :
    OnlyFtickets tasks s s'' where
  tickets := h'.tickets.trans h.tickets
  sticket := h'.sticket.trans h.sticket
  oticket := h'.oticket.trans h.oticket
  fticket j hj := (h'.fticket j hj).trans (h.fticket j hj)
  nonneg hnonneg := h'.nonneg (h.nonneg hnonneg)

theorem of_update {jref : ℕ} {v : K} (hmem : jref ∈ tasks)
    (hv : (∀ j ∈ tasks, 0 ≤ s.fticket j) → 0 ≤ v)
    (htickets : s'.tickets = s.tickets) (hsticket : s'.sticket = s.sticket)
    (hoticket : s'.oticket = s.oticket) (hfticket : s'.fticket = Function.update s.fticket jref v) :
    OnlyFtickets tasks s s' where
  tickets := htickets
  sticket := hsticket
  oticket := hoticket
  fticket := by
    intro j hj
    rw [hfticket, Function.update_of_ne]
    rintro rfl
    exact hj hmem
  nonneg := by
    intro hnonneg j hj
    rw [hfticket]
    by_cases heq : j = jref
    · rw [heq, Function.update_self]
      exact hv hnonneg
    · rw [Function.update_of_ne heq]
      exact hnonneg j hj

end OnlyFtickets

section Copies
variable (cfg : Config K) {tasks : List ℕ} (s : State K)

theorem copyFtickets_only {source dest : ℕ} (hsource : source ∈ tasks) (hdest : dest ∈ tasks) :
    OnlyFtickets tasks s (copyFtickets cfg source dest s) :=
  OnlyFtickets.of_update hdest (fun hnonneg => hnonneg source hsource) rfl rfl rfl rfl

theorem copyToNext_only {categories : List Category}
    (hrefs : ∀ j ∈ categoryRefs categories, j ∈ tasks) (winner : ℕ) :
    OnlyFtickets tasks s (copyToNext cfg categories winner s) := by
  unfold copyToNext
  split
  · rename_i first dest rest heq
    obtain ⟨category, hfind, hcategory⟩ := Option.map_eq_some_iff.mp heq
    have hmem : ∀ j ∈ category.refs, j ∈ tasks := fun j hj =>
      hrefs j (List.mem_flatMap.mpr ⟨category, List.mem_of_find?_eq_some hfind, hj⟩)
    rw [hcategory] at hmem
    exact copyFtickets_only cfg s (hmem first List.mem_cons_self)
      (hmem dest (List.mem_cons_of_mem _ List.mem_cons_self))
  · exact OnlyFtickets.refl tasks s

end Copies

section Tickets
variable [IsStrictOrderedRing K] {cfg : Config K} {sums weight : Parts K} {s : State K} {jref : ℕ}
  {tasks : List ℕ} {category : Category}

theorem pass2_nonneg (s : State K) (hsums : sums.Nonneg) (hweight : weight.Nonneg)
    (hshare : ∀ owner, ((cfg.ref jref).owner owner).isSome → 0 ≤ s.ownerFshare owner jref) :
    ∃ v, 0 ≤ v ∧ calcJobFunctionalTicketsPass2 cfg jref sums weight s =
      { s with fticket := Function.update s.fticket jref v } := by
  refine ⟨_, ?_, rfl⟩
  have howner : ∀ owner, 0 ≤ (if ((cfg.ref jref).owner owner).isSome && sums.owner owner ≠ 0 then
      s.ownerFshare owner jref * (cfg.totalFunctionalTickets : K) / sums.owner owner else 0) := by
    intro owner
    split_ifs with h
    · rw [Bool.and_eq_true] at h
      have hfshare := hshare owner h.1
      have hsum := hsums.owner owner
      positivity
    · exact le_rfl
  have hjob : 0 ≤ (if sums.job ≠ 0 then
      ((cfg.ref jref).jobshare : K) * (cfg.totalFunctionalTickets : K) / sums.job else 0) := by
    have hsum := hsums.job
    split_ifs
    · positivity
    · exact le_rfl
  have huser := mul_nonneg (hweight.owner .user) (howner .user)
  have hdepartment := mul_nonneg (hweight.owner .department) (howner .department)
  have hproject := mul_nonneg (hweight.owner .project) (howner .project)
  have hjob := mul_nonneg hweight.job hjob
  exact add_nonneg (add_nonneg (add_nonneg huser hdepartment) hproject) hjob

theorem weighting_nonneg (h : cfg.Sound) : (getFunctionalWeightingParameters cfg).Nonneg := by
  unfold getFunctionalWeightingParameters
  dsimp only
  split_ifs with hsum
  · exact ⟨fun owner => div_nonneg (h.weightOwner_nonneg owner) hsum.le,
      div_nonneg h.weightJob_nonneg hsum.le⟩
  · exact ⟨h.weightOwner_nonneg, h.weightJob_nonneg⟩

theorem triedSums_nonneg (hsums : sums.Nonneg) : (triedSums cfg category sums).Nonneg where
  owner := by
    intro owner
    have hsum := hsums.owner owner
    unfold triedSums
    dsimp only
    split_ifs
    · positivity
    · exact hsum
  job := add_nonneg hsums.job (Nat.cast_nonneg _)

theorem activeSums_nonneg (hsums : sums.Nonneg) : (activeSums cfg jref s sums).Nonneg where
  owner := by
    intro owner
    have hsum := hsums.owner owner
    unfold activeSums activeFshare
    dsimp only
    cases (cfg.ref jref).owner owner with
    | none => exact hsum
    | some object =>
        dsimp only
        split_ifs <;> positivity
  job := add_nonneg hsums.job (Nat.cast_nonneg _)

theorem triedFshare_nonneg (owner : Owner) (h : ((cfg.ref category.first).owner owner).isSome) :
    0 ≤ triedFshare cfg category s owner := by
  obtain ⟨object, hobject⟩ := Option.isSome_iff_exists.mp h
  rw [triedFshare, hobject]
  dsimp only
  split_ifs <;> positivity

theorem activeFshare_nonneg (owner : Owner) (h : ((cfg.ref jref).owner owner).isSome) :
    0 ≤ activeFshare cfg jref s owner := by
  obtain ⟨object, hobject⟩ := Option.isSome_iff_exists.mp h
  rw [activeFshare, hobject]
  dsimp only
  split_ifs <;> positivity

theorem addThousandth_nonneg (hsums : sums.Nonneg) : (addThousandth sums).Nonneg where
  owner owner := add_nonneg (hsums.owner owner) (by positivity)
  job := add_nonneg hsums.job (by positivity)

theorem pass2_only (hsums : sums.Nonneg) (hweight : weight.Nonneg) (hmem : jref ∈ tasks)
    {ownerFshare : Owner → K} {fshare : ℕ}
    (hshare : ∀ owner, ((cfg.ref jref).owner owner).isSome → 0 ≤ ownerFshare owner) :
    OnlyFtickets tasks s (calcJobFunctionalTicketsPass2 cfg jref sums weight
        (setFshares jref ownerFshare fshare s)) ∧
      0 ≤ (calcJobFunctionalTicketsPass2 cfg jref sums weight
        (setFshares jref ownerFshare fshare s)).fticket jref := by
  obtain ⟨v, hv, heq⟩ := pass2_nonneg (setFshares jref ownerFshare fshare s) hsums hweight (by
    intro owner howner
    rw [setFshares_ownerFshare_self]
    exact hshare owner howner)
  rw [heq]
  exact ⟨OnlyFtickets.of_update hmem (fun _ => hv) rfl rfl rfl rfl, by simpa using hv⟩

theorem calcIntern_only (cfg : Config K) (s : State K) (hsums : sums.Nonneg)
    (hweight : weight.Nonneg) (hmem : category.first ∈ tasks) :
    OnlyFtickets tasks s (calcInternPendingJobFunctionalTickets cfg category sums weight s) ∧
      0 ≤ (calcInternPendingJobFunctionalTickets cfg category sums weight s).fticket
        category.first :=
  pass2_only (triedSums_nonneg hsums) hweight hmem fun owner => triedFshare_nonneg owner

theorem calcPending_only (cfg : Config K) (s : State K) (hsums : sums.Nonneg)
    (hweight : weight.Nonneg) (hmem : jref ∈ tasks) :
    OnlyFtickets tasks s (calcPendingJobFunctionalTickets cfg jref sums weight s).1 ∧
      (calcPendingJobFunctionalTickets cfg jref sums weight s).2.Nonneg :=
  ⟨(pass2_only (activeSums_nonneg hsums) hweight hmem fun owner => activeFshare_nonneg owner).1,
    activeSums_nonneg hsums⟩

end Tickets

section Tries
variable {cfg : Config K} {dependent : Bool} {sums weight : Parts K} {tasks : List ℕ}

/-- What a try needs: the tickets that the earlier policies left are not negative. -/
structure Ready (tasks : List ℕ) (s : State K) : Prop where
  tickets : ∀ j ∈ tasks, 0 ≤ s.tickets j
  ftickets : ∀ j ∈ tasks, 0 ≤ s.fticket j

theorem OnlyFtickets.ready {s s' : State K} (h : OnlyFtickets tasks s s')
    (hready : Ready tasks s) : Ready tasks s' where
  tickets := by
    rw [h.tickets]
    exact hready.tickets
  ftickets := h.nonneg hready.ftickets

/-- The second component of a try. -/
theorem tryCategory_best (cfg : Config K) (dependent : Bool) (sums weight : Parts K) (s : State K)
    (best : Option (Best K)) (category : Category) :
    ∃ ftickets, (ftickets =
        (tryCategory cfg dependent sums weight (s, best) category).1.fticket category.first +
          if dependent then
            (tryCategory cfg dependent sums weight (s, best) category).1.tickets category.first
          else 0) ∧
      (tryCategory cfg dependent sums weight (s, best) category).2 =
        if beats cfg ftickets category.first best then some ⟨category.first, ftickets⟩
        else best := by
  refine ⟨_, rfl, ?_⟩
  unfold tryCategory
  dsimp only
  cases dependent with
  | true => rfl
  | false =>
      rw [if_neg Bool.false_ne_true, if_neg Bool.false_ne_true, add_zero]

variable [IsStrictOrderedRing K]

theorem tryCategory_spec (cfg : Config K) (dependent : Bool) (hsums : sums.Nonneg)
    (hweight : weight.Nonneg) {category : Category} (hmem : category.first ∈ tasks) {s : State K}
    (hready : Ready tasks s) (best : Option (Best K)) :
    OnlyFtickets tasks s (tryCategory cfg dependent sums weight (s, best) category).1 ∧
      (∃ winner, (tryCategory cfg dependent sums weight (s, best) category).2 = some winner ∧
        (winner.ref = category.first ∨ best = some winner)) := by
  obtain ⟨honly, hnonneg⟩ := calcIntern_only cfg s (addThousandth_nonneg hsums) hweight hmem
  have honly' : OnlyFtickets tasks s
      (tryCategory cfg dependent sums weight (s, best) category).1 := honly
  refine ⟨honly', ?_⟩
  obtain ⟨ftickets, hftickets, hbest⟩ :=
    tryCategory_best cfg dependent sums weight s best category
  rw [hbest]
  cases best with
  | none =>
      have hpos : 0 ≤ ftickets := by
        have htickets := (honly'.ready hready).tickets category.first hmem
        rw [hftickets]
        apply add_nonneg hnonneg
        split_ifs
        · exact htickets
        · exact le_rfl
      have hbeats : beats cfg ftickets category.first none = true :=
        decide_eq_true (le_trans (by norm_num) hpos)
      rw [if_pos hbeats]
      exact ⟨_, rfl, Or.inl rfl⟩
  | some best =>
      split_ifs with hbeats
      · exact ⟨_, rfl, Or.inl rfl⟩
      · exact ⟨best, rfl, Or.inr rfl⟩

/-- The loop over the first tasks of the categories finds a winner among them. -/
theorem foldl_tryCategory (cfg : Config K) (dependent : Bool) (hsums : sums.Nonneg)
    (hweight : weight.Nonneg) (categories : List Category)
    (hfirsts : ∀ j ∈ firsts categories, j ∈ tasks) {s : State K} (hready : Ready tasks s)
    (best : Option (Best K)) (hsome : best.isSome ∨ categories ≠ []) :
    OnlyFtickets tasks s
        (categories.foldl (tryCategory cfg dependent sums weight) (s, best)).1 ∧
      ∃ winner, (categories.foldl (tryCategory cfg dependent sums weight) (s, best)).2 =
        some winner ∧ (winner.ref ∈ firsts categories ∨ best = some winner) := by
  induction categories generalizing s best with
  | nil =>
      obtain ⟨winner, hwinner⟩ := Option.isSome_iff_exists.mp (hsome.resolve_right fun h => h rfl)
      exact ⟨OnlyFtickets.refl tasks s, winner, hwinner, Or.inr hwinner⟩
  | cons category categories ih =>
      obtain ⟨honly, winner, hwinner, hfrom⟩ := tryCategory_spec cfg dependent hsums hweight
        (hfirsts _ List.mem_cons_self) hready best
      have hrest : ∀ j ∈ firsts categories, j ∈ tasks := fun j hj =>
        hfirsts j (List.mem_cons_of_mem _ hj)
      rw [List.foldl_cons]
      generalize tryCategory cfg dependent sums weight (s, best) category = acc at honly hwinner ⊢
      obtain ⟨s₁, best₁⟩ := acc
      dsimp only at honly hwinner
      subst hwinner
      obtain ⟨honly', winner', hwinner', hfrom'⟩ :=
        ih hrest (honly.ready hready) (some winner) (Or.inl rfl)
      refine ⟨honly.trans honly', winner', hwinner', ?_⟩
      rcases hfrom' with hmem | heq
      · exact Or.inl (List.mem_cons_of_mem _ hmem)
      · obtain rfl := Option.some.inj heq
        rcases hfrom with hfirst | hbest
        · left
          rw [hfirst]
          exact List.mem_cons_self
        · exact Or.inr hbest

end Tries

section Rounds
variable [IsStrictOrderedRing K] {cfg : Config K} {dependent : Bool} {weight : Parts K}
  {tasks : List ℕ} {s₀ : State K}

/-- The order so far and the categories hold the tasks, and only functional tickets have changed. -/
structure RoundsOk (tasks : List ℕ) (s₀ : State K) (rounds : Rounds K) : Prop where
  perm : (rounds.sortList ++ categoryRefs rounds.categories).Perm tasks
  only : OnlyFtickets tasks s₀ rounds.state
  sums : rounds.sums.Nonneg

theorem functionalRound_spec (cfg : Config K) (dependent : Bool) (hweight : weight.Nonneg)
    (hnodup : tasks.Nodup) (hready : Ready tasks s₀) {rounds : Rounds K}
    (h : RoundsOk tasks s₀ rounds) (hcategories : rounds.categories ≠ []) :
    ∃ rounds', functionalRound cfg dependent weight rounds = some rounds' ∧
      RoundsOk tasks s₀ rounds' ∧ rounds'.sortList.length = rounds.sortList.length + 1 := by
  have hrefs : ∀ j ∈ categoryRefs rounds.categories, j ∈ tasks := fun j hj =>
    h.perm.subset (List.mem_append_right _ hj)
  have hfirsts : ∀ j ∈ firsts rounds.categories, j ∈ tasks := fun j hj =>
    hrefs j ((firsts_sublist rounds.categories).subset hj)
  have hdistinct : (categoryRefs rounds.categories).Nodup :=
    (List.nodup_append.mp (h.perm.nodup_iff.mpr hnodup)).2.1
  obtain ⟨honly, winner, hwinner, hfrom⟩ := foldl_tryCategory cfg dependent h.sums
    hweight rounds.categories hfirsts (h.only.ready hready) none (Or.inr hcategories)
  have hmem : winner.ref ∈ firsts rounds.categories := hfrom.resolve_right (by simp)
  unfold functionalRound
  generalize rounds.categories.foldl (tryCategory cfg dependent rounds.sums weight)
    (rounds.state, none) = acc at honly hwinner
  obtain ⟨s₁, best⟩ := acc
  dsimp only at honly hwinner ⊢
  subst hwinner
  have honly₂ := copyToNext_only cfg s₁ hrefs winner.ref
  have hcounted : OnlyFtickets tasks (copyToNext cfg rounds.categories winner.ref s₁)
      (sgeSetJobCnts cfg winner.ref (copyToNext cfg rounds.categories winner.ref s₁)) :=
    ⟨rfl, rfl, rfl, fun _ _ => rfl, fun hnonneg => hnonneg⟩
  obtain ⟨honly₃, hsums₃⟩ := calcPending_only cfg
    (sgeSetJobCnts cfg winner.ref (copyToNext cfg rounds.categories winner.ref s₁)) h.sums
    hweight (hfirsts winner.ref hmem)
  refine ⟨_, rfl, ⟨?_, h.only.trans (honly.trans (honly₂.trans (hcounted.trans honly₃))), hsums₃⟩,
    List.length_append⟩
  dsimp only
  rw [List.append_assoc, List.singleton_append]
  exact ((categoryRefs_removeWinner hdistinct hmem).append_left _).trans h.perm

theorem functionalRounds_spec (cfg : Config K) (dependent : Bool) (hweight : weight.Nonneg)
    (hnodup : tasks.Nodup) (hready : Ready tasks s₀) (n : ℕ) {rounds : Rounds K}
    (h : RoundsOk tasks s₀ rounds) (hn : rounds.sortList.length + n ≤ tasks.length) :
    RoundsOk tasks s₀ (functionalRounds cfg dependent weight n rounds) ∧
      (functionalRounds cfg dependent weight n rounds).sortList.length =
        rounds.sortList.length + n := by
  induction n generalizing rounds with
  | zero => exact ⟨h, rfl⟩
  | succ n ih =>
      have hcategories : rounds.categories ≠ [] := by
        intro hnil
        have hlength := h.perm.length_eq
        rw [hnil, List.length_append] at hlength
        simp [categoryRefs] at hlength
        omega
      obtain ⟨rounds', hround, hok, hlength⟩ := functionalRound_spec cfg dependent
        hweight hnodup hready h hcategories
      rw [functionalRounds, hround]
      dsimp only
      obtain ⟨hok', hlength'⟩ := ih hok (by omega)
      exact ⟨hok', by omega⟩

end Rounds

section Accounts
variable {K : Type} [Field K]

/-- The tasks that were ordered get what was assigned to them, each once. -/
theorem foldl_resetPending (cfg : Config K) (dependent : Bool) (sortList : List ℕ)
    (hnodup : sortList.Nodup) (s : State K) :
    (∀ j, (sortList.foldl (resetPending cfg dependent) s).tickets j =
        s.tickets j + if dependent = true ∧ j ∈ sortList then s.fticket j else 0) ∧
      (sortList.foldl (resetPending cfg dependent) s).fticket = s.fticket ∧
      (sortList.foldl (resetPending cfg dependent) s).sticket = s.sticket ∧
      (sortList.foldl (resetPending cfg dependent) s).oticket = s.oticket := by
  induction sortList generalizing s with
  | nil => simp
  | cons jref sortList ih =>
      obtain ⟨hnot, hnodup⟩ := List.nodup_cons.mp hnodup
      obtain ⟨htickets, hfticket, hsticket, hoticket⟩ :=
        ih hnodup (resetPending cfg dependent s jref)
      rw [List.foldl_cons]
      cases dependent with
      | false =>
          refine ⟨?_, hfticket, hsticket, hoticket⟩
          intro j
          rw [htickets]
          simp [resetPending, sgeUnsetJobCnts]
      | true =>
          refine ⟨?_, hfticket, hsticket, hoticket⟩
          intro j
          rw [htickets]
          by_cases hj : j = jref
          · subst hj
            simp [resetPending, sgeUnsetJobCnts, addTickets, hnot]
          · simp [resetPending, sgeUnsetJobCnts, addTickets, hj]

/-- The tasks that remain behind the first ones of their categories. -/
def nexts (categories : List Category) : List ℕ := categories.flatMap Category.next

theorem foldl_destribute (cfg : Config K) (dependent : Bool) (first : ℕ) (next : List ℕ)
    (hnodup : (first :: next).Nodup) (s : State K) :
    (∀ j, (next.foldl (destribute cfg dependent first) s).fticket j =
        if j ∈ next then s.fticket first else s.fticket j) ∧
      (∀ j, (next.foldl (destribute cfg dependent first) s).tickets j =
        s.tickets j + if dependent = true ∧ j ∈ next then s.fticket first else 0) ∧
      (next.foldl (destribute cfg dependent first) s).sticket = s.sticket ∧
      (next.foldl (destribute cfg dependent first) s).oticket = s.oticket := by
  induction next generalizing s with
  | nil => simp
  | cons current next ih =>
      rw [List.nodup_cons, List.mem_cons, not_or, List.nodup_cons] at hnodup
      obtain ⟨⟨hne, hfirst⟩, hnot, hnodup⟩ := hnodup
      obtain ⟨hfticket, htickets, hsticket, hoticket⟩ :=
        ih (List.nodup_cons.mpr ⟨hfirst, hnodup⟩) (destribute cfg dependent first s current)
      have hkept : (destribute cfg dependent first s current).fticket first = s.fticket first := by
        cases dependent with
        | false => simp [destribute, copyFtickets, hne]
        | true => simp [destribute, copyFtickets, addTickets, hne]
      rw [List.foldl_cons]
      refine ⟨?_, ?_, ?_, ?_⟩
      · intro j
        rw [hfticket, hkept]
        by_cases hj : j = current
        · subst hj
          cases dependent with
          | false => simp [destribute, copyFtickets]
          | true => simp [destribute, copyFtickets, addTickets]
        · cases dependent with
          | false => simp [destribute, copyFtickets, hj]
          | true => simp [destribute, copyFtickets, addTickets, hj]
      · intro j
        rw [htickets, hkept]
        by_cases hj : j = current
        · subst hj
          cases dependent with
          | false => simp [destribute, copyFtickets]
          | true => simp [destribute, copyFtickets, addTickets, hnot]
        · cases dependent with
          | false => simp [destribute, copyFtickets]
          | true => simp [destribute, copyFtickets, addTickets, hj]
      · rw [hsticket]
        cases dependent with
        | false => rfl
        | true => rfl
      · rw [hoticket]
        cases dependent with
        | false => rfl
        | true => rfl

/-- What `destribute_ftickets` does: the tasks behind the first one get its tickets. -/
structure Distributed (dependent : Bool) (categories : List Category) (s s' : State K) : Prop where
  kept : ∀ j ∉ nexts categories, s'.fticket j = s.fticket j
  copied : ∀ category ∈ categories, ∀ j ∈ category.next, s'.fticket j = s.fticket category.first
  tickets : ∀ j, s'.tickets j =
    s.tickets j + if dependent = true ∧ j ∈ nexts categories then s'.fticket j else 0
  sticket : s'.sticket = s.sticket
  oticket : s'.oticket = s.oticket

theorem destributeFtickets_spec (cfg : Config K) (dependent : Bool) (categories : List Category)
    (hnodup : (categoryRefs categories).Nodup) (s : State K) :
    Distributed dependent categories s (destributeFtickets cfg dependent categories s) := by
  unfold destributeFtickets
  induction categories generalizing s with
  | nil => exact ⟨fun _ _ => rfl, by simp, by simp [nexts], rfl, rfl⟩
  | cons category categories ih =>
      rw [categoryRefs_cons] at hnodup
      obtain ⟨hhead, hrest, hdisjoint⟩ := List.nodup_append.mp hnodup
      obtain ⟨hfticket, htickets, hsticket, hoticket⟩ :=
        foldl_destribute cfg dependent category.first category.next hhead s
      rw [List.foldl_cons]
      generalize category.next.foldl (destribute cfg dependent category.first) s = s₁ at *
      have h := ih hrest s₁
      have hnexts : ∀ j ∈ nexts categories, j ∈ categoryRefs categories := by
        intro j hj
        obtain ⟨c, hc, hj⟩ := List.mem_flatMap.mp hj
        exact List.mem_flatMap.mpr ⟨c, hc, List.mem_cons_of_mem _ hj⟩
      have hother : ∀ j ∈ category.next, j ∉ nexts categories := by
        intro j hj hmem
        exact hdisjoint j (List.mem_cons_of_mem _ hj) j (hnexts j hmem) rfl
      have hcons : nexts (category :: categories) = category.next ++ nexts categories :=
        List.flatMap_cons
      constructor
      · intro j hj
        rw [hcons, List.mem_append, not_or] at hj
        rw [h.kept j hj.2, hfticket, if_neg hj.1]
      · intro c hc j hj
        rcases List.mem_cons.mp hc with rfl | hc
        · rw [h.kept j (hother j hj), hfticket, if_pos hj]
        · have hfirst : c.first ∉ category.next := by
            intro hmem
            exact hdisjoint c.first (List.mem_cons_of_mem _ hmem) c.first
              (List.mem_flatMap.mpr ⟨c, hc, List.mem_cons_self⟩) rfl
          rw [h.copied c hc j hj, hfticket, if_neg hfirst]
      · intro j
        rw [h.tickets, htickets, hcons, add_assoc]
        congr 1
        by_cases hj : j ∈ category.next
        · have hvalue := h.kept j (hother j hj)
          rw [hfticket, if_pos hj] at hvalue
          simp [hj, hother j hj, hvalue]
        · simp [hj]
      · exact h.sticket.trans hsticket
      · exact h.oticket.trans hoticket

end Accounts

end GridEngine.TicketPolicies
