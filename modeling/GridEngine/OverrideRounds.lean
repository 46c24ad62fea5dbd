import GridEngine.TicketAssignments
import GridEngine.TicketCategories
import Mathlib.Tactic.Positivity

/-!
# The override policy

The shared override policy takes one task out of the categories in every round until none is left,
and it adds the override tickets of each task to `jref->tickets`, whether it is dependent or not.
-/

namespace GridEngine.TicketPolicies

variable {K : Type} [Field K] [LinearOrder K] [IsStrictOrderedRing K] {cfg : Config K}
  {dependent : Bool} {tasks : List ℕ} {s s' : State K}

section Tickets

theorem ownerOtickets_nonneg (cfg : Config K) (jref : ℕ) (s : State K) (owner : Owner) :
    0 ≤ ownerOtickets cfg jref s owner := by
  unfold ownerOtickets
  cases (cfg.ref jref).owner owner with
  | none => exact le_rfl
  | some object =>
      dsimp only
      split_ifs <;> positivity

theorem calcPjobOverrideTicketsShared_eq (cfg : Config K) (jref : ℕ) (s : State K) :
    ∃ v, 0 ≤ v ∧ calcPjobOverrideTicketsShared cfg jref s =
      { s with oticket := Function.update s.oticket jref v } := by
  refine ⟨_, ?_, rfl⟩
  have huser := ownerOtickets_nonneg cfg jref s .user
  have hproject := ownerOtickets_nonneg cfg jref s .project
  have hdepartment := ownerOtickets_nonneg cfg jref s .department
  positivity

end Tickets

section Tries

/-- Only the override tickets of the given tasks change, and they do not get negative. -/
structure OnlyOtickets (tasks : List ℕ) (s s' : State K) : Prop where
  tickets : s'.tickets = s.tickets
  sticket : s'.sticket = s.sticket
  fticket : s'.fticket = s.fticket
  oticket : ∀ j ∉ tasks, s'.oticket j = s.oticket j
  nonneg : ∀ j ∈ tasks, 0 ≤ s'.oticket j

/-- The best task so far with its override tickets. -/
def Best.Valid (best : Best K) (s : State K) : Prop := best.tickets = s.oticket best.ref

theorem foldl_tryOverride (cfg : Config K) (categories : List Category)
    (hnodup : (firsts categories).Nodup) (s : State K) (best : Option (Best K))
    (hvalid : ∀ b, best = some b → b.Valid s ∧ b.ref ∉ firsts categories)
    (hsome : best.isSome ∨ categories ≠ []) :
    OnlyOtickets (firsts categories) s (categories.foldl (tryOverride cfg) (s, best)).1 ∧
      ∃ winner, (categories.foldl (tryOverride cfg) (s, best)).2 = some winner ∧
        winner.Valid (categories.foldl (tryOverride cfg) (s, best)).1 ∧
        (winner.ref ∈ firsts categories ∨ best = some winner) := by
  induction categories generalizing s best with
  | nil =>
      obtain ⟨winner, rfl⟩ := Option.isSome_iff_exists.mp (hsome.resolve_right fun h => h rfl)
      exact ⟨⟨rfl, rfl, rfl, fun _ _ => rfl, fun j hj => absurd hj List.not_mem_nil⟩,
        winner, rfl, (hvalid winner rfl).1, Or.inr rfl⟩
  | cons category categories ih =>
      rw [firsts, List.map_cons, List.nodup_cons] at hnodup
      obtain ⟨v, hv, heq⟩ := calcPjobOverrideTicketsShared_eq cfg category.first s
      obtain ⟨s₁, hs₁⟩ : ∃ s₁, calcPjobOverrideTicketsShared cfg category.first s = s₁ := ⟨_, rfl⟩
      rw [hs₁] at heq
      have hself : s₁.oticket category.first = v := by rw [heq]; exact Function.update_self ..
      have hother : ∀ j, j ≠ category.first → s₁.oticket j = s.oticket j := by
        intro j hj
        rw [heq]
        exact Function.update_of_ne hj ..
      obtain ⟨best₁, hbest₁, hvalid₁, hfrom₁⟩ :
          ∃ best₁, (tryOverride cfg (s, best) category).2 = some best₁ ∧ best₁.Valid s₁ ∧
            (best₁.ref = category.first ∨ best = some best₁) := by
        unfold tryOverride
        dsimp only
        rw [hs₁]
        split_ifs with hbeats
        · exact ⟨_, rfl, rfl, Or.inl rfl⟩
        · cases best with
          | none => exact absurd rfl hbeats
          | some b =>
              obtain ⟨hb, hnot⟩ := hvalid b rfl
              refine ⟨b, rfl, ?_, Or.inr rfl⟩
              have hne : b.ref ≠ category.first := fun h => hnot (h ▸ List.mem_cons_self)
              rw [Best.Valid, hother b.ref hne]
              exact hb
      have hhead : tryOverride cfg (s, best) category = (s₁, some best₁) := by
        rw [← hbest₁, ← hs₁]
        rfl
      rw [List.foldl_cons, hhead]
      obtain ⟨honly, winner, hwinner, hwinner_valid, hfrom⟩ :=
        ih hnodup.2 s₁ (some best₁) (by
          intro b hb
          obtain rfl := Option.some.inj hb
          refine ⟨hvalid₁, ?_⟩
          rcases hfrom₁ with hfirst | hbest
          · rw [hfirst]
            exact hnodup.1
          · exact fun hmem => (hvalid _ hbest).2 (List.mem_cons_of_mem _ hmem)) (Or.inl rfl)
      refine ⟨?_, winner, hwinner, hwinner_valid, ?_⟩
      · constructor
        · rw [honly.tickets, heq]
        · rw [honly.sticket, heq]
        · rw [honly.fticket, heq]
        · intro j hj
          rw [firsts, List.map_cons, List.mem_cons, not_or] at hj
          rw [honly.oticket j hj.2, hother j hj.1]
        · intro j hj
          by_cases hmem : j ∈ firsts categories
          · exact honly.nonneg j hmem
          · rcases List.mem_cons.mp hj with rfl | hj
            · rw [honly.oticket _ hmem, hself]
              exact hv
            · exact absurd hj hmem
      · rcases hfrom with hmem | hbest
        · exact Or.inl (List.mem_cons_of_mem _ hmem)
        · obtain rfl := Option.some.inj hbest
          rcases hfrom₁ with hfirst | hbest
          · left
            rw [hfirst]
            exact List.mem_cons_self
          · exact Or.inr hbest

end Tries

section Rounds
variable {s₀ : State K}

/-- The order so far and the categories hold the tasks, and the ordered ones have their tickets. -/
structure OverrideOk (tasks : List ℕ) (s₀ : State K) (rounds : OverrideRounds K) : Prop where
  perm : (rounds.sortList ++ categoryRefs rounds.categories).Perm tasks
  tickets : ∀ j, rounds.state.tickets j =
    s₀.tickets j + if j ∈ rounds.sortList then rounds.state.oticket j else 0
  nonneg : ∀ j ∈ rounds.sortList, 0 ≤ rounds.state.oticket j
  oticket : ∀ j ∉ tasks, rounds.state.oticket j = s₀.oticket j
  sticket : rounds.state.sticket = s₀.sticket
  fticket : rounds.state.fticket = s₀.fticket

theorem overrideRound_spec (cfg : Config K) (hnodup : tasks.Nodup) {rounds : OverrideRounds K}
    (h : OverrideOk tasks s₀ rounds) (hcategories : rounds.categories ≠ []) :
    ∃ rounds', overrideRound cfg rounds = some rounds' ∧ OverrideOk tasks s₀ rounds' ∧
      rounds'.sortList.length = rounds.sortList.length + 1 := by
  obtain ⟨-, hdistinct, hdisjoint⟩ := List.nodup_append.mp (h.perm.nodup_iff.mpr hnodup)
  have hfirsts := firsts_sublist rounds.categories
  have hsorted : ∀ j ∈ rounds.sortList, j ∉ firsts rounds.categories := fun j hj hmem =>
    hdisjoint j hj j (hfirsts.subset hmem) rfl
  obtain ⟨honly, winner, hwinner, hvalid, hfrom⟩ := foldl_tryOverride cfg rounds.categories
    (hdistinct.sublist hfirsts) rounds.state none (by simp) (Or.inr hcategories)
  have hmem : winner.ref ∈ firsts rounds.categories := hfrom.resolve_right (by simp)
  unfold overrideRound
  generalize rounds.categories.foldl (tryOverride cfg) (rounds.state, none) = acc
    at honly hwinner hvalid
  obtain ⟨s₁, best⟩ := acc
  dsimp only at honly hwinner hvalid ⊢
  subst hwinner
  refine ⟨_, rfl, ?_, List.length_append⟩
  constructor
  · dsimp only
    rw [List.append_assoc, List.singleton_append]
    exact ((categoryRefs_removeWinner hdistinct hmem).append_left _).trans h.perm
  · intro j
    simp only [addTickets, sgeSetJobCnts, List.mem_append, List.mem_singleton]
    by_cases hj : j = winner.ref
    · have hnot : winner.ref ∉ rounds.sortList := fun hsort => hsorted _ hsort hmem
      rw [hj, Function.update_self, honly.tickets, h.tickets, if_neg hnot, if_pos (Or.inr rfl),
        add_zero, ← hvalid]
    · rw [Function.update_of_ne hj, honly.tickets, h.tickets]
      by_cases hsort : j ∈ rounds.sortList
      · rw [if_pos hsort, if_pos (Or.inl hsort), honly.oticket j (hsorted j hsort)]
      · rw [if_neg hsort, if_neg (by simp [hsort, hj])]
  · intro j hj
    simp only [addTickets, sgeSetJobCnts]
    rcases List.mem_append.mp hj with hsort | hsort
    · rw [honly.oticket j (hsorted j hsort)]
      exact h.nonneg j hsort
    · rw [List.mem_singleton.mp hsort]
      exact honly.nonneg _ hmem
  · intro j hj
    have hnot : j ∉ firsts rounds.categories := fun hfirst =>
      hj (h.perm.subset (List.mem_append_right _ (hfirsts.subset hfirst)))
    exact (honly.oticket j hnot).trans (h.oticket j hj)
  · exact honly.sticket.trans h.sticket
  · exact honly.fticket.trans h.fticket

theorem overrideRounds_spec (cfg : Config K) (hnodup : tasks.Nodup) (n : ℕ)
    {rounds : OverrideRounds K} (h : OverrideOk tasks s₀ rounds)
    (hn : rounds.sortList.length + n = tasks.length) :
    OverrideOk tasks s₀ (overrideRounds cfg n rounds) ∧
      (overrideRounds cfg n rounds).sortList.length = tasks.length := by
  induction n generalizing rounds with
  | zero => exact ⟨h, hn⟩
  | succ n ih =>
      have hcategories : rounds.categories ≠ [] := by
        intro hnil
        have hlength := h.perm.length_eq
        rw [hnil, List.length_append] at hlength
        simp [categoryRefs] at hlength
        omega
      obtain ⟨rounds', hround, hok, hlength⟩ := overrideRound_spec cfg hnodup h hcategories
      rw [overrideRounds, hround]
      exact ih hok (by omega)

end Rounds

section Policy

theorem foldl_sgeUnsetJobCnts {K : Type} (cfg : Config K) (sortList : List ℕ) (s : State K) :
    (sortList.foldl (fun s jref => sgeUnsetJobCnts cfg jref s) s).tickets = s.tickets ∧
      ∀ j policy, assigned (sortList.foldl (fun s jref => sgeUnsetJobCnts cfg jref s) s) j policy =
        assigned s j policy := by
  induction sortList generalizing s with
  | nil => exact ⟨rfl, fun _ _ => rfl⟩
  | cons jref sortList ih =>
      obtain ⟨htickets, hassigned⟩ := ih (sgeUnsetJobCnts cfg jref s)
      refine ⟨htickets, ?_⟩
      intro j policy
      rw [List.foldl_cons, hassigned]
      cases policy <;> rfl

/-- The tickets are added in any case, as if the policy were dependent. -/
theorem calculatePendingSharedOverrideTickets_spec (cfg : Config K) (dependent : Bool)
    (s : State K) :
    ∃ s', calculatePendingSharedOverrideTickets cfg dependent s = some s' ∧
      Assigns .override true (sharingTasks cfg Ref.overrideTickets cfg.oticket) s s' := by
  obtain ⟨hperm, hmax⟩ := buildFunctionalCategories_spec cfg s.tickets dependent
    Ref.overrideTickets cfg.oticket
  have hnodup := nodup_sharingTasks cfg Ref.overrideTickets cfg.oticket
  unfold calculatePendingSharedOverrideTickets
  generalize buildFunctionalCategories cfg s.tickets dependent Ref.overrideTickets cfg.oticket =
    built at hperm hmax
  obtain ⟨categories, max⟩ := built
  dsimp only at hperm hmax ⊢
  generalize sharingTasks cfg Ref.overrideTickets cfg.oticket = tasks at *
  have hstart : OverrideOk tasks s ⟨s, categories, []⟩ :=
    ⟨hperm, by simp, by simp, fun _ _ => rfl, rfl, rfl⟩
  obtain ⟨hok, hlength⟩ := overrideRounds_spec cfg hnodup max hstart (by simpa using hmax)
  generalize overrideRounds cfg max ⟨s, categories, []⟩ = rounds at *
  obtain ⟨htickets, hassigned⟩ := foldl_sgeUnsetJobCnts cfg rounds.sortList rounds.state
  rw [if_neg (by omega)]
  refine ⟨_, rfl, ?_⟩
  -- every task has been taken from the categories
  have hempty : categoryRefs rounds.categories = [] := by
    have := hok.perm.length_eq
    rw [List.length_append, hlength] at this
    exact List.length_eq_zero_iff.mp (by omega)
  have hmem : ∀ j, j ∈ rounds.sortList ↔ j ∈ tasks := by
    have := hok.perm
    rw [hempty, List.append_nil] at this
    exact fun j => this.mem_iff
  constructor
  · intro j
    rw [htickets, hok.tickets, hassigned]
    simp [hmem, assigned]
  · intro j hj
    rw [hassigned]
    exact hok.nonneg j ((hmem j).mpr hj)
  · intro j hj
    rw [hassigned]
    exact hok.oticket j hj
  · intro other hother j
    rw [hassigned]
    cases other with
    | override => exact absurd rfl hother
    | functional => exact congrFun hok.fticket j
    | shareTree => exact congrFun hok.sticket j

theorem overrideTask_assigns (cfg : Config K) (dependent : Bool) (s : State K) (jref : ℕ) :
    Assigns .override dependent (if (cfg.ref jref).queued then [jref] else []) s
      (overrideTask cfg dependent s jref) := by
  unfold overrideTask
  by_cases hqueued : (cfg.ref jref).queued = true
  · have hnonneg : 0 ≤ (calcJobOverrideTickets cfg jref s).oticket jref := by
      dsimp only [calcJobOverrideTickets]
      rw [Function.update_self]
      positivity
    rw [if_pos hqueued, if_pos hqueued]
    apply Assigns.single hnonneg
    · cases dependent <;> rfl
    · intro j hj
      cases dependent <;> exact Function.update_of_ne hj ..
    · intro other hother j
      cases other with
      | override => exact absurd rfl hother
      | functional => cases dependent <;> rfl
      | shareTree => cases dependent <;> rfl
    · cases dependent <;> rfl
  · rw [if_neg hqueued, if_neg hqueued]
    exact Assigns.nil .override dependent s

/-- When the override policy adds to `jref->tickets` what it should. -/
def Config.OverrideFine (cfg : Config K) (dependent : Bool) : Prop :=
  dependent = true ∨ cfg.shareOverrideTickets = false ∨
    sharingTasks cfg Ref.overrideTickets cfg.oticket = []

theorem overridePolicy_spec (h : cfg.OverrideFine dependent) (s : State K) :
    ∃ s' tasks, overridePolicy cfg dependent s = some s' ∧
      Assigns .override dependent tasks s s' := by
  unfold overridePolicy
  split_ifs with hshared
  · obtain ⟨s', hs', hassigns⟩ := calculatePendingSharedOverrideTickets_spec cfg dependent s
    refine ⟨s', sharingTasks cfg Ref.overrideTickets cfg.oticket, hs', ?_⟩
    rcases h with rfl | hfalse | hnone
    · exact hassigns
    · rw [hfalse] at hshared
      exact absurd hshared Bool.false_ne_true
    · rw [hnone] at hassigns ⊢
      exact ⟨fun j => by simpa using hassigns.tickets j, hassigns.nonneg, hassigns.unassigned,
        hassigns.kept⟩
  · refine ⟨_, _, rfl, Assigns.foldl id (fun jref => (cfg.ref jref).queued) ?_ ?_ s⟩
    · exact fun s jref _ => overrideTask_assigns cfg dependent s jref
    · rw [List.map_id]
      exact List.nodup_range

end Policy

end GridEngine.TicketPolicies
