import GridEngine.TicketPolicies
import Mathlib.Algebra.Order.BigOperators.Group.List

/-!
# What a policy assigns

A policy changes its own tickets only, and a dependent one adds them to `jref->tickets`, each task
once. The sums over the policies follow for every run of the policy loop.
-/

namespace GridEngine.TicketPolicies

section Assigns
variable {K : Type} [Field K] [LinearOrder K] {policy : Policy} {dependent : Bool}
  {tasks tasks' : List ℕ} {s s' s'' : State K}

/-- The policy assigns tickets to the tasks. -/
structure Assigns (policy : Policy) (dependent : Bool) (tasks : List ℕ) (s s' : State K) :
    Prop where
  tickets : ∀ j, s'.tickets j =
    s.tickets j + if dependent = true ∧ j ∈ tasks then assigned s' j policy else 0
  nonneg : ∀ j ∈ tasks, 0 ≤ assigned s' j policy
  unassigned : ∀ j ∉ tasks, assigned s' j policy = assigned s j policy
  kept : ∀ other, other ≠ policy → ∀ j, assigned s' j other = assigned s j other

namespace Assigns

theorem nil (policy : Policy) (dependent : Bool) (s : State K) :
    Assigns policy dependent [] s s where
  tickets j := by simp
  nonneg j hj := absurd hj List.not_mem_nil
  unassigned _ _ := rfl
  kept _ _ _ := rfl

theorem append (h : Assigns policy dependent tasks s s')
    (h' : Assigns policy dependent tasks' s' s'') (hdisjoint : ∀ j ∈ tasks, j ∉ tasks') :
    Assigns policy dependent (tasks ++ tasks') s s'' where
  tickets := by
    intro j
    rw [h'.tickets, h.tickets, add_assoc]
    congr 1
    by_cases hj : j ∈ tasks
    · have hj' := hdisjoint j hj
      simp [hj, hj', h'.unassigned j hj']
    · simp [hj]
  nonneg := by
    intro j hj
    by_cases hj' : j ∈ tasks'
    · exact h'.nonneg j hj'
    · rw [h'.unassigned j hj']
      exact h.nonneg j ((List.mem_append.mp hj).resolve_right hj')
  unassigned := by
    intro j hj
    rw [List.mem_append, not_or] at hj
    rw [h'.unassigned j hj.2, h.unassigned j hj.1]
  kept other hother j := (h'.kept other hother j).trans (h.kept other hother j)

theorem foldl {α : Type} {f : State K → α → State K} (task : α → ℕ) (p : α → Bool) {l : List α}
    (hstep : ∀ s, ∀ a ∈ l,
      Assigns policy dependent (if p a then [task a] else []) s (f s a))
    (hnodup : (l.map task).Nodup) (s : State K) :
    Assigns policy dependent ((l.filter p).map task) s (l.foldl f s) := by
  induction l generalizing s with
  | nil => exact nil policy dependent s
  | cons a l ih =>
      rw [List.map_cons, List.nodup_cons] at hnodup
      have hhead := hstep s a List.mem_cons_self
      have hrest := ih (fun s b hb => hstep s b (List.mem_cons_of_mem _ hb)) hnodup.2 (f s a)
      have hsplit : ((a :: l).filter p).map task =
          (if p a then [task a] else []) ++ (l.filter p).map task := by
        rw [List.filter_cons]
        split_ifs <;> rfl
      rw [hsplit, List.foldl_cons]
      apply hhead.append hrest
      intro j hj hmem
      split_ifs at hj
      · rw [List.mem_singleton.mp hj] at hmem
        exact hnodup.1 ((List.filter_sublist.map task).subset hmem)
      · exact absurd hj List.not_mem_nil

theorem single {jref : ℕ} {v : K} (hv : 0 ≤ v) (hself : assigned s' jref policy = v)
    (hother : ∀ j, j ≠ jref → assigned s' j policy = assigned s j policy)
    (hkept : ∀ other, other ≠ policy → ∀ j, assigned s' j other = assigned s j other)
    (htickets : s'.tickets = if dependent then Function.update s.tickets jref (s.tickets jref + v)
      else s.tickets) : Assigns policy dependent [jref] s s' where
  tickets := by
    intro j
    rw [htickets]
    by_cases hj : j = jref
    · subst hj
      cases dependent <;> simp [hself]
    · cases dependent <;> simp [hj]
  nonneg := by
    intro j hj
    rw [List.mem_singleton.mp hj, hself]
    exact hv
  unassigned j hj := hother j fun heq => hj (List.mem_singleton.mpr heq)
  kept := hkept

end Assigns

end Assigns

section AssignedTickets
variable {K : Type} [Field K]

/-- The tickets that the dependent ones of the policies have assigned to a task. -/
def assignedTickets (entries : List (Policy × Bool)) (s : State K) (jref : ℕ) : K :=
  ((entries.filter fun entry => entry.2).map fun entry => assigned s jref entry.1).sum

theorem assignedTickets_concat (entries : List (Policy × Bool)) (entry : Policy × Bool)
    (s : State K) (j : ℕ) :
    assignedTickets (entries ++ [entry]) s j =
      assignedTickets entries s j + if entry.2 then assigned s j entry.1 else 0 := by
  unfold assignedTickets
  rw [List.filter_append, List.map_append, List.sum_append]
  congr 1
  cases h : entry.2 with
  | false => simp [h]
  | true => simp [h]

end AssignedTickets

section Accounts
variable {K : Type} [Field K] [LinearOrder K]

/-- The task is one of the queued ones in the `job_ref` array. -/
def Config.Pending (cfg : Config K) (jref : ℕ) : Prop :=
  jref < cfg.numJobs ∧ (cfg.ref jref).queued = true

/-- `jref->tickets` of every pending task is what the dependent policies before have assigned to
it, and the policies after have not assigned anything. -/
structure Accounts (cfg : Config K) (entries : List (Policy × Bool)) (s : State K) : Prop where
  tickets : ∀ j, cfg.Pending j → s.tickets j = assignedTickets entries s j
  fresh : ∀ policy, policy ∉ entries.map Prod.fst → ∀ j, cfg.Pending j → assigned s j policy = 0
  nonneg : ∀ policy j, cfg.Pending j → 0 ≤ assigned s j policy

variable {cfg : Config K} {entries : List (Policy × Bool)} {policy : Policy} {dependent : Bool}
  {tasks : List ℕ} {s s' : State K}

theorem Accounts.tickets_nonneg [IsStrictOrderedRing K] (h : Accounts cfg entries s) (j : ℕ)
    (hj : cfg.Pending j) : 0 ≤ s.tickets j := by
  rw [h.tickets j hj]
  apply List.sum_nonneg
  intro x hx
  obtain ⟨entry, -, rfl⟩ := List.mem_map.mp hx
  exact h.nonneg entry.1 j hj

/-- The policies that were evaluated before keep what they have assigned. -/
theorem assignedTickets_kept (h : Assigns policy dependent tasks s s')
    (hnew : policy ∉ entries.map Prod.fst) (j : ℕ) :
    assignedTickets entries s' j = assignedTickets entries s j := by
  unfold assignedTickets
  congr 1
  apply List.map_congr_left
  intro entry hentry
  apply h.kept
  intro heq
  exact hnew (heq ▸ List.mem_map_of_mem (List.mem_of_mem_filter hentry))

theorem Accounts.assigns (h : Accounts cfg entries s)
    (hassigns : Assigns policy dependent tasks s s') (hnew : policy ∉ entries.map Prod.fst) :
    Accounts cfg (entries ++ [(policy, dependent)]) s' where
  tickets := by
    intro j hj
    rw [assignedTickets_concat, assignedTickets_kept hassigns hnew, ← h.tickets j hj,
      hassigns.tickets]
    congr 1
    cases dependent with
    | false => simp
    | true =>
        by_cases hmem : j ∈ tasks
        · simp [hmem]
        · have hzero := (hassigns.unassigned j hmem).trans (h.fresh policy hnew j hj)
          simp [hmem, hzero]
  fresh := by
    intro other hother j hj
    rw [List.map_append, List.mem_append, not_or] at hother
    have hne : other ≠ policy := fun heq => hother.2 (heq ▸ List.mem_singleton_self _)
    rw [hassigns.kept other hne]
    exact h.fresh other hother.1 j hj
  nonneg := by
    intro other j hj
    by_cases heq : other = policy
    · subst heq
      by_cases hmem : j ∈ tasks
      · exact hassigns.nonneg j hmem
      · rw [hassigns.unassigned j hmem]
        exact h.nonneg _ j hj
    · rw [hassigns.kept other heq]
      exact h.nonneg other j hj

end Accounts

end GridEngine.TicketPolicies
