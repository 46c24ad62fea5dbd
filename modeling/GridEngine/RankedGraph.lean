import Mathlib.Algebra.Order.BigOperators.Group.List
import Mathlib.Algebra.Order.Ring.Nat

/-!
# Ranked graphs

A graph is given by the nodes that each node depends on. When every node has a rank above the ranks
of what it depends on, there is no cycle. The dependencies of one node may be replaced by any that
do not lead back to it.
-/

namespace RankedGraph
open Relation

variable {α : Type*} {deps deps' : α → List α} {n : α}

def WaitsFor (deps : α → List α) (n m : α) : Prop := m ∈ deps n

def Ranked (deps : α → List α) : Prop := ∃ rank : α → ℕ, ∀ n, ∀ m ∈ deps n, rank m < rank n

theorem Ranked.acyclic (h : Ranked deps) (n : α) : ¬ TransGen (WaitsFor deps) n n := by
  obtain ⟨rank, hrank⟩ := h
  intro hcycle
  have hlt : ∀ m, TransGen (WaitsFor deps) n m → rank m < rank n := by
    intro m hm
    induction hm with
    | single hm => exact hrank _ _ hm
    | tail _ hm ih => exact (hrank _ _ hm).trans ih
  exact lt_irrefl _ (hlt n hcycle)

theorem Ranked.mono (h : Ranked deps) (hsub : ∀ k, deps' k ⊆ deps k) : Ranked deps' := by
  obtain ⟨rank, hrank⟩ := h
  exact ⟨rank, fun k m hm => hrank k m (hsub k hm)⟩

theorem Ranked.not_leads (h : Ranked deps) {m : α} (hm : m ∈ deps n) :
    ¬ ReflTransGen (WaitsFor deps) m n :=
  fun hlead => h.acyclic n (TransGen.head' hm hlead)

/-- The nodes that lead to `n` are moved above the new dependencies of `n`. -/
theorem Ranked.replace (h : Ranked deps)
    (hfree : ∀ m ∈ deps' n, ¬ ReflTransGen (WaitsFor deps) m n)
    (hsub : ∀ k, k ≠ n → deps' k ⊆ deps k) : Ranked deps' := by
  classical
  obtain ⟨rank, hrank⟩ := h
  obtain ⟨bound, hbound⟩ : ∃ bound, ∀ m ∈ deps' n, rank m < bound :=
    ⟨((deps' n).map rank).sum + 1, fun m hm =>
      Nat.lt_succ_of_le (List.le_sum_of_mem (List.mem_map_of_mem hm))⟩
  refine ⟨fun k => rank k + if ReflTransGen (WaitsFor deps) k n then bound else 0, ?_⟩
  intro k m hm
  beta_reduce
  by_cases hk : k = n
  · subst hk
    have hlt := hbound m hm
    rw [if_neg (hfree m hm), if_pos .refl]
    omega
  · have hdep : m ∈ deps k := hsub k hk hm
    have hlt := hrank k m hdep
    by_cases hlead : ReflTransGen (WaitsFor deps) m n
    · rw [if_pos hlead, if_pos (hlead.head hdep)]
      omega
    · rw [if_neg hlead]
      omega

end RankedGraph
