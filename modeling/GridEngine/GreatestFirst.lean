import Mathlib.Tactic

/-!
# Taking the greatest element first

A finite set is emptied from above: each step takes the greatest element and keeps those that are
less. The least element of the order stands for the end. The elements below a number of marks are
those that are left when everything from each mark on was passed.
-/

namespace GreatestFirst

variable {α : Type*} [LinearOrder α] {S : Finset α} {a : α} {marks : List α}

/-- The elements below every mark. -/
def below (S : Finset α) (marks : List α) : Finset α := S.filter (fun a => ∀ m ∈ marks, a < m)

theorem mem_below : a ∈ below S marks ↔ a ∈ S ∧ ∀ m ∈ marks, a < m := Finset.mem_filter

theorem below_below (more : List α) : below (below S marks) more = below S (marks ++ more) := by
  ext a
  simp only [mem_below, List.mem_append, and_assoc, or_imp, forall_and]

theorem filter_lt_eq_below (m : α) : S.filter (fun a => a < m) = below S [m] := by
  ext a
  simp [mem_below]

variable [OrderBot α]

/-- The first elements that are taken. -/
def taken : ℕ → Finset α → List α
  | 0, _ => []
  | n + 1, S => S.sup id :: taken n (S.filter (fun a => a < S.sup id))

theorem sup_mem (hS : S.Nonempty) : S.sup id ∈ S := by
  have h := S.exists_mem_eq_sup hS id
  obtain ⟨a, ha, heq⟩ := h
  exact heq ▸ ha

theorem taken_empty (n : ℕ) : taken n (∅ : Finset α) = List.replicate n ⊥ := by
  induction n with
  | zero => rfl
  | succ n ih => rw [taken, Finset.filter_empty, ih, Finset.sup_empty, List.replicate_succ]

/-- The elements come in descending order, each once, and then only `⊥`. -/
theorem taken_eq : ∃ l : List α, l.Pairwise (· > ·) ∧ (∀ a, a ∈ l ↔ a ∈ S) ∧
    ∀ n, taken n S = (l ++ List.replicate n ⊥).take n := by
  induction hcard : S.card using Nat.strong_induction_on generalizing S with
  | _ k ih =>
      rcases S.eq_empty_or_nonempty with rfl | hne
      · refine ⟨[], List.Pairwise.nil, by simp, fun n => ?_⟩
        rw [taken_empty, List.nil_append, List.take_of_length_le (by simp)]
      · have hmem := sup_mem hne
        have hlt : (S.filter (fun a => a < S.sup id)).card < k := by
          rw [← hcard]
          exact Finset.card_lt_card (Finset.filter_ssubset.mpr ⟨_, hmem, lt_irrefl _⟩)
        obtain ⟨l, hdesc, hl, htaken⟩ := ih _ hlt rfl
        refine ⟨S.sup id :: l, List.pairwise_cons.mpr ⟨fun a ha => ?_, hdesc⟩, fun a => ?_,
          fun n => ?_⟩
        · exact (Finset.mem_filter.mp ((hl a).mp ha)).2
        · rw [List.mem_cons, hl, Finset.mem_filter]
          constructor
          · rintro (rfl | ⟨ha, -⟩)
            · exact hmem
            · exact ha
          · intro ha
            rcases (Finset.le_sup (f := id) ha : a ≤ S.sup id).eq_or_lt with heq | hlt'
            · exact Or.inl heq
            · exact Or.inr ⟨ha, hlt'⟩
        · cases n with
          | zero => rfl
          | succ n =>
              rw [taken, htaken, List.cons_append, List.take_succ_cons, List.take_append,
                List.take_append, List.take_replicate, List.take_replicate,
                Nat.min_eq_left (by omega), Nat.min_eq_left (by omega)]

end GreatestFirst
