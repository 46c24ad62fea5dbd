import Mathlib.Data.List.Basic

/-!
# First matching rules

Rules are tried in order, and the first one that matches decides. A rule here matches when its own
condition `J` holds and both coordinates of a point are in its scopes `A` and `B`. `M` is a view of
`J` that may overlook rules.
-/

namespace FirstMatch
variable {ρ α β : Type*}

theorem findIdx?_iff {p : ρ → Bool} {rules : List ρ} {i : ℕ} {rule : ρ} (h : rules[i]? = some rule) :
    rules.findIdx? p = some i ↔ p rule ∧ ∀ r ∈ rules.take i, ¬ p r := by
  obtain ⟨hlt, hrule⟩ := List.getElem?_eq_some_iff.mp h
  rw [List.findIdx?_eq_some_iff_getElem]
  constructor
  · intro hfirst
    obtain ⟨hlt', hp, hbefore⟩ := hfirst
    refine ⟨by rwa [← hrule], fun r hr => ?_⟩
    obtain ⟨j, hj, rfl⟩ := List.mem_iff_getElem.mp hr
    rw [List.length_take] at hj
    rw [List.getElem_take]
    exact hbefore j (by omega)
  · intro hfirst
    refine ⟨hlt, by rw [hrule]; exact hfirst.1, fun j hj => ?_⟩
    have hmem : rules[j] ∈ rules.take i :=
      List.mem_iff_getElem.mpr ⟨j, by rw [List.length_take]; omega, List.getElem_take⟩
    exact hfirst.2 _ hmem

/-- The rules of the list that are seen have no influence along the axis `B`. A point whose first
coordinate is the one of a point no rule matches, or is in no scope of a seen rule, is matched by
overlooked rules only. -/
theorem overlooked_iff {earlier : List ρ} {J M : ρ → Prop} {A : ρ → α → Prop} {B : ρ → β → Prop}
    {a a' : α} {b b' : β} (hfirst : ∀ r ∈ earlier, ¬ (J r ∧ A r a ∧ B r b))
    (hseen : ∀ r ∈ earlier, M r → ∀ b, B r b)
    (hpoint : a' = a ∨ ∀ r ∈ earlier, M r → ¬ A r a') :
    (∀ r ∈ earlier, ¬ (J r ∧ A r a' ∧ B r b')) ↔
      ∀ r ∈ earlier, J r ∧ A r a' ∧ B r b' → M r := by
  constructor
  · intro hnone r hr hmatch
    exact absurd hmatch (hnone r hr)
  · intro hoverlooked r hr hmatch
    have hM : M r := hoverlooked r hr hmatch
    rcases hpoint with rfl | hnot
    · exact hfirst r hr ⟨hmatch.1, hmatch.2.1, hseen r hr hM b⟩
    · exact hnot r hr hM hmatch.2.1

end FirstMatch
