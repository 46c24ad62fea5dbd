import Mathlib.Data.List.Infix

/-!
# Runs of labelled transition systems

A run carries the list of its labels. An invariant may speak about that history, and a
simulation relates the state after a run to the result of folding an abstract step over the
history.
-/

namespace Machine
variable {σ τ ε : Type*} {step : σ → ε → σ → Prop} {s₀ s : σ} {hist : List ε}

/-- The states reachable from `s₀`, each with the labels that led to it. -/
inductive Run (step : σ → ε → σ → Prop) (s₀ : σ) : List ε → σ → Prop
  | nil : Run step s₀ [] s₀
  | snoc {hist s e s'} : Run step s₀ hist s → step s e s' → Run step s₀ (hist ++ [e]) s'

theorem Run.invariant {P : List ε → σ → Prop} (h₀ : P [] s₀)
    (hstep : ∀ hist s e s', P hist s → step s e s' → P (hist ++ [e]) s')
    (h : Run step s₀ hist s) : P hist s := by
  induction h with
  | nil => exact h₀
  | snoc _ hs ih => exact hstep _ _ _ _ ih hs

theorem Run.simulation {R : σ → τ → Prop} {f : τ → ε → τ} {t₀ : τ} (h₀ : R s₀ t₀)
    (hstep : ∀ s t e s', R s t → step s e s' → R s' (f t e)) (h : Run step s₀ hist s) :
    R s (hist.foldl f t₀) := by
  apply h.invariant (P := fun hist s => R s (hist.foldl f t₀)) h₀
  intro hist s e s' hR hs
  rw [List.foldl_append]
  exact hstep _ _ _ _ hR hs

theorem Run.mono {step' : σ → ε → σ → Prop} (hstep : ∀ s e s', step s e s' → step' s e s')
    (h : Run step s₀ hist s) : Run step' s₀ hist s := by
  induction h with
  | nil => exact .nil
  | snoc _ hs ih => exact ih.snoc (hstep _ _ _ hs)

theorem Run.of_foldlM {next : σ → ε → Option σ} (hist : List ε)
    (h : hist.foldlM next s₀ = some s) : Run (fun s e s' => next s e = some s') s₀ hist s := by
  induction hist using List.reverseRecOn generalizing s with
  | nil =>
      cases h
      exact .nil
  | append_singleton hist e ih =>
      rw [List.foldlM_append] at h
      obtain ⟨s', hs', hlast⟩ := Option.bind_eq_some_iff.mp h
      obtain ⟨s'', hs'', hlast⟩ := Option.bind_eq_some_iff.mp hlast
      cases hlast
      exact (ih hs').snoc hs''

end Machine

/-! ## Calls in turn

What holds of every call of a sequence, given the calls before it. -/

namespace CallPrefixes
variable {α : Type*} {P : List α → α → Prop} {l l' : List α} {x : α}

theorem along_nil : ∀ earlier y, earlier ++ [y] <+: ([] : List α) → P earlier y := by
  intro earlier y hbegin
  simp at hbegin

theorem along_concat :
    (∀ earlier y, earlier ++ [y] <+: l ++ [x] → P earlier y) ↔
      (∀ earlier y, earlier ++ [y] <+: l → P earlier y) ∧ P l x := by
  constructor
  · intro hall
    exact ⟨fun earlier y hbegin => hall earlier y (hbegin.trans (List.prefix_append l [x])),
      hall l x (List.prefix_refl _)⟩
  · rintro ⟨hall, hx⟩ earlier y hbegin
    rcases List.prefix_concat_iff.mp hbegin with heq | hbegin
    · obtain ⟨hearlier, hy⟩ := List.append_inj' heq rfl
      rw [hearlier, List.singleton_inj.mp hy]
      exact hx
    · exact hall earlier y hbegin

/-- What holds along the calls and is kept by further ones holds along all of them. -/
theorem along_append (hl : ∀ earlier y, earlier ++ [y] <+: l → P earlier y)
    (hl' : ∀ earlier y, earlier ++ [y] <+: l' → P (l ++ earlier) y) :
    ∀ earlier y, earlier ++ [y] <+: l ++ l' → P earlier y := by
  induction l' using List.reverseRecOn with
  | nil =>
      rw [List.append_nil]
      exact hl
  | append_singleton l' x ih =>
      rw [← List.append_assoc, along_concat]
      rw [along_concat] at hl'
      exact ⟨ih hl'.1, hl'.2⟩

end CallPrefixes
