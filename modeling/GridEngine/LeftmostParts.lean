import Mathlib.Tactic

/-!
# Occurrences of a list in a list

The leftmost occurrences are those that a search meets which goes on behind each occurrence that
it finds, and the parts of a list are what lies between them. Other occurrences overlap one of
them, so the leftmost ones are all occurrences exactly if no two overlap.
-/

namespace Occurrences
variable {α : Type*}

/-- `old` stands at the place `i` of `s`. -/
def OccursAt (old s : List α) (i : ℕ) : Prop := old <+: s.drop i

instance [DecidableEq α] (old s : List α) : DecidablePred (OccursAt old s) := fun i =>
  inferInstanceAs (Decidable (old <+: s.drop i))

/-- No two occurrences overlap. -/
def Spaced (old s : List α) : Prop :=
  ∀ i j, OccursAt old s i → OccursAt old s j → i < j → i + old.length ≤ j

/-- What lies between the leftmost occurrences of `old`. -/
inductive LeftmostParts (old : List α) : List α → List (List α) → Prop
  | last {s} (hnone : ∀ i, ¬ OccursAt old s i) : LeftmostParts old s [s]
  | cons {part s parts} (hfirst : ∀ i < part.length, ¬ OccursAt old (part ++ old ++ s) i)
      (h : LeftmostParts old s parts) : LeftmostParts old (part ++ old ++ s) (part :: parts)

variable {old new s part : List α} {parts parts' : List (List α)} {i j : ℕ} {a : α}

theorem occursAt_add : OccursAt old s (i + j) ↔ OccursAt old (s.drop i) j := by
  rw [OccursAt, OccursAt, List.drop_drop]

theorem OccursAt.le_length (h : OccursAt old s i) (hold : old ≠ []) :
    i + old.length ≤ s.length := by
  have hpos := List.length_pos_iff.mpr hold
  have hle := h.length_le
  rw [List.length_drop] at hle
  omega

theorem occursAt_part : OccursAt old (part ++ old ++ s) part.length := by
  rw [OccursAt, List.append_assoc, List.drop_left]
  exact List.prefix_append old s

theorem occursAt_behind :
    OccursAt old (part ++ old ++ s) (part.length + old.length + i) ↔ OccursAt old s i := by
  rw [occursAt_add, ← List.length_append, List.drop_left]

theorem spaced_singleton : Spaced [a] s := fun _ _ _ _ hlt => hlt

section Parts

theorem LeftmostParts.ne_nil (h : LeftmostParts old s parts) : parts ≠ [] := by
  cases h <;> exact List.cons_ne_nil _ _

theorem first_unique {part' s' : List α} (heq : part ++ old ++ s = part' ++ old ++ s')
    (hfirst : ∀ i < part.length, ¬ OccursAt old (part ++ old ++ s) i)
    (hfirst' : ∀ i < part'.length, ¬ OccursAt old (part' ++ old ++ s') i) :
    part = part' ∧ s = s' := by
  have hlength : part.length = part'.length := by
    apply le_antisymm
    · by_contra hlt
      rw [heq] at hfirst
      exact hfirst part'.length (by omega) occursAt_part
    · by_contra hlt
      rw [← heq] at hfirst'
      exact hfirst' part.length (by omega) occursAt_part
  rw [List.append_assoc, List.append_assoc] at heq
  obtain ⟨hpart, hrest⟩ := List.append_inj heq hlength
  exact ⟨hpart, List.append_cancel_left hrest⟩

theorem LeftmostParts.unique (h : LeftmostParts old s parts) (h' : LeftmostParts old s parts') :
    parts = parts' := by
  induction h generalizing parts' with
  | last hnone =>
      cases h' with
      | last => rfl
      | cons => exact absurd occursAt_part (hnone _)
  | @cons part s parts hfirst h ih =>
      generalize hwhole : part ++ old ++ s = whole at h'
      cases h' with
      | last hnone =>
          rw [← hwhole] at hnone
          exact absurd occursAt_part (hnone _)
      | cons hfirst' h' =>
          obtain ⟨rfl, rfl⟩ := first_unique hwhole hfirst hfirst'
          rw [ih h']

theorem LeftmostParts.prepend (h : LeftmostParts old s (part :: parts))
    (hnot : ¬ old <+: a :: s) : LeftmostParts old (a :: s) ((a :: part) :: parts) := by
  cases h with
  | last hnone =>
      refine .last fun i => ?_
      cases i with
      | zero => exact hnot
      | succ i => exact hnone i
  | cons hfirst h =>
      rw [← List.cons_append, ← List.cons_append]
      refine .cons (fun i hi => ?_) h
      cases i with
      | zero => exact hnot
      | succ i => exact hfirst i (Nat.lt_of_succ_lt_succ hi)

/-- The length with `new` in place of the leftmost occurrences. -/
theorem LeftmostParts.length_intercalate (h : LeftmostParts old s parts) :
    ((new.intercalate parts).length : ℤ) =
      s.length + ((parts.length : ℤ) - 1) * ((new.length : ℤ) - old.length) := by
  induction h with
  | last hnone => simp
  | cons hfirst h ih =>
      rw [List.intercalate_cons_of_ne_nil h.ne_nil]
      simp only [List.length_append, List.length_cons, Nat.cast_add, Nat.cast_one, ih]
      ring

end Parts

section Number
variable [DecidableEq α]

/-- How often `old` occurs in `s`. -/
def number (old s : List α) : ℕ := Nat.count (OccursAt old s) s.length

theorem number_cons (old : List α) (a : α) (s : List α) :
    number old (a :: s) = (if old <+: a :: s then 1 else 0) + number old s := by
  rw [number, List.length_cons, Nat.count_succ', Nat.add_comm]
  rfl

theorem number_le (old s : List α) : number old s ≤ s.length := Nat.count_le _

theorem number_eq_zero_iff (hold : old ≠ []) :
    number old s = 0 ↔ ∀ i, ¬ OccursAt old s i := by
  rw [number, Nat.count_iff_forall_not]
  constructor
  · intro hnone i hi
    have hpos := List.length_pos_iff.mpr hold
    have hle := hi.le_length hold
    exact hnone i (by omega) hi
  · exact fun hnone i _ => hnone i

theorem number_eq_zero (hshort : s.length < old.length) : number old s = 0 := by
  rw [number_eq_zero_iff (List.ne_nil_of_length_pos (Nat.zero_lt_of_lt hshort))]
  intro i hi
  have hle := hi.length_le
  rw [List.length_drop] at hle
  omega

/-- The occurrences that overlap the one at the end of the first part. -/
def overlaps (old s : List α) (place : ℕ) : ℕ :=
  Nat.count (fun k => OccursAt old s (place + (k + 1))) (old.length - 1)

theorem number_part (hold : old ≠ [])
    (hfirst : ∀ i < part.length, ¬ OccursAt old (part ++ old ++ s) i) :
    number old (part ++ old ++ s) =
      overlaps old (part ++ old ++ s) part.length + 1 + number old s := by
  obtain ⟨m, hm⟩ := Nat.exists_eq_add_of_lt (List.length_pos_iff.mpr hold)
  have hbefore : Nat.count (OccursAt old (part ++ old ++ s)) part.length = 0 :=
    Nat.count_iff_forall_not.mpr hfirst
  have hwithin : Nat.count (fun k => OccursAt old (part ++ old ++ s) (part.length + k))
      old.length = overlaps old (part ++ old ++ s) part.length + 1 := by
    rw [overlaps, show old.length = m + 1 by omega, Nat.count_succ', Nat.add_zero,
      if_pos occursAt_part]
    rfl
  rw [number, List.length_append, List.length_append, Nat.count_add, Nat.count_add, hbefore,
    hwithin, Nat.zero_add]
  simp only [occursAt_behind]
  rfl

/-- Nothing overlaps in the whole list when nothing overlaps the first occurrence, and nothing
behind it. -/
theorem spaced_part
    (hfirst : ∀ i < part.length, ¬ OccursAt old (part ++ old ++ s) i) :
    Spaced old (part ++ old ++ s) ↔
      overlaps old (part ++ old ++ s) part.length = 0 ∧ Spaced old s := by
  rw [overlaps, Nat.count_iff_forall_not]
  constructor
  · intro hspaced
    refine ⟨fun k hk hoccurs => ?_, fun i j hi hj hlt => ?_⟩
    · have hle := hspaced _ _ occursAt_part hoccurs (by omega)
      omega
    · have hle := hspaced _ _ (occursAt_behind.mpr hi) (occursAt_behind.mpr hj) (by omega)
      omega
  · rintro ⟨halone, hspaced⟩ i j hi hj hlt
    -- an occurrence is the first one, or lies behind it
    have hplace : ∀ k, OccursAt old (part ++ old ++ s) k → k = part.length ∨
        ∃ k', k = part.length + old.length + k' := by
      intro k hk
      by_contra! hnot
      have hge : ¬ k < part.length := fun hlt => hfirst k hlt hk
      have hlt' : k < part.length + old.length := by
        by_contra hge'
        exact hnot.2 (k - (part.length + old.length)) (by omega)
      refine halone (k - part.length - 1) (by omega) ?_
      rwa [show part.length + (k - part.length - 1 + 1) = k by omega]
    rcases hplace i hi with rfl | ⟨i, rfl⟩
    · rcases hplace j hj with rfl | ⟨j, rfl⟩ <;> omega
    · rcases hplace j hj with rfl | ⟨j, rfl⟩
      · omega
      · have hle := hspaced i j (occursAt_behind.mp hi) (occursAt_behind.mp hj) (by omega)
        omega

theorem LeftmostParts.length_le (h : LeftmostParts old s parts) (hold : old ≠ []) :
    parts.length ≤ number old s + 1 := by
  induction h with
  | last hnone => simp
  | cons hfirst h ih =>
      rw [number_part hold hfirst, List.length_cons]
      omega

theorem LeftmostParts.length_eq_iff (h : LeftmostParts old s parts) (hold : old ≠ []) :
    parts.length = number old s + 1 ↔ Spaced old s := by
  induction h with
  | last hnone =>
      rw [(number_eq_zero_iff hold).mpr hnone]
      exact ⟨fun _ i _ hi => absurd hi (hnone i), fun _ => rfl⟩
  | cons hfirst h ih =>
      have hle := h.length_le hold
      rw [number_part hold hfirst, spaced_part hfirst, ← ih, List.length_cons]
      omega

/-- Room for a replacement of every occurrence is enough for the leftmost ones, unless replacements
are shorter and some occurrences overlap. -/
theorem LeftmostParts.length_intercalate_le_iff (h : LeftmostParts old s parts) (hold : old ≠ []) :
    ((new.intercalate parts).length : ℤ) ≤
        s.length + number old s * ((new.length : ℤ) - old.length) ↔
      old.length ≤ new.length ∨ Spaced old s := by
  have hle := h.length_le hold
  rw [h.length_intercalate, ← h.length_eq_iff hold, add_le_add_iff_left]
  by_cases hlonger : old.length ≤ new.length
  · have hmul := mul_le_mul_of_nonneg_right (by omega : (parts.length : ℤ) - 1 ≤ number old s)
      (by omega : (0 : ℤ) ≤ (new.length : ℤ) - old.length)
    exact ⟨fun _ => Or.inl hlonger, fun _ => hmul⟩
  · constructor
    · intro hroom
      by_contra! hnot
      have hmul := mul_lt_mul_of_neg_right (by omega : (parts.length : ℤ) - 1 < number old s)
        (by omega : (new.length : ℤ) - old.length < 0)
      omega
    · rintro (hlonger' | hall)
      · exact absurd hlonger' hlonger
      · rw [show (parts.length : ℤ) - 1 = number old s by omega]

end Number

end Occurrences
