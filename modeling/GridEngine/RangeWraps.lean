import GridEngine.RangeMove

/-!
# Unions and differences of any two range lists

`range_list_calculate_union_set` and `range_list_calculate_difference_set` sort and correct
their first list and run over the ids of the second one as it is. Where `start + step` leaves
the words, the counter of that loop wraps to ids below the start. The difference keeps a first
list without elements when nothing is removed from it.
-/

namespace GridEngine
open Segments

variable (srt : PSortList Range Range.min) (fuel : ℕ)

/-- `range_list_calculate_difference_set`; `old` is the list behind the pointer before the call. -/
def rangeListCalculateDifferenceSet (old l₁ l₂ : Option (List Range)) :
    Option (Option (List Range)) :=
  match l₁, l₂ with
  | none, _ => some old
  | some l₁, none => (rangeListSortUniqCompress srt fuel true l₁).map some
  | some l₁, some l₂ => do
      let l ← rangeListSortUniqCompress srt fuel true l₁
      let l ← removeRanges fuel (some l) l₂
      return l.map rangeListCompress

/-- The ids that the loop over a range visits once its counter wraps, with the first id. -/
def Range.wrapIds (r : Range) : Set ℕ :=
  {x | 2 ^ 32 ≤ r.min + r.step ∧ ∃ k, x + k * (2 ^ 32 - r.step) = r.min}

def wrapIds (l : List Range) : Set ℕ := {x | ∃ r ∈ l, x ∈ r.wrapIds}

/-- Every id is contained in only one of the ranges. -/
def SingleRanges (l : List Range) : Prop :=
  l.Pairwise (fun a b => ∀ id, ¬ (rangeIsIdWithin a id = true ∧ rangeIsIdWithin b id = true))

section Wraps
variable {fuel} {r : Range} {l : List Range} {a e d x : ℕ}

theorem forIds_wraps (hd : 1 ≤ d) (he : e < 2 ^ 32 - d) (ha : a ≤ e) (hfuel : a + 1 < fuel) :
    ∃ is, forIds fuel a e (2 ^ 32 - d) = some is ∧ ∀ x, x ∈ is ↔ ∃ k, x + k * d = a := by
  induction fuel generalizing a with
  | zero => omega
  | succ fuel ih =>
      by_cases hda : d ≤ a
      · have hnext : wadd a (2 ^ 32 - d) = a - d := by
          unfold wadd
          omega
        obtain ⟨is, his, hmem⟩ := @ih (a - d) (by omega) (by omega)
        refine ⟨a :: is, by rw [forIds, if_pos ha, hnext, his, Option.map_some], fun x => ?_⟩
        rw [List.mem_cons, hmem]
        constructor
        · rintro (rfl | ⟨k, hk⟩)
          · exact ⟨0, by simp⟩
          · exact ⟨k + 1, by rw [Nat.succ_mul]; omega⟩
        · rintro ⟨k, hk⟩
          cases k with
          | zero => exact Or.inl (by simpa using hk)
          | succ k => exact Or.inr ⟨k, by rw [Nat.succ_mul] at hk; omega⟩
      · have hnext : wadd a (2 ^ 32 - d) = a + (2 ^ 32 - d) := wadd_eq (by omega)
        have hstop : ¬ a + (2 ^ 32 - d) ≤ e := by omega
        obtain ⟨n, rfl⟩ : ∃ n, fuel = n + 1 := ⟨fuel - 1, by omega⟩
        refine ⟨[a], by rw [forIds, if_pos ha, hnext, forIds, if_neg hstop, Option.map_some],
          fun x => ?_⟩
        rw [List.mem_singleton]
        constructor
        · rintro rfl
          exact ⟨0, by simp⟩
        · rintro ⟨k, hk⟩
          cases k with
          | zero => simpa using hk
          | succ k =>
              rw [Nat.succ_mul] at hk
              omega

theorem Range.wrapIds_le (hx : x ∈ r.wrapIds) : x ≤ r.min := by
  obtain ⟨-, k, hk⟩ := hx
  omega

/-- The loop over the ids of a range visits its ids and the ones it wraps to. -/
theorem Range.Small.visits (h : r.Small) (hfuel : 2 ^ 31 < fuel) :
    r.Visits fuel (r.ids ∪ r.wrapIds) := by
  have hle := h.le
  have hmax := h.max_lt
  have hpos := h.step_pos
  have hstep := h.step_lt
  have hlt : ∀ x ∈ r.ids ∪ r.wrapIds, x < 2 ^ 31 := by
    rintro x (hx | hx)
    · exact (segment_le hx).2.trans_lt hmax
    · have := Range.wrapIds_le hx
      omega
  by_cases hwrap : 2 ^ 32 ≤ r.min + r.step
  · obtain ⟨is, his, hmem⟩ := @forIds_wraps fuel r.min r.max (2 ^ 32 - r.step) (by omega)
      (by omega) hle (by omega)
    rw [show 2 ^ 32 - (2 ^ 32 - r.step) = r.step by omega] at his
    have hids : r.ids = {r.min} := segment_eq_singleton hle (by omega)
    refine ⟨is, his, ?_, hlt⟩
    ext x
    simp only [hids, Range.wrapIds, Set.mem_union, Set.mem_singleton_iff, Set.mem_ofPred_eq, hmem,
      hwrap, true_and]
    constructor
    · exact Or.inr
    · rintro (rfl | hx)
      · exact ⟨0, by simp⟩
      · exact hx
  · have hempty : r.wrapIds = ∅ := by
      ext x
      exact iff_of_false (fun hx => hwrap hx.1) (Set.notMem_empty x)
    rw [hempty, Set.union_empty] at hlt ⊢
    by_cases hs : r.step < 2 ^ 31
    · obtain ⟨is, his, hmem⟩ := forIds_spec (a := r.min) hmax hpos hs
        (show 0 < fuel by omega) (by omega)
      exact ⟨is, his, Set.ext hmem, hlt⟩
    · have hids : r.ids = {r.min} := segment_eq_singleton hle (by omega)
      obtain ⟨n, rfl⟩ : ∃ n, fuel = n + 2 := ⟨fuel - 2, by omega⟩
      refine ⟨[r.min], ?_, by rw [hids]; ext x; simp, hlt⟩
      rw [forIds, if_pos hle, wadd_eq (by omega), forIds, if_neg (by omega), Option.map_some]

theorem visited_eq : {x | ∃ r ∈ l, x ∈ r.ids ∪ r.wrapIds} = ids l ∪ wrapIds l := by
  ext x
  simp only [Set.mem_ofPred_eq, Set.mem_union, mem_ids, wrapIds, ← exists_or, ← and_or_left]

theorem Canonical.singleRanges (h : Canonical l) : SingleRanges l := by
  refine h.sorted.imp ?_
  rintro a b hab id ⟨ha, hb⟩
  have hle := (segment_le (rangeIsIdWithin_iff.mp ha)).2
  have hge := (segment_le (rangeIsIdWithin_iff.mp hb)).1
  omega

end Wraps

section Freed
variable {fuel} {l : List Range} {o out : Option (List Range)}

theorem freeIfEmpty_ne : freeIfEmpty l ≠ some [] := by
  unfold freeIfEmpty
  split_ifs with h
  · exact nofun
  · exact fun heq => h (Option.some.inj heq)

theorem rangeListRemoveId_ne (id : ℕ) : rangeListRemoveId o id ≠ some [] := by
  cases o with
  | none => exact nofun
  | some l => exact freeIfEmpty_ne

theorem foldl_removeId_ne (is : List ℕ) (h : o ≠ some [] ∨ is ≠ []) :
    is.foldl rangeListRemoveId o ≠ some [] := by
  induction is generalizing o with
  | nil => simpa using h
  | cons id is ih => exact ih (Or.inl (rangeListRemoveId_ne id))

/-- A list that lost an id, or had one, is freed when it has none left. -/
theorem removeRanges_ne (hl : ∀ r ∈ l, r.min ≤ r.max) (hout : removeRanges fuel o l = some out)
    (h : o ≠ some [] ∨ l ≠ []) : out ≠ some [] := by
  induction l generalizing o with
  | nil =>
      obtain rfl : o = out := Option.some.inj hout
      simpa using h
  | cons r l ih =>
      rw [removeRanges, List.foldlM_cons, Option.bind_eq_bind, Option.bind_eq_some_iff] at hout
      obtain ⟨mid, hmid, hrest⟩ := hout
      obtain ⟨is, his, rfl⟩ := Option.map_eq_some_iff.mp hmid
      have hne : is ≠ [] := by
        rintro rfl
        cases fuel with
        | zero => simp [forIds] at his
        | succ fuel => simp [forIds, hl r (by simp)] at his
      exact ih (fun q hq => hl q (by simp [hq])) hrest (Or.inl (foldl_removeId_ne is (Or.inr hne)))

theorem removeRanges_mono {m n : ℕ} (hmn : m ≤ n) (h : removeRanges m o l = some out) :
    removeRanges n o l = some out := by
  induction l generalizing o with
  | nil => exact h
  | cons r l ih =>
      rw [removeRanges, List.foldlM_cons, Option.bind_eq_bind, Option.bind_eq_some_iff] at h ⊢
      obtain ⟨mid, hmid, hrest⟩ := h
      obtain ⟨is, his, rfl⟩ := Option.map_eq_some_iff.mp hmid
      exact ⟨_, by rw [forIds_mono hmn his, Option.map_some], ih hrest⟩

theorem ids_eq_empty_iff (h : Canonical l) : ids l = ∅ ↔ l = [] := by
  constructor
  · intro hempty
    cases l with
    | nil => rfl
    | cons r l =>
        have hmem : r.min ∈ ids (r :: l) := ⟨r, by simp, (h.ok r (by simp)).min_mem⟩
        rw [hempty] at hmem
        exact hmem.elim
  · rintro rfl
    exact ids_nil

theorem rangeListCompress_eq_nil_iff (h : Canonical l) : rangeListCompress l = [] ↔ l = [] := by
  obtain ⟨hc, hids⟩ := rangeListCompress_spec h
  rw [← ids_eq_empty_iff hc, hids, ids_eq_empty_iff h]

end Freed

/-- The union is exact, whatever fuel from some point on. -/
def UnionExact (l₁ l₂ : Option (List Range)) : Prop :=
  ∃ (out : Option (List Range)) (bound : ℕ),
    (∀ fuel, bound ≤ fuel → rangeListCalculateUnionSet srt fuel l₁ l₂ = some out) ∧
    ids (out.getD []) = ids (l₁.getD []) ∪ ids (l₂.getD []) ∧ SingleRanges (out.getD [])

/-- The difference is exact, and no list when it is empty. -/
def DifferenceExact (l₁ l₂ : Option (List Range)) : Prop :=
  ∃ (out : Option (List Range)) (bound : ℕ),
    (∀ fuel old, bound ≤ fuel → rangeListCalculateDifferenceSet srt fuel old l₁ l₂ = some out) ∧
    ids (out.getD []) = ids (l₁.getD []) \ ids (l₂.getD []) ∧ SingleRanges (out.getD []) ∧
    (out = none ↔ ids (l₁.getD []) \ ids (l₂.getD []) = ∅)

/-- Enough fuel for both of two results shows that they are the same. -/
theorem fuel_unique {α : Type*} {f : ℕ → Option α} {a b : α} {m n : ℕ}
    (ha : ∀ fuel, m ≤ fuel → f fuel = some a) (hb : ∀ fuel, n < fuel → f fuel = some b) :
    a = b := by
  have hsome := ha (max m (n + 1)) (le_max_left _ _)
  rw [hb _ (lt_of_lt_of_le (Nat.lt_succ_self n) (le_max_right _ _))] at hsome
  exact (Option.some.inj hsome).symm

section Sets
variable {l₁ l₂ : List Range} {o : Option (List Range)}

theorem exists_sortUniqCompress (h : ∀ r ∈ l₁, r.Small) :
    ∃ out, (∀ fuel, 2 ^ 31 < fuel → rangeListSortUniqCompress srt fuel true l₁ = some out) ∧
      Canonical out ∧ ids out = ids l₁ := by
  obtain ⟨out, hout, hc, hids⟩ := rangeListSortUniqCompress_spec srt
    (fun r hr => (h r hr).corrects) (Nat.lt_succ_self (2 ^ 31))
  exact ⟨out, fun fuel hfuel => rangeListSortUniqCompress_mono srt hfuel hout, hc, hids⟩

/-- The union of two lists has the ids of both and those that the loop wraps to. -/
theorem unionSet_ids (h₁ : ∀ r ∈ l₁, r.Small) (h₂ : ∀ r ∈ l₂, r.Small) :
    ∃ out, (∀ fuel, 2 ^ 31 < fuel →
        rangeListCalculateUnionSet srt fuel (some l₁) (some l₂) = some (some out)) ∧
      Canonical out ∧ ids out = ids l₁ ∪ (ids l₂ ∪ wrapIds l₂) := by
  obtain ⟨sorted, hsorted, hc, hids⟩ := exists_sortUniqCompress srt h₁
  obtain ⟨mid, hmid, hcMid, hidsMid⟩ := insertRanges_visits srt hc
    (fun r hr => (h₂ r hr).visits (Nat.lt_succ_self (2 ^ 31)))
  obtain ⟨hcOut, hidsOut⟩ := rangeListCompress_spec hcMid
  refine ⟨rangeListCompress mid, fun fuel hfuel => ?_, hcOut, ?_⟩
  · simp [rangeListCalculateUnionSet, hsorted fuel hfuel, insertRanges_mono srt hfuel hmid]
  · rw [hidsOut, hidsMid, hids, visited_eq]

/-- The difference misses the ids that the loop wraps to. It is freed except when neither list
has an element. -/
theorem differenceSet_ids (h₁ : ∀ r ∈ l₁, r.Small) (h₂ : ∀ r ∈ l₂, r.Small) :
    ∃ out, (∀ fuel old, 2 ^ 31 < fuel →
        rangeListCalculateDifferenceSet srt fuel old (some l₁) (some l₂) = some out) ∧
      Canonical (out.getD []) ∧
      ids (out.getD []) = ids l₁ \ (ids l₂ ∪ wrapIds l₂) ∧
      (out = some [] ↔ l₁ = [] ∧ l₂ = []) := by
  obtain ⟨sorted, hsorted, hc, hids⟩ := exists_sortUniqCompress srt h₁
  obtain ⟨mid, hmid, hcMid, hidsMid⟩ := @removeRanges_visits _ _ (some sorted) _ hc
    (fun r hr => (h₂ r hr).visits (Nat.lt_succ_self (2 ^ 31)))
  obtain ⟨hcOut, hidsOut⟩ := compressOpt_spec hcMid
  have hempty : sorted = [] ↔ l₁ = [] := by
    rw [← ids_eq_empty_iff hc, hids]
    cases l₁ with
    | nil => simp
    | cons r l =>
        have hmem : r.min ∈ ids (r :: l) := ⟨r, by simp, left_mem_grid, (h₁ r (by simp)).le⟩
        exact ⟨fun heq => absurd hmem (heq ▸ Set.notMem_empty _), nofun⟩
  have hfreed : mid = some [] ↔ l₁ = [] ∧ l₂ = [] := by
    constructor
    · intro hmidNil
      by_contra hne
      refine removeRanges_ne (fun r hr => (h₂ r hr).le) hmid ?_ hmidNil
      rw [Ne, Option.some.injEq, hempty]
      tauto
    · rintro ⟨rfl, rfl⟩
      rw [hempty.mpr rfl] at hmid
      exact (Option.some.inj hmid).symm
  refine ⟨mid.map rangeListCompress, fun fuel old hfuel => ?_, hcOut, ?_, ?_⟩
  · simp [rangeListCalculateDifferenceSet, hsorted fuel hfuel, removeRanges_mono hfuel hmid]
  · rw [hidsOut, hidsMid, visited_eq, Option.getD_some, hids]
  · rw [← hfreed, Option.map_eq_some_iff]
    constructor
    · rintro ⟨l, rfl, hl⟩
      exact congrArg some ((rangeListCompress_eq_nil_iff hcMid).mp hl)
    · rintro rfl
      exact ⟨[], rfl, rfl⟩

theorem unionExact_single {o₁ o₂ : Option (List Range)} (h₁ : ∀ r ∈ o₁.getD [], r.Small)
    (h₂ : ∀ r ∈ o₂.getD [], r.Small) (hsome : o₁ ≠ none ∨ o₂ ≠ none)
    (hnone : o₁ = none ∨ o₂ = none) : UnionExact srt o₁ o₂ := by
  rcases hnone with rfl | rfl
  · obtain ⟨l₂, rfl⟩ := Option.ne_none_iff_exists'.mp (hsome.resolve_left (not_not.mpr rfl))
    obtain ⟨out, hout, hc, hids⟩ := exists_sortUniqCompress srt h₂
    refine ⟨some out, 2 ^ 31 + 1, fun fuel hfuel => ?_, by simp [hids], hc.singleRanges⟩
    exact congrArg (Option.map some) (hout fuel hfuel)
  · obtain ⟨l₁, rfl⟩ := Option.ne_none_iff_exists'.mp (hsome.resolve_right (not_not.mpr rfl))
    obtain ⟨out, hout, hc, hids⟩ := exists_sortUniqCompress srt h₁
    refine ⟨some out, 2 ^ 31 + 1, fun fuel hfuel => ?_, by simp [hids], hc.singleRanges⟩
    exact congrArg (Option.map some) (hout fuel hfuel)

theorem unionExact_iff (h₁ : ∀ r ∈ l₁, r.Small) (h₂ : ∀ r ∈ l₂, r.Small) :
    UnionExact srt (some l₁) (some l₂) ↔ wrapIds l₂ ⊆ ids l₁ ∪ ids l₂ := by
  obtain ⟨out, hout, hc, hids⟩ := unionSet_ids srt h₁ h₂
  constructor
  · rintro ⟨out', bound, hout', hids', -⟩
    obtain rfl : out' = some out := fuel_unique hout' hout
    intro x hx
    have hmem : x ∈ ids out := hids ▸ Or.inr (Or.inr hx)
    rwa [← Option.getD_some (a := out), hids'] at hmem
  · intro hwrap
    refine ⟨some out, 2 ^ 31 + 1, hout, ?_, hc.singleRanges⟩
    rw [Option.getD_some, hids]
    ext x
    have hx := @hwrap x
    simp only [Set.mem_union, Option.getD_some] at hx ⊢
    tauto

theorem differenceExact_none (h₁ : ∀ r ∈ l₁, r.Small) :
    DifferenceExact srt (some l₁) none ↔ l₁ ≠ [] := by
  obtain ⟨out, hout, hc, hids⟩ := exists_sortUniqCompress srt h₁
  have hdiff : ∀ fuel old, 2 ^ 31 < fuel →
      rangeListCalculateDifferenceSet srt fuel old (some l₁) none = some (some out) :=
    fun fuel old hfuel => by simp [rangeListCalculateDifferenceSet, hout fuel hfuel]
  have hempty : ids l₁ = ∅ ↔ l₁ = [] := by
    cases l₁ with
    | nil => simp
    | cons r l =>
        have hmem : r.min ∈ ids (r :: l) := ⟨r, by simp, left_mem_grid, (h₁ r (by simp)).le⟩
        exact ⟨fun heq => absurd hmem (heq ▸ Set.notMem_empty _), nofun⟩
  constructor
  · rintro ⟨out', bound, hout', -, -, hfreed⟩ hl
    obtain rfl : out' = some out :=
      fuel_unique (fun fuel => hout' fuel none) (fun fuel => hdiff fuel none)
    exact absurd (hfreed.mpr (by simp [hl])) (Option.some_ne_none out)
  · intro hne
    refine ⟨some out, 2 ^ 31 + 1, hdiff, by simp [hids], hc.singleRanges, ?_⟩
    simpa [hempty] using hne

theorem differenceExact_iff (h₁ : ∀ r ∈ l₁, r.Small) (h₂ : ∀ r ∈ l₂, r.Small) :
    DifferenceExact srt (some l₁) (some l₂) ↔
      wrapIds l₂ ∩ ids l₁ ⊆ ids l₂ ∧ (l₁ = [] → l₂ ≠ []) := by
  obtain ⟨out, hout, hc, hids, hfreed⟩ := differenceSet_ids srt h₁ h₂
  constructor
  · rintro ⟨out', bound, hout', hids', -, hnone⟩
    obtain rfl : out' = out := fuel_unique (fun fuel => hout' fuel none) (fun fuel => hout fuel none)
    rw [hids'] at hids
    constructor
    · rintro x ⟨hwrap, hx⟩
      by_contra hnot
      have hmem : x ∈ ids l₁ \ (ids l₂ ∪ wrapIds l₂) := hids ▸ ⟨hx, hnot⟩
      exact hmem.2 (Or.inr hwrap)
    · rintro hl₁ hl₂
      rw [hfreed.mpr ⟨hl₁, hl₂⟩, hl₁] at hnone
      exact absurd (hnone.mpr (by simp)) (Option.some_ne_none _)
  · rintro ⟨hwrap, hne⟩
    have hdiff : ids l₁ \ (ids l₂ ∪ wrapIds l₂) = ids l₁ \ ids l₂ := by
      ext x
      have hx := @hwrap x
      simp only [Set.mem_inter_iff, Set.mem_sdiff, Set.mem_union] at hx ⊢
      tauto
    refine ⟨out, 2 ^ 31 + 1, hout, hids.trans hdiff, hc.singleRanges, ?_⟩
    rw [Option.getD_some, Option.getD_some, ← hdiff, ← hids, ids_eq_empty_iff hc]
    cases out with
    | none => simp
    | some l =>
        have hl : l ≠ [] := by
          rintro rfl
          obtain ⟨hl₁, hl₂⟩ := hfreed.mp rfl
          exact hne hl₁ hl₂
        simpa using hl

/-- Both functions are exact exactly when no loop over the second list wraps to an id outside
of it, and the first list is not an empty one from which nothing is removed. -/
theorem rangeListCalculateSets_exact_iff {o₁ o₂ : Option (List Range)}
    (h₁ : ∀ r ∈ o₁.getD [], r.Small) (h₂ : ∀ r ∈ o₂.getD [], r.Small) :
    ((o₁ ≠ none ∨ o₂ ≠ none → UnionExact srt o₁ o₂) ∧ (o₁ ≠ none → DifferenceExact srt o₁ o₂)) ↔
      (o₁ ≠ none →
        wrapIds (o₂.getD []) ⊆ ids (o₂.getD []) ∧ (o₁ = some [] → o₂.getD [] ≠ [])) := by
  have hnil : wrapIds [] = ∅ := by simp [wrapIds]
  cases o₁ with
  | none => simpa using fun hsome => unionExact_single srt h₁ h₂ (Or.inr hsome) (Or.inl rfl)
  | some l₁ =>
      cases o₂ with
      | none =>
          have hunion := @unionExact_single srt (some l₁) none h₁ h₂ (by simp) (by simp)
          have hdiff := differenceExact_none srt h₁
          simpa [hnil, hunion] using hdiff
      | some l₂ =>
          simp only [ne_eq, reduceCtorEq, not_false_eq_true, or_self, forall_const,
            Option.getD_some, Option.some.injEq] at h₁ h₂ ⊢
          rw [unionExact_iff srt h₁ h₂, differenceExact_iff srt h₁ h₂]
          constructor
          · rintro ⟨hunion, hdiff, hne⟩
            refine ⟨fun x hx => ?_, hne⟩
            rcases hunion hx with hmem | hmem
            · exact hdiff ⟨hx, hmem⟩
            · exact hmem
          · rintro ⟨hwrap, hne⟩
            exact ⟨hwrap.trans Set.subset_union_right, Set.inter_subset_left.trans hwrap, hne⟩

/-- The lists `10-10:1,1-5:2` and `3-12:1`. -/
theorem overlappingRanges_exact :
    UnionExact (PSortList.stable Range Range.min) (some [⟨10, 10, 1⟩, ⟨1, 5, 2⟩])
      (some [⟨3, 12, 1⟩]) ∧
    DifferenceExact (PSortList.stable Range Range.min) (some [⟨10, 10, 1⟩, ⟨1, 5, 2⟩])
      (some [⟨3, 12, 1⟩]) := by
  have hexact := (@rangeListCalculateSets_exact_iff (PSortList.stable Range Range.min)
    (some [⟨10, 10, 1⟩, ⟨1, 5, 2⟩]) (some [⟨3, 12, 1⟩]) ?_ ?_).mpr ?_
  · exact ⟨hexact.1 (Or.inl (Option.some_ne_none _)), hexact.2 (Option.some_ne_none _)⟩
  · simp only [Option.getD_some, List.mem_cons, List.not_mem_nil, or_false]
    rintro r (rfl | rfl) <;> exact ⟨by norm_num, by norm_num, by norm_num, by norm_num⟩
  · simp only [Option.getD_some, List.mem_singleton]
    rintro r rfl
    exact ⟨by norm_num, by norm_num, by norm_num, by norm_num⟩
  · refine fun _ => ⟨?_, fun heq => absurd (Option.some.inj heq) (List.cons_ne_nil _ _)⟩
    rintro x ⟨r, hr, hwrap, -⟩
    obtain rfl := List.mem_singleton.mp hr
    exact absurd hwrap (by norm_num)

/-- The loop over `1-5:4294967295` also inserts 0, and an empty first list is not freed. -/
theorem largeStep_notExact :
    (∀ r ∈ [⟨10, 10, 1⟩, ⟨1, 5, 4294967295⟩], Range.Small r) ∧
    ¬ UnionExact (PSortList.stable Range Range.min) (some [⟨10, 10, 1⟩])
      (some [⟨1, 5, 4294967295⟩]) ∧
    ¬ DifferenceExact (PSortList.stable Range Range.min) (some []) none := by
  have hsmall : ∀ r ∈ [⟨10, 10, 1⟩, ⟨1, 5, 4294967295⟩], Range.Small r := by
    simp only [List.mem_cons, List.not_mem_nil, or_false]
    rintro r (rfl | rfl) <;> exact ⟨by norm_num, by norm_num, by norm_num, by norm_num⟩
  refine ⟨hsmall, ?_, ?_⟩
  · rw [unionExact_iff _ (fun r hr => hsmall r (by simp_all)) (fun r hr => hsmall r (by simp_all))]
    intro hwrap
    have hzero : 0 ∈ wrapIds [⟨1, 5, 4294967295⟩] :=
      ⟨⟨1, 5, 4294967295⟩, List.mem_singleton_self _, by norm_num, 1, by norm_num⟩
    have hmem := hwrap hzero
    simp [Range.ids, mem_segment_iff_mod] at hmem
  · rw [differenceExact_none _ (by simp)]
    exact not_not.mpr rfl

end Sets

end GridEngine
